import UnstructuredText.Lib.Sized

/-! What a carving leaves. When every item is spelled out in as many pieces as its size,
the pieces that are left are the ones whose offset lies in no span. -/

namespace Sized
variable {α β : Type*} {σ : Sizing α}

theorem exists_between {done rest : List α} {n : ℕ} (h : isBoundary σ (done ++ rest) n = true)
    (hle : total σ done ≤ n) : ∃ g l, rest = g ++ l ∧ n = total σ done + total σ g := by
  obtain ⟨a, b, heq, rfl⟩ := (isBoundary_iff σ).mp h
  rcases List.append_eq_append_iff.mp heq with ⟨g, rfl, rfl⟩ | ⟨g, rfl, rfl⟩
  · exact ⟨g, b, rfl, total_append σ done g⟩
  · rw [total_append] at hle
    obtain rfl := (total_eq_zero σ (l := g)).mp (by omega)
    exact ⟨[], rest, rfl, by rw [List.append_nil, total_nil, Nat.add_zero]⟩

def Outside (spans : List (ℕ × ℕ)) (n : ℕ) : Prop := ∀ s ∈ spans, ¬(s.1 ≤ n ∧ n < s.1 + s.2)

instance (spans : List (ℕ × ℕ)) (n : ℕ) : Decidable (Outside spans n) :=
  inferInstanceAs (Decidable (∀ s ∈ spans, _))

theorem outside_cons {s : ℕ × ℕ} {spans : List (ℕ × ℕ)} {n : ℕ} :
    Outside (s :: spans) n ↔ ¬(s.1 ≤ n ∧ n < s.1 + s.2) ∧ Outside spans n := List.forall_mem_cons

namespace Carved
variable {off : ℕ} {l r : List α} {spans : List (ℕ × ℕ)}

theorem le_start (h : Carved σ off l spans r) : ∀ s ∈ spans, off ≤ s.1 := by
  induction h with
  | done => exact fun _ hs => absurd hs List.not_mem_nil
  | span g m _ ih =>
    rw [List.forall_mem_cons]
    exact ⟨Nat.le_add_right _ _, fun s hs => Nat.le_trans (by omega) (ih s hs)⟩

variable (piece : α → List β) (hpiece : ∀ a, (piece a).length = σ.size a)
include hpiece

theorem length_flatMap (l : List α) : (l.flatMap piece).length = total σ l := by
  induction l with
  | nil => rfl
  | cons a l ih => rw [List.flatMap_cons, List.length_append, hpiece, ih, total_cons]

theorem mem_pieces_bounds {n : ℕ} {p : β × ℕ} (hp : p ∈ (l.flatMap piece).zipIdx n) :
    n ≤ p.2 ∧ p.2 < n + total σ l := by
  obtain ⟨hle, hlt, _⟩ := @List.mem_zipIdx β p.1 p.2 _ n hp
  rw [length_flatMap piece hpiece] at hlt
  exact ⟨hle, hlt⟩

theorem filter_zipIdx (h : Carved σ off l spans r) :
    (((l.flatMap piece).zipIdx off).filter fun p => Outside spans p.2).map Prod.fst =
      r.flatMap piece := by
  have hlen := length_flatMap piece hpiece
  induction h with
  | done off l =>
    have hall : ((l.flatMap piece).zipIdx off).filter (fun p => Outside [] p.2) =
        (l.flatMap piece).zipIdx off :=
      List.filter_eq_self.mpr fun p _ => decide_eq_true fun s hs => absurd hs List.not_mem_nil
    rw [hall, List.zipIdx_map_fst]
  | @span off g m l r spans tail ih =>
    -- the pieces in front of the span are kept, its own are dropped, the others are as before
    have hkept : ((g.flatMap piece).zipIdx off).filter
        (fun p => Outside ((off + total σ g, total σ m) :: spans) p.2) =
          (g.flatMap piece).zipIdx off := by
      refine List.filter_eq_self.mpr fun p hp => decide_eq_true (outside_cons.mpr ⟨?_, ?_⟩)
      · have hbound := mem_pieces_bounds piece hpiece hp
        omega
      · intro s hs
        have hbound := mem_pieces_bounds piece hpiece hp
        have hstart := tail.le_start s hs
        omega
    have hdropped : ((m.flatMap piece).zipIdx (off + total σ g)).filter
        (fun p => Outside ((off + total σ g, total σ m) :: spans) p.2) = [] := by
      refine List.filter_eq_nil_iff.mpr fun p hp hout => ?_
      exact (outside_cons.mp (of_decide_eq_true hout)).1 (mem_pieces_bounds piece hpiece hp)
    have hrest : ((l.flatMap piece).zipIdx (off + total σ g + total σ m)).filter
        (fun p => Outside ((off + total σ g, total σ m) :: spans) p.2) =
          ((l.flatMap piece).zipIdx (off + total σ g + total σ m)).filter
            fun p => Outside spans p.2 := by
      refine List.filter_congr fun p hp => decide_eq_decide.mpr ?_
      have hbound := mem_pieces_bounds piece hpiece hp
      rw [outside_cons, and_iff_right (by omega)]
    rw [List.flatMap_append, List.flatMap_append, List.zipIdx_append, List.zipIdx_append, hlen, hlen,
      List.filter_append, List.filter_append, hkept, hdropped, hrest, List.nil_append,
      List.map_append, ih, List.zipIdx_map_fst, List.flatMap_append]

end Carved

end Sized
