import UnstructuredText.Lib.RunCuts

/-! Removal of runs. Carving any selection of the runs out of a list leaves exactly the
other runs, each moved back by what was removed before it. -/

namespace MarkedRuns
open Sized
variable {α β : Type*}

namespace Run

def unshift (k : ℕ) (r : Run β) : Run β := { r with start := r.start - k }

theorem unshift_shift (k : ℕ) (r : Run β) : (r.shift k).unshift k = r := by
  simp only [unshift, shift, Nat.add_sub_cancel]

theorem sizeBefore_cons_of_lt {s : Run β} {n : ℕ} (h : s.start < n) (rs : List (Run β)) :
    sizeBefore (s :: rs) n = s.length + sizeBefore rs n := by
  rw [sizeBefore, List.filter_cons_of_pos (by simpa using h), List.map_cons, List.sum_cons]
  rfl

theorem sizeBefore_eq_zero {rs : List (Run β)} {n : ℕ} (h : ∀ s ∈ rs, n ≤ s.start) :
    sizeBefore rs n = 0 := by
  have hnil : (rs.filter fun s => s.start < n) = [] :=
    List.filter_eq_nil_iff.mpr fun s hs => by simpa using h s hs
  rw [sizeBefore, hnil]
  rfl

theorem sizeBefore_eq_spans (rs : List (Run β)) (n : ℕ) :
    sizeBefore rs n = (((rs.map span).filter fun s => s.1 < n).map Prod.snd).sum := by
  rw [sizeBefore, List.filter_map, List.map_map]
  rfl

theorem sizeBefore_le {rs : List (Run β)} {n : ℕ}
    (hdisjoint : rs.Pairwise fun s t => s.stop ≤ t.start)
    (hstop : ∀ s ∈ rs, s.start < n → s.stop ≤ n) {off : ℕ} (hoff : off ≤ n)
    (hstart : ∀ s ∈ rs, off ≤ s.start) : off + sizeBefore rs n ≤ n := by
  induction rs generalizing off with
  | nil => exact hoff
  | cons s rs ih =>
    obtain ⟨hs, hrest⟩ := List.pairwise_cons.mp hdisjoint
    have hfirst := hstart s List.mem_cons_self
    rcases Nat.lt_or_ge s.start n with hlt | hge
    · have hle := ih hrest (fun t ht => hstop t (List.mem_cons_of_mem s ht))
        (hstop s List.mem_cons_self hlt) hs
      rw [sizeBefore_cons_of_lt hlt]
      rw [stop] at hle
      omega
    · rw [sizeBefore_eq_zero]
      · exact hoff
      · intro t ht
        rcases List.mem_cons.mp ht with rfl | ht
        · exact hge
        · exact Nat.le_trans hge (Nat.le_trans (Nat.le_add_right _ _) (hs t ht))

theorem settle_of_le {rs : List (Run β)} {r : Run β} (h : ∀ s ∈ rs, r.start ≤ s.start) :
    settle rs r = r := by
  rw [settle, sizeBefore_eq_zero h]
  rfl

theorem settle_cons_of_lt {s r : Run β} (h : s.start < r.start) (rs : List (Run β)) :
    settle (s :: rs) r = (settle rs r).unshift s.length := by
  simp only [settle, unshift, sizeBefore_cons_of_lt h, Run.mk.injEq, true_and, and_true]
  omega

end Run

variable (A : Alphabet α β)

theorem Blunt.seam {g b t : List α} (ht : Blunt A b → Blunt A t) (h : Blunt A (g ++ b)) :
    Blunt A (g ++ t) := by
  cases g with
  | nil => exact ht h
  | cons x g => exact h

variable [DecidableEq α]

theorem runsFrom_unshift (off k : ℕ) (l : List α) :
    runsFrom A off l = (runsFrom A (off + k) l).map (Run.unshift k) := by
  rw [runsFrom_shift, List.map_map]
  exact (List.map_id _).symm.trans
    (List.map_congr_left fun r _ => (Run.unshift_shift k r).symm)

theorem sizeBefore_filter_le (pick : Run β → Bool) {off : ℕ} {l : List α} {r : Run β}
    (hr : r ∈ runsFrom A off l) :
    off + Run.sizeBefore ((runsFrom A off l).filter pick) r.start ≤ r.start := by
  have hpair := runsFrom_pairwise A off l
  -- a chosen run that begins before `r` also ends before it
  have hforward : (runsFrom A off l).Pairwise fun s r => s.start < r.start → s.stop ≤ r.start := by
    apply hpair.imp
    intro s r h _
    exact h
  have hbackward : (runsFrom A off l).Pairwise fun r s => s.start < r.start → s.stop ≤ r.start := by
    apply hpair.imp
    intro r s h hlt
    exact absurd (Nat.le_trans (Nat.le_add_right _ _) h) (Nat.not_le.mpr hlt)
  have hstop : ∀ s ∈ runsFrom A off l, s.start < r.start → s.stop ≤ r.start := fun s hs =>
    List.Pairwise.forall_of_forall_of_flip (fun s _ h => absurd h (Nat.lt_irrefl s.start))
      hforward hbackward hs hr
  refine Run.sizeBefore_le (hpair.filter pick) (fun s hs => hstop s (List.mem_filter.mp hs).1)
    (runsFrom_bounds A hr).1 fun s hs => ?_
  exact (runsFrom_bounds A (List.mem_filter.mp hs).1).1

theorem exists_carved (pick : Run β → Bool) (off : ℕ) (l : List α) :
    ∃ r, Carved A.toSizing off l (((runsFrom A off l).filter pick).map Run.span) r ∧
      (Blunt A l → Blunt A r) ∧
      runsFrom A off r = ((runsFrom A off l).filter fun x => !pick x).map
        (Run.settle ((runsFrom A off l).filter pick)) := by
  induction l using runs_induction A generalizing off with
  | none l h =>
    refine ⟨l, ?_, id, ?_⟩ <;> rw [runsFrom_eq_nil A off h]
    · exact .done off l
    · rfl
  | run g m b hg hm hb ih =>
    set off' := off + total A.toSizing g + total A.toSizing (A.marker :: m) with hoff'
    obtain ⟨r, hcarved, hblunt, hruns⟩ := ih off'
    rw [runsFrom_first A off hg hm hb]
    set s : Run β := runAt A (off + total A.toSizing g) m with hs
    have hlt : ∀ x ∈ runsFrom A off' b, s.start < x.start := fun x hx =>
      Nat.lt_of_lt_of_le (Nat.lt_add_of_pos_right (Nat.add_pos_left (A.pos A.marker) _))
        (runsFrom_bounds A hx).1
    cases hpick : pick s with
    | true =>
      -- the seam closes over `s`, and what follows moves back by its length
      refine ⟨g ++ r, ?_, Blunt.seam A fun _ => hblunt hb, ?_⟩
      · rw [List.filter_cons_of_pos hpick]
        exact .span g (A.marker :: m) hcarved
      · rw [List.filter_cons_of_pos hpick, List.filter_cons_of_neg (by simp [hpick]),
          runsFrom_skip A off hg, runsFrom_unshift A _ s.length]
        change (runsFrom A off' r).map _ = _
        rw [hruns, List.map_map]
        refine List.map_congr_left fun x hx => ?_
        rw [Run.settle_cons_of_lt (hlt x (List.mem_filter.mp hx).1)]
        rfl
    | false =>
      refine ⟨g ++ A.marker :: (m ++ r), ?_, Blunt.seam A fun _ => blunt_marker A _, ?_⟩
      · rw [List.filter_cons_of_neg (by simp [hpick])]
        have hkept : Carved A.toSizing off (g ++ A.marker :: m ++ b) _
            (g ++ A.marker :: m ++ r) :=
          Carved.prepend _ (by rwa [total_append, ← Nat.add_assoc])
        simpa only [List.append_assoc, List.cons_append] using hkept
      · rw [List.filter_cons_of_neg (by simp [hpick]), List.filter_cons_of_pos (by simp [hpick]),
          runsFrom_first A off hg hm (hblunt hb), hruns, List.map_cons, Run.settle_of_le]
        exact fun x hx => Nat.le_of_lt (hlt x (List.mem_filter.mp hx).1)

end MarkedRuns
