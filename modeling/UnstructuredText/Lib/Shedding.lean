import UnstructuredText.Lib.Docs
import Mathlib.Data.List.Perm.Basic

/-! Shedding. Some runs of a list of tokens are dropped at once. What is left is carved out
of the list in order. A further run can be dropped wherever it stands by then, which is where
it stood at first less the runs that are gone from in front of it. -/

namespace MarkedRuns
open Sized
variable {α β : Type*} (A : Alphabet α β)

def placed : ℕ → List (Token α) → List (ℕ × List α)
  | _, [] => []
  | off, .item a :: ts => placed (off + total A.toSizing [a]) ts
  | off, .run m :: ts => (off, m) :: placed (off + total A.toSizing (A.marker :: m)) ts

theorem located_eq_placed (off : ℕ) (ts : List (Token α)) :
    located A off ts = (placed A off ts).map fun p => runAt A p.1 p.2 := by
  induction ts generalizing off with
  | nil => rfl
  | cons t ts ih =>
    cases t with
    | item a => exact ih _
    | run m => exact congrArg (_ :: ·) (ih _)

theorem placed_le {off : ℕ} {ts : List (Token α)} {p : ℕ × List α} (hp : p ∈ placed A off ts) :
    off ≤ p.1 := by
  induction ts generalizing off with
  | nil => exact absurd hp List.not_mem_nil
  | cons t ts ih =>
    cases t with
    | item a => exact Nat.le_of_add_right_le (ih hp)
    | run m =>
      rcases List.mem_cons.mp hp with rfl | hp
      · exact Nat.le_refl _
      · exact Nat.le_of_add_right_le (ih hp)

theorem placed_pairwise (off : ℕ) (ts : List (Token α)) :
    (placed A off ts).Pairwise fun p q => p.1 < q.1 := by
  induction ts generalizing off with
  | nil => exact .nil
  | cons t ts ih =>
    cases t with
    | item a => exact ih _
    | run m =>
      refine .cons (fun q hq => ?_) (ih _)
      have hsize := A.pos A.marker
      have hbehind := placed_le A hq
      rw [total_cons] at hbehind
      exact Nat.lt_of_lt_of_le (Nat.lt_add_of_pos_right (Nat.add_pos_left hsize _)) hbehind

def totalBefore (ps : List (ℕ × List α)) (n : ℕ) : ℕ :=
  ((ps.filter fun p => p.1 < n).map fun p => total A.toSizing (A.marker :: p.2)).sum

theorem totalBefore_eq_zero {ps : List (ℕ × List α)} {n : ℕ} (h : ∀ p ∈ ps, n ≤ p.1) :
    totalBefore A ps n = 0 := by
  have hnone : ps.filter (fun p => p.1 < n) = [] :=
    List.filter_eq_nil_iff.mpr fun p hp => by simpa using h p hp
  rw [totalBefore, hnone]
  rfl

theorem totalBefore_cons {off n : ℕ} (h : off < n) (m : List α) (ps : List (ℕ × List α)) :
    totalBefore A ((off, m) :: ps) n = total A.toSizing (A.marker :: m) + totalBefore A ps n := by
  rw [totalBefore, List.filter_cons_of_pos (by simpa using h), List.map_cons, List.sum_cons]
  rfl

/-- From offset `off` on, `us` is `ts` without the runs `ps`. -/
inductive Sheds : ℕ → List (Token α) → List (ℕ × List α) → List (Token α) → Prop
  | done (off : ℕ) : Sheds off [] [] []
  | keep {off : ℕ} {ts us : List (Token α)} {ps : List (ℕ × List α)} (t : Token α)
      (tail : Sheds (off + total A.toSizing (t.spell A)) ts ps us) :
      Sheds off (t :: ts) ps (t :: us)
  | drop {off : ℕ} {ts us : List (Token α)} {ps : List (ℕ × List α)} (m : List α)
      (tail : Sheds (off + total A.toSizing (A.marker :: m)) ts ps us) :
      Sheds off (.run m :: ts) ((off, m) :: ps) us

namespace Sheds
variable {A} {off : ℕ} {ts us : List (Token α)} {ps : List (ℕ × List α)}

theorem refl (off : ℕ) (ts : List (Token α)) : Sheds A off ts [] ts := by
  induction ts generalizing off with
  | nil => exact .done off
  | cons t ts ih => exact .keep t (ih _)

theorem sublist (h : Sheds A off ts ps us) : ps.Sublist (placed A off ts) := by
  induction h with
  | done off => exact List.Sublist.refl _
  | keep t _ ih =>
    cases t with
    | item a => exact ih
    | run m => exact ih.cons _
  | drop m _ ih => exact ih.cons_cons _

theorem carved (h : Sheds A off ts ps us) : Carved A.toSizing off (render A ts)
    (ps.map fun p => (runAt A p.1 p.2).span) (render A us) := by
  induction h with
  | done off => exact .done off []
  | keep t _ ih => exact Carved.prepend (t.spell A) ih
  | drop m _ ih => exact .span [] (A.marker :: m) ih

end Sheds

/-- Once the runs `ps` are gone from `ts`, the run `p` stands between `pre` and `post`, and it
can go too. -/
structure Parts (off : ℕ) (ts : List (Token α)) (ps : List (ℕ × List α)) (p : ℕ × List α)
    (pre post : List (Token α)) : Prop where
  place : off + total (tokens A) pre + totalBefore A ps p.1 = p.1
  sheds : ∃ qs, qs.Perm (p :: ps) ∧ Sheds A off ts qs (pre ++ post)

section Parts
variable {A} {off : ℕ} {ts us pre post : List (Token α)} {ps : List (ℕ × List α)}
  {p : ℕ × List α} {m : List α}

theorem Parts.here (tail : Sheds A (off + total A.toSizing (A.marker :: m)) ts ps us) :
    Parts A off (.run m :: ts) ps (off, m) [] us where
  place := by
    have hnone : totalBefore A ps off = 0 := totalBefore_eq_zero A fun q hq =>
      Nat.le_of_add_right_le (placed_le A (tail.sublist.subset hq))
    rw [total_nil, hnone]
    rfl
  sheds := ⟨_, .refl _, .drop m tail⟩

theorem Parts.keep (t : Token α)
    (h : Parts A (off + total A.toSizing (t.spell A)) ts ps p pre post) :
    Parts A off (t :: ts) ps p (t :: pre) post where
  place := by
    have hplace := h.place
    rwa [Nat.add_assoc off] at hplace
  sheds := by
    obtain ⟨qs, hperm, hqs⟩ := h.sheds
    exact ⟨qs, hperm, .keep t hqs⟩

theorem Parts.drop (m : List α)
    (h : Parts A (off + total A.toSizing (A.marker :: m)) ts ps p pre post) :
    Parts A off (.run m :: ts) ((off, m) :: ps) p pre post where
  place := by
    have hplace := h.place
    have hsize := A.pos A.marker
    rw [total_cons] at hplace
    have hbefore : off < p.1 := by omega
    rw [totalBefore_cons A hbefore m ps, total_cons]
    omega
  sheds := by
    obtain ⟨qs, hperm, hqs⟩ := h.sheds
    exact ⟨_, (hperm.cons _).trans (.swap _ _ _), .drop m hqs⟩

theorem Sheds.parts_of_left (h : Sheds A off ts ps us) (hus : us = pre ++ .run m :: post) :
    ∃ p, p.2 = m ∧ Parts A off ts ps p pre post := by
  induction h generalizing pre with
  | done off => exact absurd hus.symm (List.append_ne_nil_of_right_ne_nil _ (List.cons_ne_nil _ _))
  | keep t tail ih =>
    rcases List.cons_eq_append_iff.mp hus with ⟨rfl, hcons⟩ | ⟨pre, rfl, hlater⟩
    · obtain ⟨rfl, rfl⟩ := List.cons.inj hcons
      exact ⟨_, rfl, .here tail⟩
    · obtain ⟨p, hp, hparts⟩ := ih hlater
      exact ⟨p, hp, hparts.keep t⟩
  | drop m' _ ih =>
    obtain ⟨p, hp, hparts⟩ := ih hus
    exact ⟨p, hp, hparts.drop m'⟩

theorem Sheds.parts_of_placed (h : Sheds A off ts ps us) (hp : p ∈ placed A off ts)
    (hnot : p ∉ ps) : ∃ pre post, us = pre ++ .run p.2 :: post ∧ Parts A off ts ps p pre post := by
  induction h with
  | done off => exact absurd hp List.not_mem_nil
  | @keep off ts us ps t tail ih =>
    have hlater : p ∈ placed A (off + total A.toSizing (t.spell A)) ts →
        ∃ pre post, t :: us = pre ++ .run p.2 :: post ∧ Parts A off (t :: ts) ps p pre post := by
      intro hp
      obtain ⟨pre, post, rfl, hparts⟩ := ih hp hnot
      exact ⟨t :: pre, post, rfl, hparts.keep t⟩
    cases t with
    | item a => exact hlater hp
    | run m =>
      rcases List.mem_cons.mp hp with rfl | hp
      · exact ⟨[], us, rfl, .here tail⟩
      · exact hlater hp
  | drop m _ ih =>
    obtain ⟨hne, hnot⟩ := not_or.mp (mt List.mem_cons.mpr hnot)
    obtain ⟨pre, post, rfl, hparts⟩ := ih (List.mem_of_ne_of_mem hne hp) hnot
    exact ⟨pre, post, rfl, hparts.drop m⟩

end Parts

end MarkedRuns
