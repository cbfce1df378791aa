import Mathlib.Data.List.Basic
import Mathlib.Algebra.Order.Group.Nat
import Mathlib.Tactic.Ring

/-! Lists of items that occupy positive sizes, addressed by offset. An offset is a
boundary when no item straddles it; cutting, slicing and searching work at
boundaries, and a list of spans is carved out from left to right. -/

namespace Sized

structure Sizing (α : Type*) where
  size : α → ℕ
  pos : ∀ a, 0 < size a

variable {α : Type*} (σ : Sizing α)

def total : List α → ℕ
  | [] => 0
  | a :: l => σ.size a + total l

@[simp] theorem total_nil : total σ [] = 0 := rfl

@[simp] theorem total_cons (a : α) (l : List α) : total σ (a :: l) = σ.size a + total σ l := rfl

@[simp] theorem total_append (l m : List α) : total σ (l ++ m) = total σ l + total σ m := by
  induction l with
  | nil => simp only [List.nil_append, total_nil, Nat.zero_add]
  | cons a l ih => simp only [List.cons_append, total_cons, ih, Nat.add_assoc]

theorem total_eq_zero {l : List α} : total σ l = 0 ↔ l = [] := by
  cases l with
  | nil => simp only [total_nil]
  | cons a l =>
    have := σ.pos a
    simp only [total_cons, reduceCtorEq, iff_false]
    omega

theorem length_le_total (l : List α) : l.length ≤ total σ l := by
  induction l with
  | nil => exact Nat.le_refl 0
  | cons a l ih =>
    have := σ.pos a
    simp only [List.length_cons, total_cons]
    omega

theorem append_inj_of_total {a b a' b' : List α} (h : a ++ b = a' ++ b')
    (ht : total σ a = total σ a') : a = a' ∧ b = b' := by
  induction a generalizing a' with
  | nil =>
    have ha' : a' = [] := (total_eq_zero σ).mp ht.symm
    subst ha'
    exact ⟨rfl, h⟩
  | cons x a ih =>
    cases a' with
    | nil =>
      have := σ.pos x
      simp only [total_cons, total_nil] at ht
      omega
    | cons y a' =>
      simp only [List.cons_append, List.cons.injEq] at h
      obtain ⟨rfl, h⟩ := h
      simp only [total_cons, Nat.add_left_cancel_iff] at ht
      obtain ⟨rfl, rfl⟩ := ih h ht
      exact ⟨rfl, rfl⟩

/-- The two parts of a list at offset `n`, or `none` when `n` is not a boundary. -/
def cutAt : List α → ℕ → Option (List α × List α)
  | l, 0 => some ([], l)
  | [], _ + 1 => none
  | a :: l, n + 1 =>
    if σ.size a ≤ n + 1 then
      (cutAt l (n + 1 - σ.size a)).map fun p => (a :: p.1, p.2)
    else none

@[simp] theorem cutAt_zero (l : List α) : cutAt σ l 0 = some ([], l) := by cases l <;> rfl

theorem cutAt_total (a b : List α) : cutAt σ (a ++ b) (total σ a) = some (a, b) := by
  induction a with
  | nil => exact cutAt_zero σ b
  | cons x a ih =>
    obtain ⟨n, hn⟩ : ∃ n, σ.size x + total σ a = n + 1 :=
      ⟨σ.size x + total σ a - 1, by have := σ.pos x; omega⟩
    have hrest : n + 1 - σ.size x = total σ a := by omega
    rw [List.cons_append, total_cons, hn, cutAt, if_pos (by omega), hrest, ih]
    rfl

theorem cutAt_eq_some {l a b : List α} {n : ℕ} (h : cutAt σ l n = some (a, b)) :
    l = a ++ b ∧ n = total σ a := by
  induction l generalizing n a with
  | nil =>
    cases n with
    | zero =>
      obtain ⟨rfl, rfl⟩ := Prod.mk.inj (Option.some.inj h)
      exact ⟨rfl, rfl⟩
    | succ n => simp only [cutAt, reduceCtorEq] at h
  | cons x l ih =>
    cases n with
    | zero =>
      obtain ⟨rfl, rfl⟩ := Prod.mk.inj (Option.some.inj h)
      exact ⟨rfl, rfl⟩
    | succ n =>
      rw [cutAt] at h
      split_ifs at h with hx
      obtain ⟨⟨c, d⟩, hc, heq⟩ := Option.map_eq_some_iff.mp h
      obtain ⟨rfl, rfl⟩ := Prod.mk.inj heq
      obtain ⟨rfl, hn⟩ := ih hc
      exact ⟨rfl, by simp only [total_cons, ← hn]; omega⟩

theorem cutAt_eq_some_iff {l a b : List α} {n : ℕ} :
    cutAt σ l n = some (a, b) ↔ l = a ++ b ∧ n = total σ a :=
  ⟨cutAt_eq_some σ, by rintro ⟨rfl, rfl⟩; exact cutAt_total σ a b⟩

def isBoundary (l : List α) (n : ℕ) : Bool := (cutAt σ l n).isSome

theorem isBoundary_iff {l : List α} {n : ℕ} :
    isBoundary σ l n = true ↔ ∃ a b, l = a ++ b ∧ n = total σ a := by
  rw [isBoundary, Option.isSome_iff_exists]
  exact ⟨fun ⟨(a, b), h⟩ => ⟨a, b, cutAt_eq_some σ h⟩,
    fun ⟨a, b, h⟩ => ⟨(a, b), (cutAt_eq_some_iff σ).mpr h⟩⟩

theorem isBoundary_total (a b : List α) : isBoundary σ (a ++ b) (total σ a) = true :=
  (isBoundary_iff σ).mpr ⟨a, b, rfl, rfl⟩

def between (l : List α) (i j : ℕ) : Option (List α) :=
  if i ≤ j then
    (cutAt σ l i).bind fun p => (cutAt σ p.2 (j - i)).map Prod.fst
  else none

theorem between_total (a m b : List α) :
    between σ (a ++ (m ++ b)) (total σ a) (total σ a + total σ m) = some m := by
  rw [between, if_pos (Nat.le_add_right _ _), cutAt_total, Option.bind_some,
    Nat.add_sub_cancel_left, cutAt_total]
  rfl

def offsetOf [DecidableEq α] (a : α) : List α → Option ℕ
  | [] => none
  | b :: l => if b = a then some 0 else (offsetOf a l).map (σ.size b + ·)

theorem offsetOf_not_mem [DecidableEq α] {a : α} {l : List α} (h : a ∉ l) :
    offsetOf σ a l = none := by
  induction l with
  | nil => rfl
  | cons b l ih =>
    rw [List.mem_cons, not_or] at h
    rw [offsetOf, if_neg (Ne.symm h.1), ih h.2]
    rfl

theorem offsetOf_first [DecidableEq α] {a : α} {g : List α} (h : a ∉ g) (l : List α) :
    offsetOf σ a (g ++ a :: l) = some (total σ g) := by
  induction g with
  | nil => exact if_pos rfl
  | cons b g ih =>
    rw [List.mem_cons, not_or] at h
    rw [List.cons_append, offsetOf, if_neg (Ne.symm h.1), ih h.2]
    rfl

/-- `Carved off l spans r`: `l` begins at offset `off`, and `r` is what is left of it
when the `(start, length)` spans, taken in order, are removed. -/
inductive Carved : ℕ → List α → List (ℕ × ℕ) → List α → Prop
  | done (off : ℕ) (l : List α) : Carved off l [] l
  | span {off : ℕ} (g m : List α) {l r : List α} {spans : List (ℕ × ℕ)}
      (tail : Carved (off + total σ g + total σ m) l spans r) :
      Carved off (g ++ (m ++ l)) ((off + total σ g, total σ m) :: spans) (g ++ r)

namespace Carved

variable {σ}

theorem prepend {off : ℕ} (p : List α) {l r : List α} {spans : List (ℕ × ℕ)}
    (h : Carved σ (off + total σ p) l spans r) : Carved σ off (p ++ l) spans (p ++ r) := by
  generalize ho : off + total σ p = off' at h
  cases h with
  | done => exact .done off (p ++ l)
  | span g m tail =>
    subst ho
    have hspan := Carved.span (p ++ g) m (by rwa [total_append, ← Nat.add_assoc])
    rwa [List.append_assoc, List.append_assoc, total_append, ← Nat.add_assoc] at hspan

theorem total_eq {off : ℕ} {l r : List α} {spans : List (ℕ × ℕ)} (h : Carved σ off l spans r) :
    total σ l = total σ r + (spans.map Prod.snd).sum := by
  induction h with
  | done => simp only [List.map_nil, List.sum_nil, Nat.add_zero]
  | span g m _ ih =>
    simp only [total_append, List.map_cons, List.sum_cons, ih]
    omega

theorem unique {off : ℕ} {l r r' : List α} {spans : List (ℕ × ℕ)} (h : Carved σ off l spans r)
    (h' : Carved σ off l spans r') : r = r' := by
  induction h generalizing r' with
  | done => cases h'; rfl
  | @span off g m l r spans _ ih =>
    generalize hl : g ++ (m ++ l) = l₀ at h'
    generalize hs : (off + total σ g, total σ m) :: spans = s₀ at h'
    cases h' with
    | done => cases hs
    | span g' m' tail =>
      -- the two carvings cut the same list at the same offsets
      obtain ⟨hpair, rfl⟩ := List.cons.inj hs
      obtain ⟨hg, hm⟩ := Prod.mk.inj hpair
      obtain ⟨rfl, hml⟩ := append_inj_of_total σ hl (Nat.add_left_cancel hg)
      obtain ⟨rfl, rfl⟩ := append_inj_of_total σ hml hm
      rw [ih tail]

end Carved

end Sized
