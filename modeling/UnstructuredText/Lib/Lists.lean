import Mathlib.Data.List.Nodup

/-! Lists: the ones without duplicates that have one item or several, and selections made
before or after a partial map. -/

namespace Lists
variable {α β γ : Type*}

theorem eq_singleton_of_nodup {l : List α} {a : α} (hl : l.Nodup) (ha : a ∈ l)
    (hall : ∀ b ∈ l, b = a) : l = [a] := by
  by_contra hne
  rcases (hl.ne_singleton_iff a).mp hne with rfl | ⟨b, hb, hba⟩
  · exact List.not_mem_nil ha
  · exact hba (hall b hb)

theorem exists_ne_of_two_le {l : List α} (hl : l.Nodup) (h : 2 ≤ l.length) :
    ∃ a ∈ l, ∃ b ∈ l, a ≠ b := by
  obtain ⟨a, ha⟩ := List.exists_mem_of_length_pos (Nat.lt_of_lt_of_le Nat.two_pos h)
  have hne : l ≠ [a] := by
    rintro rfl
    exact Nat.not_succ_le_self 1 h
  rcases (hl.ne_singleton_iff a).mp hne with rfl | ⟨b, hb, hba⟩
  · exact absurd ha List.not_mem_nil
  · exact ⟨b, hb, a, ha, hba⟩

theorem two_le_of_ne {a b : α} (hne : a ≠ b) {l : List α} (ha : a ∈ l) (hb : b ∈ l) :
    2 ≤ l.length := by
  match l with
  | [] => exact absurd ha List.not_mem_nil
  | [c] => exact absurd ((List.mem_singleton.mp ha).trans (List.mem_singleton.mp hb).symm) hne
  | _ :: _ :: l => exact Nat.le_add_left 2 l.length

section Select
variable (f : α → Option β) (S : β → Bool)

theorem map_filter_any {k : α → γ} {k' : β → γ} (h : ∀ a b, f a = some b → k' b = k a)
    (l : List α) :
    (l.filter fun a => (f a).any S).map k = ((l.filterMap f).filter S).map k' := by
  rw [List.filter_filterMap, List.map_filterMap, ← List.filterMap_eq_map, List.filterMap_filter]
  apply List.filterMap_congr
  intro a _
  cases hf : f a with
  | none => rfl
  | some b => by_cases hS : S b = true <;> simp [Option.filter, hS, h a b hf]

theorem filterMap_filter_not_any (l : List α) :
    (l.filter fun a => !(f a).any S).filterMap f = (l.filterMap f).filter fun b => !S b := by
  rw [List.filter_filterMap, List.filterMap_filter]
  apply List.filterMap_congr
  intro a _
  cases hf : f a with
  | none => rfl
  | some b => by_cases hS : S b = true <;> simp [Option.filter, hS]

end Select

theorem filterMap_guard (p q : α → Prop) [DecidablePred p] [DecidablePred q] (g : α → β)
    (l : List α) :
    (l.filterMap fun a => if p a ∧ q a then some (g a) else none) =
      ((l.filter fun a => p a).filter fun a => q a).map g := by
  rw [List.filter_filter, ← List.filterMap_eq_map, List.filterMap_filter]
  apply List.filterMap_congr
  intro a _
  by_cases hp : p a <;> by_cases hq : q a <;> simp [hp, hq]

end Lists
