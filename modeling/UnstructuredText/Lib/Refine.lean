import UnstructuredText.Lib.Exec

/-! Refinement of computations that may fault. One computation refines to another when the
second gives every value the first gives; a fault of the first promises nothing. Pointer-sized
arithmetic refines to that of a larger pointer. -/

namespace Machine

def Refines {α : Type} (x y : Exec α) : Prop := ∀ a, x = .ok a → y = .ok a

section Rules
variable {α β : Type}

theorem Refines.refl {x : Exec α} : Refines x x := fun _ h => h

theorem refines_of_eq {x y : Exec α} (h : x = y) : Refines x y := h ▸ Refines.refl

theorem refines_error (e : Fault) (y : Exec α) : Refines (.error e) y := fun _ h => nomatch h

theorem Refines.bind {x y : Exec α} {f g : α → Exec β} (h : Refines x y)
    (hfg : ∀ a, x = .ok a → Refines (f a) (g a)) : Refines (x >>= f) (y >>= g) := by
  intro b hb
  obtain ⟨a, ha, hf⟩ := bind_eq_ok_iff.mp hb
  exact bind_eq_ok_iff.mpr ⟨a, h a ha, hfg a ha b hf⟩

theorem Refines.bind_right {x y : Exec α} (h : Refines x y) (f : α → Exec β) :
    Refines (x >>= f) (y >>= f) := h.bind fun _ _ => Refines.refl

theorem Refines.ite {p : Prop} [Decidable p] {x x' y y' : Exec α} (h : p → Refines x y)
    (h' : ¬p → Refines x' y') : Refines (if p then x else x') (if p then y else y') := by
  by_cases hp : p
  · rw [if_pos hp, if_pos hp]
    exact h hp
  · rw [if_neg hp, if_neg hp]
    exact h' hp

theorem foldlM_refines {σ : Type} {visit visit' : σ → α → Exec σ} {l : List α}
    (h : ∀ s, ∀ a ∈ l, Refines (visit s a) (visit' s a)) (s : σ) :
    Refines (l.foldlM visit s) (l.foldlM visit' s) := by
  induction l generalizing s with
  | nil => exact Refines.refl
  | cons a l ih =>
    rw [List.foldlM_cons, List.foldlM_cons]
    apply (h s a List.mem_cons_self).bind
    intro s' _
    exact ih (fun s b hb => h s b (List.mem_cons_of_mem a hb)) s'

end Rules

theorem refines_check {α : Type} {p p' : Prop} [Decidable p] [Decidable p'] (h : p → p') (a : α)
    (e e' : Fault) :
    Refines (if p then .ok a else .error e) (if p' then .ok a else .error e') := by
  by_cases hp : p
  · rw [if_pos hp, if_pos (h hp)]
    exact Refines.refl
  · rw [if_neg hp]
    exact refines_error _ _

section Pointers
variable {w w' : PtrWidth} (hw : w.usizeMax ≤ w'.usizeMax) (a b : ℕ)
include hw

theorem add_refines : Refines (add w a b) (add w' a b) :=
  refines_check (fun h => Nat.le_trans h hw) _ _ _

theorem mul_refines : Refines (mul w a b) (mul w' a b) :=
  refines_check (fun h => Nat.le_trans h hw) _ _ _

theorem reserve_refines : Refines (reserve w a) (reserve w' a) := by
  apply refines_check
  intro h
  rw [w.usizeMax_eq, w'.usizeMax_eq] at hw
  omega

end Pointers

def Agrees {α : Type} (f : PtrWidth → Exec α) : Prop := ∃ a, ∀ w, f w = .ok a

section Agreement
variable {α : Type} {f : PtrWidth → Exec α}

theorem agrees_of_refines (h : Refines (f .w32) (f .w64)) (hends : Ends (f .w32)) : Agrees f := by
  obtain ⟨a, ha⟩ := hends
  refine ⟨a, fun w => ?_⟩
  cases w with
  | w32 => exact ha
  | w64 => exact h a ha

theorem agrees_of_eq (h : f .w64 = f .w32) (hends : Ends (f .w32)) : Agrees f :=
  agrees_of_refines (refines_of_eq h.symm) hends

end Agreement

end Machine
