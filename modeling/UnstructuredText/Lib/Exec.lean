import Mathlib.Algebra.Order.Group.Nat

/-! Computations that may fault, and the pointer-sized arithmetic and slicing of a
machine with 32-bit or 64-bit addresses. An operation that leaves its type or its
bounds is a fault, so a run proved to end in `ok` neither wraps nor panics. -/

namespace Machine

/-- Why a run stops: an operation leaves its type, an access leaves its bounds, a buffer is
asked for that no value may occupy, or a loop of the model is given too few turns. -/
inductive Fault
  | overflow
  | bounds
  | capacity
  | fuel
  deriving DecidableEq, Repr

abbrev Exec := Except Fault

@[simp] theorem ok_bind {α β : Type} (a : α) (f : α → Exec β) :
    ((.ok a : Exec α) >>= f) = f a := rfl

@[simp] theorem pure_eq {α : Type} (a : α) : (pure a : Exec α) = .ok a := rfl

def Ends {α : Type} (x : Exec α) : Prop := ∃ a, x = .ok a

theorem ends_ok {α : Type} (a : α) : Ends (.ok a) := ⟨a, rfl⟩

theorem not_ends_error {α : Type} (e : Fault) : ¬Ends (.error e : Exec α) := by
  rintro ⟨a, h⟩
  cases h

theorem ok_unique {ε α : Type} {x : Exec (Except ε α)} {a b : α} (h : x = .ok (.ok a))
    (h' : x = .ok (.ok b)) : a = b := Except.ok.inj (Except.ok.inj (h.symm.trans h'))

theorem bind_eq_ok_iff {α β : Type} {x : Exec α} {f : α → Exec β} {b : β} :
    x >>= f = .ok b ↔ ∃ a, x = .ok a ∧ f a = .ok b := by
  cases x with
  | error e => exact iff_of_false (fun h => nomatch h) (by rintro ⟨a, h, _⟩; cases h)
  | ok a =>
    rw [ok_bind]
    constructor
    · exact fun h => ⟨a, rfl, h⟩
    · rintro ⟨a', ha, h⟩
      exact Except.ok.inj ha ▸ h

theorem ends_bind_iff {α β : Type} {x : Exec α} {f : α → Exec β} :
    Ends (x >>= f) ↔ ∃ a, x = .ok a ∧ Ends (f a) := by
  unfold Ends
  simp only [bind_eq_ok_iff]
  exact ⟨fun ⟨b, a, ha, hb⟩ => ⟨a, ha, b, hb⟩, fun ⟨a, ha, b, hb⟩ => ⟨b, a, ha, hb⟩⟩

inductive PtrWidth
  | w32
  | w64
  deriving DecidableEq, Repr

namespace PtrWidth

def bits : PtrWidth → ℕ
  | w32 => 32
  | w64 => 64

def usizeMax (w : PtrWidth) : ℕ := 2 ^ w.bits - 1

/-- The largest number of bytes one allocated value may occupy. -/
def isizeMax (w : PtrWidth) : ℕ := 2 ^ (w.bits - 1) - 1

theorem usizeMax_eq (w : PtrWidth) : w.usizeMax = 2 * w.isizeMax + 1 := by
  cases w <;> decide

theorem two_mul_isizeMax (w : PtrWidth) : 2 * w.isizeMax < w.usizeMax := by
  rw [usizeMax_eq]
  exact Nat.lt_succ_self _

end PtrWidth

def u32Max : ℕ := 2 ^ 32 - 1

theorem u32Max_le (w : PtrWidth) : u32Max ≤ w.usizeMax := by
  cases w <;> decide

def add (w : PtrWidth) (a b : ℕ) : Exec ℕ :=
  if a + b ≤ w.usizeMax then .ok (a + b) else .error .overflow

def mul (w : PtrWidth) (a b : ℕ) : Exec ℕ :=
  if a * b ≤ w.usizeMax then .ok (a * b) else .error .overflow

def sub (a b : ℕ) : Exec ℕ := if b ≤ a then .ok (a - b) else .error .overflow

/-- `with_capacity(n)`, which refuses more bytes than one value may occupy. -/
def reserve (w : PtrWidth) (n : ℕ) : Exec Unit :=
  if n ≤ w.isizeMax then .ok () else .error .capacity

def checkedAdd (w : PtrWidth) (a b : ℕ) : Option ℕ :=
  if a + b ≤ w.usizeMax then some (a + b) else none

def checkedSub (a b : ℕ) : Option ℕ := if b ≤ a then some (a - b) else none

theorem add_ok {w : PtrWidth} {a b : ℕ} (h : a + b ≤ w.usizeMax) : add w a b = .ok (a + b) :=
  if_pos h

theorem add_overflow {w : PtrWidth} {a b : ℕ} (h : w.usizeMax < a + b) :
    add w a b = .error .overflow := if_neg (Nat.not_le.mpr h)

theorem mul_ok {w : PtrWidth} {a b : ℕ} (h : a * b ≤ w.usizeMax) : mul w a b = .ok (a * b) :=
  if_pos h

theorem sub_ok {a b : ℕ} (h : b ≤ a) : sub a b = .ok (a - b) := if_pos h

@[simp] theorem sub_add_left (a b : ℕ) : sub (a + b) a = .ok b := by
  rw [sub_ok (Nat.le_add_right a b), Nat.add_sub_cancel_left]

theorem reserve_ok {w : PtrWidth} {n : ℕ} (h : n ≤ w.isizeMax) : reserve w n = .ok () := if_pos h

theorem checkedAdd_some {w : PtrWidth} {a b : ℕ} (h : a + b ≤ w.usizeMax) :
    checkedAdd w a b = some (a + b) := if_pos h

theorem checkedAdd_none {w : PtrWidth} {a b : ℕ} (h : w.usizeMax < a + b) :
    checkedAdd w a b = none := if_neg (Nat.not_le.mpr h)

variable {α : Type}

def index (xs : List α) (i : ℕ) : Exec α :=
  match xs[i]? with
  | some a => .ok a
  | none => .error .bounds

def slice (xs : List α) (i j : ℕ) : Exec (List α) :=
  if i ≤ j ∧ j ≤ xs.length then .ok ((xs.take j).drop i) else .error .bounds

theorem index_ok {xs : List α} {i : ℕ} {a : α} (h : xs[i]? = some a) : index xs i = .ok a := by
  simp only [index, h]

theorem slice_ok {xs : List α} {i j : ℕ} (hij : i ≤ j) (hj : j ≤ xs.length) :
    slice xs i j = .ok ((xs.take j).drop i) := if_pos ⟨hij, hj⟩

theorem slice_zero_ok {xs : List α} {j : ℕ} (hj : j ≤ xs.length) :
    slice xs 0 j = .ok (xs.take j) := slice_ok (Nat.zero_le j) hj

theorem foldlM_ok {σ : Type} (visit : σ → α → Exec σ) (f : σ → α → σ) (l : List α)
    (h : ∀ s, ∀ a ∈ l, visit s a = .ok (f s a)) (s : σ) :
    l.foldlM visit s = .ok (l.foldl f s) := by
  induction l generalizing s with
  | nil => rfl
  | cons a l ih =>
    rw [List.foldlM_cons, h s a List.mem_cons_self, ok_bind, List.foldl_cons]
    exact ih (fun s b hb => h s b (List.mem_cons_of_mem a hb)) (f s a)

theorem foldlM_ends_iff {σ : Type} {visit : σ → α → Exec σ} {P : α → Prop} {l : List α}
    (h : ∀ s, ∀ a ∈ l, Ends (visit s a) ↔ P a) (s : σ) :
    Ends (l.foldlM visit s) ↔ ∀ a ∈ l, P a := by
  induction l generalizing s with
  | nil => exact iff_of_true (ends_ok s) fun _ ha => absurd ha List.not_mem_nil
  | cons a l ih =>
    have ih := ih fun s b hb => h s b (List.mem_cons_of_mem a hb)
    rw [List.foldlM_cons, ends_bind_iff, List.forall_mem_cons, ← h s a List.mem_cons_self]
    constructor
    · rintro ⟨s', hs, hl⟩
      exact ⟨⟨s', hs⟩, (ih s').mp hl⟩
    · rintro ⟨⟨s', hs⟩, hl⟩
      exact ⟨s', hs, (ih s').mpr hl⟩

theorem foldl_found {β : Type} (f : α → Option β) (l : List α) (found : List β) :
    l.foldl (fun found a => found ++ (f a).toList) found = found ++ l.filterMap f := by
  induction l generalizing found with
  | nil => exact (List.append_nil found).symm
  | cons a l ih =>
    rw [List.foldl_cons, ih, List.append_assoc]
    cases h : f a <;> simp [h]

theorem foldl_any (p : α → Bool) (l : List α) (seen : Bool) :
    l.foldl (fun seen a => seen || p a) seen = (seen || l.any p) := by
  induction l generalizing seen with
  | nil => exact (Bool.or_false seen).symm
  | cons a l ih => rw [List.foldl_cons, ih, List.any_cons, Bool.or_assoc]

end Machine
