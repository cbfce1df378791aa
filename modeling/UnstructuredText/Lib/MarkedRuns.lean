import UnstructuredText.Lib.Sized
import Mathlib.Data.List.Pairwise
import Mathlib.Data.List.TakeWhile

/-! Marked runs. In a list over an alphabet with a marker and a partial decoder, the
run of a marker is the longest block of decodable items that follows it. The runs of
a list are found at every marker, are disjoint and ordered, are local to the two
sides of any seam before an undecodable item, and survive the removal of others. -/

namespace MarkedRuns
open Sized

structure Alphabet (α β : Type*) extends Sizing α where
  marker : α
  dec : α → Option β
  dec_marker : dec marker = none

/-- The items a marker introduces, with the offset of the marker and the size of the
marker and the run together. -/
structure Run (β : Type*) where
  items : List β
  start : ℕ
  length : ℕ
  deriving DecidableEq, Repr

namespace Run
variable {β : Type*}

def stop (r : Run β) : ℕ := r.start + r.length

def span (r : Run β) : ℕ × ℕ := (r.start, r.length)

def shift (k : ℕ) (r : Run β) : Run β := { r with start := r.start + k }

def sizeBefore (rs : List (Run β)) (n : ℕ) : ℕ :=
  ((rs.filter fun s => s.start < n).map Run.length).sum

def settle (rs : List (Run β)) (r : Run β) : Run β :=
  { r with start := r.start - sizeBefore rs r.start }

end Run

variable {α β : Type*} (A : Alphabet α β)

def decodes (a : α) : Bool := (A.dec a).isSome

/-- A list whose first item, if any, ends the run before it. -/
def Blunt (l : List α) : Prop := ∀ a ∈ l.head?, A.dec a = none

def Decodable (l : List α) : Prop := ∀ a ∈ l, decodes A a = true

def sel (l : List α) : List α := l.takeWhile (decodes A)

def rest (l : List α) : List α := l.dropWhile (decodes A)

def decoded (l : List α) : List β := l.filterMap A.dec

theorem blunt_nil : Blunt A [] := by simp only [Blunt, List.head?_nil, Option.mem_def,
  reduceCtorEq, false_implies, implies_true]

theorem blunt_cons {a : α} (h : A.dec a = none) (l : List α) : Blunt A (a :: l) := by
  intro b hb
  obtain rfl := Option.some.inj hb
  exact h

theorem blunt_marker (l : List α) : Blunt A (A.marker :: l) := blunt_cons A A.dec_marker l

theorem Blunt.append {a b : List α} (ha : Blunt A a) (hb : Blunt A b) : Blunt A (a ++ b) := by
  cases a with
  | nil => exact hb
  | cons x a => exact blunt_cons A (ha x rfl) _

theorem sel_append_rest (l : List α) : sel A l ++ rest A l = l := List.takeWhile_append_dropWhile

theorem decodable_sel (l : List α) : Decodable A (sel A l) := fun _ ha => List.mem_takeWhile_imp ha

theorem blunt_rest (l : List α) : Blunt A (rest A l) := by
  induction l with
  | nil => exact blunt_nil A
  | cons a l ih =>
    rw [rest, List.dropWhile_cons]
    split_ifs with h
    · exact ih
    · exact blunt_cons A (Option.not_isSome_iff_eq_none.mp h) l

theorem sel_append {m b : List α} (hm : Decodable A m) (hb : Blunt A b) : sel A (m ++ b) = m := by
  induction m with
  | nil =>
    cases b with
    | nil => rfl
    | cons x b => exact List.takeWhile_cons_of_neg (by simp [decodes, hb x rfl])
  | cons a m ih =>
    rw [List.cons_append, sel, List.takeWhile_cons_of_pos (hm a List.mem_cons_self)]
    exact congrArg (a :: ·) (ih fun b hb => hm b (List.mem_cons_of_mem a hb))

theorem rest_append {m b : List α} (hm : Decodable A m) (hb : Blunt A b) : rest A (m ++ b) = b := by
  have h := sel_append_rest A (m ++ b)
  rw [sel_append A hm hb] at h
  exact List.append_cancel_left h

theorem marker_not_mem {m : List α} (hm : Decodable A m) : A.marker ∉ m := by
  intro h
  have hs := hm _ h
  rw [decodes, A.dec_marker] at hs
  exact Bool.false_ne_true hs

theorem sel_append_blunt (l : List α) {b : List α} (hb : Blunt A b) : sel A (l ++ b) = sel A l := by
  rw [← sel_append_rest A l, List.append_assoc,
    sel_append A (decodable_sel A l) ((blunt_rest A l).append A hb),
    sel_append A (decodable_sel A l) (blunt_rest A l)]

theorem decoded_length {m : List α} (hm : Decodable A m) : (decoded A m).length = m.length := by
  induction m with
  | nil => rfl
  | cons a m ih =>
    obtain ⟨b, hb⟩ := Option.isSome_iff_exists.mp (hm a List.mem_cons_self)
    rw [decoded, List.filterMap_cons_some hb, List.length_cons, List.length_cons]
    exact congrArg (· + 1) (ih fun c hc => hm c (List.mem_cons_of_mem a hc))

variable [DecidableEq α]

def runsFrom : ℕ → List α → List (Run β)
  | _, [] => []
  | off, a :: l =>
    if a = A.marker then
      ⟨decoded A (sel A l), off, A.size a + total A.toSizing (sel A l)⟩ ::
        runsFrom (off + A.size a) l
    else runsFrom (off + A.size a) l

theorem runsFrom_marker (off : ℕ) (l : List α) :
    runsFrom A off (A.marker :: l) =
      ⟨decoded A (sel A l), off, A.size A.marker + total A.toSizing (sel A l)⟩ ::
        runsFrom A (off + A.size A.marker) l := if_pos rfl

theorem runsFrom_of_ne {a : α} (h : a ≠ A.marker) (off : ℕ) (l : List α) :
    runsFrom A off (a :: l) = runsFrom A (off + A.size a) l := if_neg h

theorem runsFrom_shift (off k : ℕ) (l : List α) :
    runsFrom A (off + k) l = (runsFrom A off l).map (Run.shift k) := by
  induction l generalizing off with
  | nil => rfl
  | cons a l ih =>
    have hcomm : off + k + A.size a = off + A.size a + k := Nat.add_right_comm off k _
    by_cases h : a = A.marker
    · subst h
      rw [runsFrom_marker, runsFrom_marker, List.map_cons, hcomm, ih]
      rfl
    · rw [runsFrom_of_ne A h, runsFrom_of_ne A h, hcomm, ih]

theorem runsFrom_append (off : ℕ) (a : List α) {b : List α} (hb : Blunt A b) :
    runsFrom A off (a ++ b) = runsFrom A off a ++ runsFrom A (off + total A.toSizing a) b := by
  induction a generalizing off with
  | nil => rfl
  | cons x a ih =>
    rw [List.cons_append, total_cons, ← Nat.add_assoc]
    by_cases h : x = A.marker
    · subst h
      rw [runsFrom_marker, runsFrom_marker, sel_append_blunt A a hb, ih, List.cons_append]
    · rw [runsFrom_of_ne A h, runsFrom_of_ne A h, ih]

theorem runsFrom_skip (off : ℕ) {g : List α} (hg : A.marker ∉ g) (l : List α) :
    runsFrom A off (g ++ l) = runsFrom A (off + total A.toSizing g) l := by
  induction g generalizing off with
  | nil => rfl
  | cons x g ih =>
    rw [List.mem_cons, not_or] at hg
    rw [List.cons_append, runsFrom_of_ne A (Ne.symm hg.1), ih _ hg.2, total_cons, Nat.add_assoc]

theorem runsFrom_eq_nil (off : ℕ) {l : List α} (h : A.marker ∉ l) : runsFrom A off l = [] := by
  have hskip := runsFrom_skip A off h []
  rwa [List.append_nil] at hskip

def runAt (off : ℕ) (m : List α) : Run β :=
  ⟨decoded A m, off, total A.toSizing (A.marker :: m)⟩

omit [DecidableEq α] in
theorem runAt_stop (off : ℕ) (m : List α) :
    (runAt A off m).stop = off + total A.toSizing (A.marker :: m) := rfl

theorem runsFrom_run (off : ℕ) {m b : List α} (hm : Decodable A m) (hb : Blunt A b) :
    runsFrom A off (A.marker :: (m ++ b)) =
      runAt A off m :: runsFrom A (off + total A.toSizing (A.marker :: m)) b := by
  rw [runsFrom_marker, sel_append A hm hb, runsFrom_skip A _ (marker_not_mem A hm), Nat.add_assoc]
  rfl

/-- Every list is a block without a marker, or such a block, a first run and a rest
that the run does not reach into. -/
theorem runs_induction {P : List α → Prop} (none : ∀ l, A.marker ∉ l → P l)
    (run : ∀ g m b, A.marker ∉ g → Decodable A m → Blunt A b → P b →
      P (g ++ A.marker :: (m ++ b))) (l : List α) : P l := by
  induction hn : l.length using Nat.strong_induction_on generalizing l with
  | _ n ih =>
    by_cases h : A.marker ∈ l
    · obtain ⟨g, t, rfl, hg⟩ := List.eq_append_cons_of_mem h
      have hlen := congrArg List.length (sel_append_rest A t)
      rw [← sel_append_rest A t]
      refine run g _ _ hg (decodable_sel A t) (blunt_rest A t) (ih _ ?_ _ rfl)
      simp only [List.length_append, List.length_cons] at hn hlen
      omega
    · exact none l h

end MarkedRuns
