import UnstructuredText.Frame.Extract

/-! Locating in a concatenation. A seam before a character that is not a selector is
never crossed by a run, so the two sides are scanned independently and the second only
moves. -/

namespace UnstructuredText
open Machine Sized MarkedRuns

def Wrapper.shift (k : ℕ) (x : Wrapper) : Wrapper := { x with start := x.start + k }

theorem runs_append (a : Text) {b : Text} (hb : Blunt selectors b) :
    runs (a ++ b) = runs a ++ (runs b).map (Run.shift (strLen a)) := by
  rw [runs, runsFrom_append selectors 0 a hb, runsFrom_shift]
  rfl

theorem wrapperOf_shift (k : ℕ) (r : Run UInt8) :
    wrapperOf (r.shift k) = (wrapperOf r).map (Wrapper.shift k) := by
  -- what a run decodes to does not depend on its place
  have hiff : IsCandidate (r.shift k) ∧ IsValid (r.shift k) ↔ IsCandidate r ∧ IsValid r := Iff.rfl
  unfold wrapperOf
  by_cases h : IsCandidate r ∧ IsValid r
  · rw [if_pos h, if_pos (hiff.mpr h)]
    rfl
  · rw [if_neg h, if_neg (mt hiff.mp h)]
    rfl

variable (w : PtrWidth) {a b : Text} (hb : Blunt selectors b)
include hb

theorem wrappers_append :
    wrappers (a ++ b) = wrappers a ++ (wrappers b).map (Wrapper.shift (strLen a)) := by
  unfold wrappers
  rw [runs_append a hb, List.filterMap_append, List.filterMap_map, List.map_filterMap]
  refine congrArg (_ ++ ·) (List.filterMap_congr fun r _ => ?_)
  apply wrapperOf_shift

theorem any_corrupted_append :
    ((runs (a ++ b)).any fun r => decide (IsCandidate r ∧ ¬IsValid r)) =
      (((runs a).any fun r => decide (IsCandidate r ∧ ¬IsValid r)) ||
        (runs b).any fun r => decide (IsCandidate r ∧ ¬IsValid r)) := by
  rw [runs_append a hb, List.any_append, List.any_map]
  rfl

structure Concatenates (w : PtrWidth) (a b : Text) : Prop where
  located : ∃ ws vs, locateAll w a = .ok ws ∧ locateAll w b = .ok vs ∧
    locateAll w (a ++ b) = .ok (ws ++ vs.map (Wrapper.shift (strLen a)))
  corrupted : ∃ p q, hasCorruptedCandidate w a = .ok p ∧ hasCorruptedCandidate w b = .ok q ∧
    hasCorruptedCandidate w (a ++ b) = .ok (p || q)

/-- Scanning is a homomorphism from texts, joined where no run crosses the seam. -/
theorem locateAll_append (hfit : Fits w (a ++ b)) : Concatenates w a b where
  located := by
    refine ⟨_, _, locateAll_eq w hfit.left, locateAll_eq w hfit.right, ?_⟩
    rw [locateAll_eq w hfit, wrappers_append hb]
  corrupted := by
    refine ⟨_, _, hasCorruptedCandidate_eq w hfit.left, hasCorruptedCandidate_eq w hfit.right, ?_⟩
    rw [hasCorruptedCandidate_eq w hfit, any_corrupted_append hb]

omit hb in
theorem locateAll_append_markers :
    Concatenates .w32 (carrier [7] [] ++ [marker]) (marker :: encodeRun magic) :=
  locateAll_append .w32 (blunt_marker selectors _) (by decide)

end UnstructuredText
