import UnstructuredText.Checksum.Decode

/-! The extractors that read version 2 frames, on the candidates of a text. `extract`
counts the valid frames and overlooks every other candidate; `extractAny` asks it
whenever version 1 has no answer, and keeps the error of the one asked last. -/

namespace UnstructuredText.V2
open Machine Sized MarkedRuns Lists

section Verdict
variable (hasher : Hasher)

def valid (rs : List (Run UInt8)) : List (Run UInt8) := rs.filter fun r => IsValid hasher r

def verdict (rs : List (Run UInt8)) : Except Error Wrapper :=
  match valid hasher rs with
  | [r] => .ok (toWrapper r)
  | [] => if rs = [] then .error .notFound else .error .corruptedWrapper
  | _ => .error .multipleWrappers

def anyVerdict (rs : List (Run UInt8)) : Except Error Wrapper :=
  match UnstructuredText.verdict rs with
  | .ok x => .ok x
  | .error v1 =>
    match verdict hasher rs with
    | .ok x => .ok x
    | .error .notFound => .error v1
    | .error v2 => .error v2

variable {hasher} {rs : List (Run UInt8)}

theorem not_isValid_of_v1 {r : Run UInt8} (h : UnstructuredText.IsValid r) :
    ¬IsValid hasher r := by
  intro h2
  have hversion := h.2.1.symm.trans h2.1.2.1
  exact absurd (Option.some.inj hversion) (by decide)

theorem verdict_ok_iff {x : Wrapper} :
    verdict hasher rs = .ok x ↔ ∃ r, valid hasher rs = [r] ∧ x = toWrapper r := by
  unfold verdict
  rcases valid hasher rs with _ | ⟨r, _ | ⟨s, l⟩⟩
  · split_ifs <;> simp
  · simp [eq_comm]
  · simp

theorem verdict_notFound_iff : verdict hasher rs = .error .notFound ↔ rs = [] := by
  unfold verdict
  constructor
  · intro h
    split at h
    · cases h
    · split_ifs at h with hnil
      · exact hnil
      · cases h
    · cases h
  · rintro rfl
    rfl

theorem valid_eq_nil_iff : valid hasher rs = [] ↔ ∀ r ∈ rs, ¬IsValid hasher r := by
  simp only [valid, List.filter_eq_nil_iff, decide_eq_true_eq]

theorem verdict_corrupted_iff :
    verdict hasher rs = .error .corruptedWrapper ↔ rs ≠ [] ∧ ∀ r ∈ rs, ¬IsValid hasher r := by
  rw [← valid_eq_nil_iff, verdict]
  constructor
  · intro h
    split at h
    · cases h
    · rename_i hnil
      split_ifs at h with hrs
      · cases h
      · exact ⟨hrs, hnil⟩
    · cases h
  · rintro ⟨hrs, hnil⟩
    rw [hnil]
    exact if_neg hrs

theorem verdict_of_none (hne : rs ≠ []) (h : ∀ r ∈ rs, ¬IsValid hasher r) :
    verdict hasher rs = .error .corruptedWrapper := verdict_corrupted_iff.mpr ⟨hne, h⟩

theorem anyVerdict_of_ok {x : Wrapper} (h : UnstructuredText.verdict rs = .ok x) :
    anyVerdict hasher rs = .ok x := by
  rw [anyVerdict, h]

theorem anyVerdict_of_error {e : Error} (h : UnstructuredText.verdict rs = .error e)
    (hne : rs ≠ []) : anyVerdict hasher rs = verdict hasher rs := by
  rw [anyVerdict, h]
  cases h2 : verdict hasher rs with
  | ok x => rfl
  | error e2 =>
    cases e2 with
    | notFound => exact absurd (verdict_notFound_iff.mp h2) hne
    | _ => rfl

theorem anyVerdict_ok {x : Wrapper} (h : anyVerdict hasher rs = .ok x) :
    UnstructuredText.verdict rs = .ok x ∨ verdict hasher rs = .ok x := by
  cases h1 : UnstructuredText.verdict rs with
  | ok y => exact .inl ((anyVerdict_of_ok h1).symm.trans h)
  | error e =>
    refine .inr ?_
    have hne : rs ≠ [] := by
      rintro rfl
      cases h
    exact (anyVerdict_of_error h1 hne).symm.trans h

end Verdict

section Extract
variable {hasher : Hasher} (hlong : LongDigests hasher) {text : Text} (hfit : Fits .w64 text)

theorem wrappers_eq (text : Text) :
    wrappers hasher text = (valid hasher (candidates text)).map toWrapper :=
  filterMap_guard IsCandidate (IsValid hasher) toWrapper (runs text)

theorem any_candidate_iff (text : Text) :
    ((runs text).any fun r => IsCandidate r) = true ↔ candidates text ≠ [] := by
  rw [candidates, Ne, List.filter_eq_nil_iff, List.any_eq_true]
  simp only [not_forall, not_not, exists_prop]

include hlong hfit

theorem extract_eq : extract .w64 text hasher = .ok (verdict hasher (candidates text)) := by
  rw [extract, locateAll_eq hlong hfit, ok_bind, wrappers_eq, verdict]
  rcases valid hasher (candidates text) with _ | ⟨r, _ | ⟨s, l⟩⟩
  · rw [List.map_nil]
    dsimp only
    rw [hasCandidate_eq .w64 hfit, ok_bind]
    by_cases h : candidates text = []
    · rw [if_neg (fun ht => (any_candidate_iff text).mp ht h), if_pos h]
      rfl
    · rw [if_pos ((any_candidate_iff text).mpr h), if_neg h]
      rfl
  · rfl
  · rfl

theorem extractAny_eq :
    extractAny .w64 text hasher = .ok (anyVerdict hasher (candidates text)) := by
  rw [extractAny, UnstructuredText.extract_eq .w64 hfit, ok_bind, anyVerdict]
  cases UnstructuredText.verdict (candidates text) with
  | ok x => rfl
  | error v1 =>
    dsimp only
    rw [extract_eq hlong hfit, ok_bind]
    cases verdict hasher (candidates text) with
    | ok x => rfl
    | error v2 => cases v2 <;> rfl

end Extract

end UnstructuredText.V2
