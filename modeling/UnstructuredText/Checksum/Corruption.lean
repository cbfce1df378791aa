import UnstructuredText.Checksum.Verdict
import Mathlib.Data.List.TFAE

/-! Corruption and absence. The version 2 extractor reports a failed candidate unless a
good one stands beside it, since it counts the good ones first; the three extractors agree
on which texts carry no provenance. -/

namespace UnstructuredText.V2
open Machine Sized MarkedRuns

section Failed
variable (hasher : Hasher) {text : Text}

/-- A version 2 run that bears the magic and does not verify: it is too short for its
header, its declared body and four more bytes, or those four bytes are not the truncated
digest of header and body. -/
def Failed (c : Candidate text) : Prop :=
  c.bytes[8]? = some version ∧ ¬(headerLen + declared c.bytes + checksumLen ≤ c.bytes.length ∧
    Checks hasher c.bytes)

theorem failed_iff (c : Candidate text) :
    Failed hasher c ↔ c.bytes[8]? = some version ∧ ¬IsValid hasher c.asRun := by
  have hhead : headerLen + declared c.bytes + checksumLen ≤ c.bytes.length →
      headerLen ≤ c.bytes.length := fun h => Nat.le_trans (by omega) h
  rw [Failed, IsValid, Complete]
  refine and_congr_right fun hversion => not_congr ⟨?_, ?_⟩
  · rintro ⟨hlen, hsum⟩
    exact ⟨⟨hhead hlen, hversion, hlen⟩, hsum⟩
  · rintro ⟨⟨_, _, hlen⟩, hsum⟩
    exact ⟨hlen, hsum⟩

variable {hasher} (hlong : LongDigests hasher) (hfit : Fits .w64 text)
include hlong hfit

theorem extract_reports_failed_iff :
    ((∃ c : Candidate text, Failed hasher c) →
        extract .w64 text hasher = .ok (.error .corruptedWrapper)) ↔
      ¬((∃ c : Candidate text, Failed hasher c) ∧
        ∃ c : Candidate text, IsValid hasher c.asRun) := by
  rw [extract_eq hlong hfit, Except.ok.injEq, verdict_corrupted_iff, forall_candidates_iff,
    ← not_exists, not_and]
  refine imp_congr_right fun ⟨c, _⟩ => and_iff_right ?_
  exact List.ne_nil_of_mem c.mem

end Failed

theorem extract_reports_failed_iff_single :
    ((∃ c : Candidate (carrier [7] []), Failed ⟨fun _ _ => [1, 2, 3, 4]⟩ c) →
        extract .w64 (carrier [7] []) ⟨fun _ _ => [1, 2, 3, 4]⟩ =
          .ok (.error .corruptedWrapper)) ↔
      ¬((∃ c : Candidate (carrier [7] []), Failed ⟨fun _ _ => [1, 2, 3, 4]⟩ c) ∧
        ∃ c : Candidate (carrier [7] []), IsValid ⟨fun _ _ => [1, 2, 3, 4]⟩ c.asRun) :=
  @extract_reports_failed_iff ⟨fun _ _ => [1, 2, 3, 4]⟩ _ (fun _ _ => Nat.le_refl 4) (by decide)

/-- A good version 2 wrapper and a second one whose checksum fails: the first is returned
and the second is not reported. -/
theorem extract_overlooks_failed :
    LongDigests ⟨fun _ _ => [1, 2, 3, 4]⟩ ∧
    Fits .w64 (marker :: encodeRun (frame 2 [8] [1, 2, 3, 4]) ++
      marker :: encodeRun (frame 2 [9] [1, 2, 3, 5])) ∧
    ¬((∃ c : Candidate (marker :: encodeRun (frame 2 [8] [1, 2, 3, 4]) ++
        marker :: encodeRun (frame 2 [9] [1, 2, 3, 5])),
        Failed ⟨fun _ _ => [1, 2, 3, 4]⟩ c) →
      extract .w64 (marker :: encodeRun (frame 2 [8] [1, 2, 3, 4]) ++
        marker :: encodeRun (frame 2 [9] [1, 2, 3, 5])) ⟨fun _ _ => [1, 2, 3, 4]⟩ =
        .ok (.error .corruptedWrapper)) := by
  have hout : extract .w64 (marker :: encodeRun (frame 2 [8] [1, 2, 3, 4]) ++
      marker :: encodeRun (frame 2 [9] [1, 2, 3, 5])) ⟨fun _ _ => [1, 2, 3, 4]⟩ =
      .ok (.ok ⟨[8], 2, 0, 64⟩) := by decide +kernel
  have hrun : ∃ r ∈ candidates (marker :: encodeRun (frame 2 [8] [1, 2, 3, 4]) ++
      marker :: encodeRun (frame 2 [9] [1, 2, 3, 5])),
      r.items[8]? = some version ∧ ¬IsValid ⟨fun _ _ => [1, 2, 3, 4]⟩ r := by decide +kernel
  refine ⟨fun _ _ => Nat.le_refl 4, by decide, fun h => ?_⟩
  obtain ⟨r, hr, hfailed⟩ := hrun
  obtain ⟨c, rfl⟩ := mem_candidates_iff.mp hr
  have heq := h ⟨c, (failed_iff _ c).mpr hfailed⟩
  rw [hout] at heq
  cases heq

section Absence
variable {text : Text}

theorem isEmpty_candidate_iff :
    IsEmpty (Candidate text) ↔ ¬∃ a b, text = a ++ marker :: (encodeRun magic ++ b) := by
  rw [← not_nonempty_iff, not_iff_not]
  constructor
  · rintro ⟨c⟩
    obtain ⟨t, ht⟩ := c.bears
    refine ⟨c.before, encodeRun t ++ c.after, c.eq.trans ?_⟩
    rw [← encodeRun_cutBytes, ← ht, encodeRun, List.map_append, List.append_assoc]
    rfl
  · rintro ⟨a, b, rfl⟩
    have hsel := sel_append_rest selectors b
    have hrun : Decodable selectors (encodeRun magic ++ sel selectors b) := by
      intro c hc
      rcases List.mem_append.mp hc with h | h
      · exact decodable_encodeRun magic c h
      · exact decodable_sel selectors b c h
    refine ⟨⟨⟨a, encodeRun magic ++ sel selectors b, rest selectors b, ?_, hrun,
      blunt_rest selectors b⟩, decoded selectors (sel selectors b), ?_⟩⟩
    · rw [List.append_assoc, hsel]
      rfl
    · rw [cutBytes, decoded, decoded, List.filterMap_append]
      exact congrArg (· ++ _) (decoded_encodeRun magic).symm

theorem anyVerdict_notFound_iff {hasher : Hasher} {rs : List (Run UInt8)} :
    anyVerdict hasher rs = .error .notFound ↔ rs = [] := by
  constructor
  · intro h
    by_contra hne
    cases h1 : UnstructuredText.verdict rs with
    | ok x =>
      rw [anyVerdict_of_ok h1] at h
      cases h
    | error e =>
      rw [anyVerdict_of_error h1 hne] at h
      exact hne (verdict_notFound_iff.mp h)
  · rintro rfl
    rfl

theorem isNoManifestLocated_iff {e : Error} : e.isNoManifestLocated = true ↔ e = .notFound := by
  cases e <;> simp [Error.isNoManifestLocated]

/-- One answer to whether a text carries provenance at all, and no extractor mistakes a
candidate for its absence. -/
structure Absence (text : Text) (hasher : Hasher) : Prop where
  agree : [UnstructuredText.extract .w64 text = .ok (.error .notFound),
    extract .w64 text hasher = .ok (.error .notFound),
    extractAny .w64 text hasher = .ok (.error .notFound),
    hasCandidate .w64 text = .ok false,
    ¬∃ a b, text = a ++ marker :: (encodeRun magic ++ b)].TFAE
  located : Nonempty (Candidate text) → ∀ e, UnstructuredText.extract .w64 text = .ok (.error e) ∨
    extract .w64 text hasher = .ok (.error e) ∨ extractAny .w64 text hasher = .ok (.error e) →
    e.isNoManifestLocated = false

theorem notFound_agree {hasher : Hasher} (hlong : LongDigests hasher) (hfit : Fits .w64 text) :
    Absence text hasher := by
  have hscan : ((runs text).any fun r => IsCandidate r) = false ↔ candidates text = [] := by
    rw [← Bool.not_eq_true, any_candidate_iff, not_not]
  constructor
  · rw [UnstructuredText.extract_eq .w64 hfit, extract_eq hlong hfit, extractAny_eq hlong hfit,
      hasCandidate_eq .w64 hfit]
    apply List.tfae_of_forall (candidates text = [])
    simp only [List.forall_mem_cons, Except.ok.injEq]
    refine ⟨UnstructuredText.verdict_notFound_iff, verdict_notFound_iff, anyVerdict_notFound_iff,
      hscan, ?_, ?_⟩
    · rw [← isEmpty_candidate_iff, candidates_eq_nil_iff]
    · exact fun _ h => absurd h List.not_mem_nil
  · rintro ⟨c⟩ e he
    have hne : candidates text ≠ [] := List.ne_nil_of_mem c.mem
    rw [UnstructuredText.extract_eq .w64 hfit, extract_eq hlong hfit, extractAny_eq hlong hfit] at he
    rw [← Bool.not_eq_true, isNoManifestLocated_iff]
    rintro rfl
    simp only [Except.ok.injEq] at he
    rcases he with h | h | h
    · exact hne (UnstructuredText.verdict_notFound_iff.mp h)
    · exact hne (verdict_notFound_iff.mp h)
    · exact hne (anyVerdict_notFound_iff.mp h)

end Absence

theorem notFound_agree_truncated :
    Absence ('a' :: marker :: encodeRun magic) ⟨fun _ _ => [1, 2, 3, 4]⟩ :=
  notFound_agree (fun _ _ => Nat.le_refl 4) (by decide)

end UnstructuredText.V2
