import UnstructuredText.Lib.Lists
import UnstructuredText.Frame.Grammar

/-! The outcome of `extract` is decided by the candidates of a text alone: the markers
whose run bears the magic. The two scans it makes agree on them. -/

namespace UnstructuredText
open Machine Sized MarkedRuns Lists

def candidates (text : Text) : List (Run UInt8) := (runs text).filter fun r => IsCandidate r

def single : List (Run UInt8) → Except Error Wrapper
  | [r] => .ok (toWrapper r)
  | [] => .error .notFound
  | _ => .error .multipleWrappers

def verdict (rs : List (Run UInt8)) : Except Error Wrapper :=
  if ∃ r ∈ rs, ¬IsValid r then .error .corruptedWrapper else single rs

theorem verdict_of_valid {rs : List (Run UInt8)} (h : ∀ r ∈ rs, IsValid r) :
    verdict rs = single rs := if_neg fun ⟨r, hr, hv⟩ => hv (h r hr)

theorem verdict_corrupted {rs : List (Run UInt8)} (h : ∃ r ∈ rs, ¬IsValid r) :
    verdict rs = .error .corruptedWrapper := if_pos h

theorem verdict_many {rs : List (Run UInt8)} (hmany : 2 ≤ rs.length)
    (hvalid : ∀ r ∈ rs, IsValid r) : verdict rs = .error .multipleWrappers := by
  rw [verdict_of_valid hvalid]
  match rs, hmany with
  | _ :: _ :: _, _ => rfl

theorem verdict_cases (rs : List (Run UInt8)) :
    (verdict rs = .error .notFound ∧ rs = []) ∨
    (verdict rs = .error .corruptedWrapper ∧ ∃ r ∈ rs, ¬IsValid r) ∨
    (∃ r, verdict rs = .ok (toWrapper r) ∧ rs = [r] ∧ IsValid r) ∨
    (verdict rs = .error .multipleWrappers ∧ 2 ≤ rs.length ∧ ∀ r ∈ rs, IsValid r) := by
  by_cases h : ∃ r ∈ rs, ¬IsValid r
  · exact .inr (.inl ⟨verdict_corrupted h, h⟩)
  have hvalid : ∀ r ∈ rs, IsValid r := fun r hr => not_not.mp fun hv => h ⟨r, hr, hv⟩
  match rs with
  | [] => exact .inl ⟨verdict_of_valid hvalid, rfl⟩
  | [r] => exact .inr (.inr (.inl ⟨r, verdict_of_valid hvalid, rfl, hvalid r List.mem_cons_self⟩))
  | r :: s :: rs => exact .inr (.inr (.inr ⟨verdict_many (by simp) hvalid, by simp, hvalid⟩))

theorem verdict_notFound_iff {rs : List (Run UInt8)} :
    verdict rs = .error .notFound ↔ rs = [] := by
  constructor
  · intro h
    rcases verdict_cases rs with ⟨_, hnil⟩ | ⟨hv, _⟩ | ⟨r, hv, _⟩ | ⟨hv, _⟩
    · exact hnil
    all_goals rw [hv] at h; cases h
  · rintro rfl
    exact verdict_of_valid fun r hr => absurd hr List.not_mem_nil

theorem verdict_corrupted_iff {rs : List (Run UInt8)} :
    verdict rs = .error .corruptedWrapper ↔ ∃ r ∈ rs, ¬IsValid r := by
  refine ⟨fun h => ?_, verdict_corrupted⟩
  rcases verdict_cases rs with ⟨hv, _⟩ | ⟨_, hbad⟩ | ⟨r, hv, _⟩ | ⟨hv, _⟩
  · rw [hv] at h; cases h
  · exact hbad
  all_goals rw [hv] at h; cases h

theorem verdict_ok_iff {rs : List (Run UInt8)} {x : Wrapper} :
    verdict rs = .ok x ↔ ∃ r, rs = [r] ∧ IsValid r ∧ x = toWrapper r := by
  constructor
  · intro h
    rcases verdict_cases rs with ⟨hv, _⟩ | ⟨hv, _⟩ | ⟨r, hv, hrs, hvalid⟩ | ⟨hv, _⟩
    · rw [hv] at h; cases h
    · rw [hv] at h; cases h
    · exact ⟨r, hrs, hvalid, Except.ok.inj (h.symm.trans hv)⟩
    · rw [hv] at h; cases h
  · rintro ⟨r, rfl, hvalid, rfl⟩
    exact verdict_of_valid fun s hs => (List.mem_singleton.mp hs) ▸ hvalid

theorem verdict_multiple_iff {rs : List (Run UInt8)} :
    verdict rs = .error .multipleWrappers ↔ 2 ≤ rs.length ∧ ∀ r ∈ rs, IsValid r := by
  refine ⟨fun h => ?_, fun h => verdict_many h.1 h.2⟩
  rcases verdict_cases rs with ⟨hv, _⟩ | ⟨hv, _⟩ | ⟨r, hv, _⟩ | ⟨_, hmany⟩
  · rw [hv] at h; cases h
  · rw [hv] at h; cases h
  · rw [hv] at h; cases h
  · exact hmany

theorem wrappers_eq (text : Text) :
    wrappers text = ((candidates text).filter fun r => IsValid r).map toWrapper :=
  filterMap_guard IsCandidate IsValid toWrapper (runs text)

theorem any_corrupted_iff (text : Text) :
    ((runs text).any fun r => decide (IsCandidate r ∧ ¬IsValid r)) = true ↔
      ∃ r ∈ candidates text, ¬IsValid r := by
  simp only [List.any_eq_true, decide_eq_true_eq, candidates, List.mem_filter, and_assoc]

theorem extract_eq (w : PtrWidth) {text : Text} (hfit : Fits w text) :
    extract w text = .ok (verdict (candidates text)) := by
  rw [extract, hasCorruptedCandidate_eq w hfit, ok_bind, locateAll_eq w hfit, ok_bind]
  by_cases h : ∃ r ∈ candidates text, ¬IsValid r
  · rw [if_pos ((any_corrupted_iff text).mpr h), verdict_corrupted h]
    rfl
  · have hvalid : ∀ r ∈ candidates text, IsValid r := fun r hr => not_not.mp fun hv => h ⟨r, hr, hv⟩
    -- the second scan sees the candidates that the first one passed
    have hall : (candidates text).filter (fun r => IsValid r) = candidates text :=
      List.filter_eq_self.mpr fun r hr => decide_eq_true (hvalid r hr)
    rw [if_neg (fun ht => h ((any_corrupted_iff text).mp ht)), verdict_of_valid hvalid,
      wrappers_eq, hall]
    match candidates text with
    | [] => rfl
    | [r] => rfl
    | r :: s :: rs => rfl

theorem wrappers_of_candidates {text : Text} {r : Run UInt8} (hr : candidates text = [r])
    (hvalid : IsValid r) : wrappers text = [toWrapper r] := by
  rw [wrappers_eq, hr, List.filter_singleton, decide_eq_true hvalid]
  rfl

theorem mem_wrappers_iff_candidate {text : Text} {x : Wrapper} :
    x ∈ wrappers text ↔ ∃ r ∈ candidates text, IsValid r ∧ x = toWrapper r := by
  rw [wrappers_eq, List.mem_map]
  constructor
  · rintro ⟨r, hr, rfl⟩
    obtain ⟨hcand, hvalid⟩ := List.mem_filter.mp hr
    exact ⟨r, hcand, of_decide_eq_true hvalid, rfl⟩
  · rintro ⟨r, hcand, hvalid, rfl⟩
    exact ⟨r, List.mem_filter.mpr ⟨hcand, decide_eq_true hvalid⟩, rfl⟩

theorem extract_ok_iff (w : PtrWidth) {text : Text} (hfit : Fits w text) {x : Wrapper} :
    extract w text = .ok (.ok x) ↔ ∃ r, candidates text = [r] ∧ IsValid r ∧ x = toWrapper r := by
  rw [extract_eq w hfit, Except.ok.injEq]
  exact verdict_ok_iff

/-- A marker of the text whose maximal selector run begins with the magic. -/
structure Candidate (text : Text) extends Cut selectors text where
  bears : magic <+: cutBytes toCut

namespace Candidate
variable {text : Text}

def bytes (c : Candidate text) : List UInt8 := cutBytes c.toCut

def Valid (c : Candidate text) : Prop :=
  headerLen ≤ c.bytes.length ∧ c.bytes[8]? = some version ∧
    headerLen + declared c.bytes ≤ c.bytes.length

def wrapper (c : Candidate text) : Wrapper :=
  ⟨body c.bytes, version, strLen c.before, strLen c.block⟩

def asRun (c : Candidate text) : Run UInt8 := ⟨c.bytes, c.start, strLen c.block⟩

theorem isValid_asRun (c : Candidate text) : IsValid c.asRun ↔ c.Valid := by
  rw [IsValid, Complete, Nat.add_zero]
  rfl

theorem ext_of_asRun {c c' : Candidate text} (h : c.asRun = c'.asRun) : c = c' := by
  have hcut : c.toCut = c'.toCut := Cut.ext_of_start (congrArg Run.start h)
  cases c
  cases c'
  subst hcut
  rfl

end Candidate

variable {text : Text}

theorem mem_candidates_iff {r : Run UInt8} :
    r ∈ candidates text ↔ ∃ c : Candidate text, r = c.asRun := by
  rw [candidates, List.mem_filter, mem_runs_iff, decide_eq_true_eq]
  constructor
  · rintro ⟨⟨c, rfl⟩, hbears⟩
    exact ⟨⟨c, hbears⟩, rfl⟩
  · rintro ⟨c, rfl⟩
    exact ⟨⟨c.toCut, rfl⟩, c.bears⟩

theorem Candidate.mem (c : Candidate text) : c.asRun ∈ candidates text :=
  mem_candidates_iff.mpr ⟨c, rfl⟩

theorem candidates_eq_nil_iff : candidates text = [] ↔ IsEmpty (Candidate text) := by
  constructor
  · intro h
    exact ⟨fun c => List.not_mem_nil (h ▸ c.mem)⟩
  · intro h
    refine List.eq_nil_iff_forall_not_mem.mpr fun r hr => ?_
    obtain ⟨c, _⟩ := mem_candidates_iff.mp hr
    exact h.false c

theorem forall_candidates_iff {P : Run UInt8 → Prop} :
    (∀ r ∈ candidates text, P r) ↔ ∀ c : Candidate text, P c.asRun := by
  constructor
  · exact fun h c => h _ c.mem
  · intro h r hr
    obtain ⟨c, rfl⟩ := mem_candidates_iff.mp hr
    exact h c

theorem candidates_nodup (text : Text) : (candidates text).Nodup := by
  apply List.Pairwise.filter
  apply (runsFrom_starts selectors 0 text).imp
  intro r s hlt heq
  subst heq
  exact Nat.lt_irrefl r.start hlt

theorem candidates_eq_singleton_iff {r : Run UInt8} :
    candidates text = [r] ↔ ∃ c : Candidate text, (∀ c', c' = c) ∧ r = c.asRun := by
  constructor
  · intro h
    obtain ⟨c, rfl⟩ := mem_candidates_iff.mp (h ▸ List.mem_singleton_self r)
    refine ⟨c, fun c' => Candidate.ext_of_asRun ?_, rfl⟩
    exact List.mem_singleton.mp (h ▸ c'.mem)
  · rintro ⟨c, hc, rfl⟩
    exact eq_singleton_of_nodup (candidates_nodup text) c.mem
      (forall_candidates_iff.mpr fun c' => congrArg Candidate.asRun (hc c'))

theorem two_le_candidates_iff :
    2 ≤ (candidates text).length ↔ ∃ c c' : Candidate text, c ≠ c' := by
  constructor
  · intro h
    obtain ⟨r, hr, s, hs, hne⟩ := exists_ne_of_two_le (candidates_nodup text) h
    obtain ⟨c, rfl⟩ := mem_candidates_iff.mp hr
    obtain ⟨c', rfl⟩ := mem_candidates_iff.mp hs
    exact ⟨c, c', fun heq => hne (congrArg Candidate.asRun heq)⟩
  · rintro ⟨c, c', hne⟩
    exact two_le_of_ne (fun heq => hne (Candidate.ext_of_asRun heq)) c.mem c'.mem

/-- More than one candidate, and every one of them decodes. -/
def Accreted (text : Text) : Prop :=
  (∃ c c' : Candidate text, c ≠ c') ∧ ∀ c : Candidate text, c.Valid

theorem accreted_iff :
    Accreted text ↔ 2 ≤ (candidates text).length ∧ ∀ r ∈ candidates text, IsValid r := by
  rw [Accreted, two_le_candidates_iff]
  simp only [forall_candidates_iff, Candidate.isValid_asRun]

theorem verdict_accreted_iff :
    verdict (candidates text) = .error .multipleWrappers ↔ Accreted text := by
  rw [verdict_multiple_iff, accreted_iff]

structure Classifies (text : Text) (outcome : Except Error Wrapper) : Prop where
  notFound : outcome = .error .notFound ↔ IsEmpty (Candidate text)
  corrupted : outcome = .error .corruptedWrapper ↔ ∃ c : Candidate text, ¬c.Valid
  ok : ∀ x, outcome = .ok x ↔ ∃ c : Candidate text, (∀ c', c' = c) ∧ c.Valid ∧ x = c.wrapper
  multiple : outcome = .error .multipleWrappers ↔
    (∃ c c' : Candidate text, c ≠ c') ∧ ∀ c : Candidate text, c.Valid
  errors : ∀ e, outcome = .error e →
    e = .notFound ∨ e = .corruptedWrapper ∨ e = .multipleWrappers
  unsigned : ∀ e, outcome = .error e → (e.isNoManifestLocated = true ↔ IsEmpty (Candidate text))
  uncoded : ∀ e, outcome = .error e → (e.code = none ↔ IsEmpty (Candidate text))

theorem verdict_error {rs : List (Run UInt8)} {e : Error} (h : verdict rs = .error e) :
    e = .notFound ∨ e = .corruptedWrapper ∨ e = .multipleWrappers := by
  rcases verdict_cases rs with ⟨hv, _⟩ | ⟨hv, _⟩ | ⟨r, hv, _⟩ | ⟨hv, _⟩ <;> rw [hv] at h
  · exact .inl (Except.error.inj h).symm
  · exact .inr (.inl (Except.error.inj h).symm)
  · cases h
  · exact .inr (.inr (Except.error.inj h).symm)

theorem verdict_classifies (text : Text) : Classifies text (verdict (candidates text)) := by
  have hbad : (∃ r ∈ candidates text, ¬IsValid r) ↔ ∃ c : Candidate text, ¬c.Valid := by
    have h := not_congr (@forall_candidates_iff text IsValid)
    simpa only [not_forall, exists_prop, Candidate.isValid_asRun] using h
  have hvalid : (∀ r ∈ candidates text, IsValid r) ↔ ∀ c : Candidate text, c.Valid := by
    simp only [forall_candidates_iff, Candidate.isValid_asRun]
  have hempty := verdict_notFound_iff.trans (@candidates_eq_nil_iff text)
  refine ⟨hempty, verdict_corrupted_iff.trans hbad, fun x => ?_, ?_, fun e => verdict_error, ?_, ?_⟩
  · rw [verdict_ok_iff]
    constructor
    · rintro ⟨r, hr, hv, rfl⟩
      obtain ⟨c, hc, rfl⟩ := candidates_eq_singleton_iff.mp hr
      exact ⟨c, hc, c.isValid_asRun.mp hv, rfl⟩
    · rintro ⟨c, hc, hv, rfl⟩
      exact ⟨_, candidates_eq_singleton_iff.mpr ⟨c, hc, rfl⟩, c.isValid_asRun.mpr hv, rfl⟩
  · exact verdict_accreted_iff
  · intro e he
    rw [← hempty, he]
    rcases verdict_error he with rfl | rfl | rfl <;> simp [Error.isNoManifestLocated]
  · intro e he
    rw [← hempty, he]
    rcases verdict_error he with rfl | rfl | rfl <;> simp [Error.code]

theorem extract_classifies (w : PtrWidth) {text : Text} (hfit : Fits w text) :
    ∃ outcome, extract w text = .ok outcome ∧ Classifies text outcome :=
  ⟨_, extract_eq w hfit, verdict_classifies text⟩

theorem extract_classifies_truncated :
    ∃ outcome, extract .w64 (carrier [7] [] ++ marker :: encodeRun (magic ++ [1])) = .ok outcome ∧
      Classifies (carrier [7] [] ++ marker :: encodeRun (magic ++ [1])) outcome :=
  extract_classifies .w64 (by decide)

end UnstructuredText
