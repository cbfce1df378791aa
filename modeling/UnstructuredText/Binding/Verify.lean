import UnstructuredText.Frame.Embed
import UnstructuredText.Binding.Exclusions

/-! Verification. What `verifyDataHash` answers to any binding, however malformed, is
decided stage by stage: the algorithm, the candidates of the text, the located wrappers
whose range the binding lists, and last the digest. -/

namespace UnstructuredText
open Machine Sized MarkedRuns Lists

theorem fromId_id (alg : Algorithm) : Algorithm.fromId alg.id = .ok alg := by
  cases alg <;> rfl

theorem fromId_unknown {id : String} (h : ∀ alg : Algorithm, alg.id ≠ id) :
    Algorithm.fromId id = .error (.unsupportedAlgorithm id) := by
  have h256 : id ≠ "sha256" := (h .sha256).symm
  have h384 : id ≠ "sha384" := (h .sha384).symm
  have h512 : id ≠ "sha512" := (h .sha512).symm
  rw [Algorithm.fromId, if_neg h256, if_neg h384, if_neg h512]

section Ranges
variable {text : Text} {x y : Wrapper}

theorem wrappers_ext_of_start (hx : x ∈ wrappers text) (hy : y ∈ wrappers text)
    (h : x.start = y.start) : x = y := by
  obtain ⟨c, _, _, rfl⟩ := mem_wrappers_iff.mp hx
  obtain ⟨c', _, _, rfl⟩ := mem_wrappers_iff.mp hy
  obtain rfl : c = c' := Cut.ext_of_start h
  rfl

theorem exists_block (hx : x ∈ wrappers text) :
    ∃ a m b, text = a ++ m ++ b ∧ x.exclusion = ⟨strLen a, strLen m⟩ := by
  obtain ⟨_, a, m, b, hcut, hstart, hlength⟩ := exists_frameCut hx
  exact ⟨a, m, b, hcut.eq, by rw [Wrapper.exclusion, hstart, hlength]⟩

theorem hashedBytes_block {w : PtrWidth} {a m b : Text} (hfit : Fits w (a ++ m ++ b))
    (normalizer : Normalizer) :
    hashedBytes w (a ++ m ++ b) [⟨strLen a, strLen m⟩] normalizer =
      .ok (.ok (strBytes (normalizer.nfc (a ++ b)))) := by
  rw [hashedBytes, applyExclusions_block w hfit]
  rfl

end Ranges

def Known (d : DataHash) : Prop := ∃ alg : Algorithm, alg.id = d.alg

def Sound (text : Text) : Prop := ∀ c : Candidate text, c.Valid

def listed (d : DataHash) (ws : List Wrapper) : List Wrapper :=
  ws.filter fun x => d.exclusions.contains x.exclusion

def Selects (d : DataHash) (ws : List Wrapper) : Prop := ∃ x ∈ ws, d.exclusions = [x.exclusion]

def Digests (text : Text) (d : DataHash) (hasher : Hasher) (normalizer : Normalizer) : Prop :=
  ∃ alg a m b, alg.id = d.alg ∧ text = a ++ m ++ b ∧ d.exclusions = [⟨strLen a, strLen m⟩] ∧
    hasher.digest alg (strBytes (normalizer.nfc (a ++ b))) = d.hash

theorem sound_iff {text : Text} : Sound text ↔ ∀ r ∈ candidates text, IsValid r := by
  simp only [Sound, forall_candidates_iff, Candidate.isValid_asRun]

theorem mem_listed_iff {d : DataHash} {ws : List Wrapper} {x : Wrapper} :
    x ∈ listed d ws ↔ x ∈ ws ∧ x.exclusion ∈ d.exclusions := by
  rw [listed, List.mem_filter, List.contains_iff_mem]

theorem selects_iff {d : DataHash} {ws : List Wrapper} :
    Selects d ws ↔ listed d ws ≠ [] ∧ d.exclusions.length = 1 := by
  constructor
  · rintro ⟨x, hx, hd⟩
    have hmem : x ∈ listed d ws := mem_listed_iff.mpr ⟨hx, hd ▸ List.mem_singleton_self _⟩
    exact ⟨List.ne_nil_of_mem hmem, congrArg List.length hd⟩
  · rintro ⟨hne, hlen⟩
    obtain ⟨x, hx⟩ := List.exists_mem_of_ne_nil _ hne
    obtain ⟨hws, hmem⟩ := mem_listed_iff.mp hx
    obtain ⟨e, he⟩ := List.length_eq_one_iff.mp hlen
    rw [he, List.mem_singleton] at hmem
    exact ⟨x, hws, he.trans (congrArg (fun e => [e]) hmem.symm)⟩

theorem listed_of_selects {text : Text} {d : DataHash} (h : Selects d (wrappers text)) :
    (listed d (wrappers text)).length = 1 := by
  obtain ⟨x, hx, hd⟩ := h
  -- wrappers differ in where they start, so one range selects one wrapper
  have hall : ∀ y ∈ listed d (wrappers text), y = x := by
    intro y hy
    obtain ⟨hws, hmem⟩ := mem_listed_iff.mp hy
    rw [hd, List.mem_singleton] at hmem
    exact wrappers_ext_of_start hws hx (congrArg Exclusion.start hmem)
  have hmem : x ∈ listed d (wrappers text) :=
    mem_listed_iff.mpr ⟨hx, hd ▸ List.mem_singleton_self _⟩
  have hnodup : (listed d (wrappers text)).Nodup := (wrappers_nodup text).filter _
  rw [eq_singleton_of_nodup hnodup hmem hall]
  rfl

section Stages
variable {w : PtrWidth} {text : Text} (hfit : Fits w text) {d : DataHash} (hasher : Hasher)
  (normalizer : Normalizer)

omit hfit in
theorem verify_unknown (h : ¬Known d) : verifyDataHash w text d hasher normalizer =
    .ok (.error (.unsupportedAlgorithm d.alg)) := by
  rw [verifyDataHash, fromId_unknown fun alg halg => h ⟨alg, halg⟩]
  rfl

include hfit

theorem verify_corrupted (halg : Known d) (h : ¬Sound text) :
    verifyDataHash w text d hasher normalizer = .ok (.error .corruptedWrapper) := by
  obtain ⟨alg, halg⟩ := halg
  have hbad : ∃ r ∈ candidates text, ¬IsValid r := by
    simpa only [sound_iff, not_forall, exists_prop] using h
  rw [verifyDataHash, ← halg, fromId_id]
  dsimp only
  rw [hasCorruptedCandidate_eq w hfit, ok_bind, if_pos ((any_corrupted_iff text).mpr hbad)]
  rfl

theorem verify_sound {alg : Algorithm} (halg : alg.id = d.alg) (h : Sound text) :
    verifyDataHash w text d hasher normalizer =
      if (listed d (wrappers text)).length > 1 then .ok (.error .multipleWrappers)
      else if (listed d (wrappers text)).length = 0 ∨ d.exclusions.length ≠ 1 then
        .ok (.error .malformedExclusion)
      else hashedBytes w text d.exclusions normalizer >>= fun
        | .error e => .ok (.error e)
        | .ok covered =>
          if hasher.digest alg covered = d.hash then .ok (.ok ())
          else .ok (.error .hashMismatch) := by
  have hno : ¬((runs text).any fun r => decide (IsCandidate r ∧ ¬IsValid r)) = true := by
    rw [any_corrupted_iff]
    exact fun ⟨r, hr, hbad⟩ => hbad (sound_iff.mp h r hr)
  rw [verifyDataHash, ← halg, fromId_id]
  dsimp only
  rw [hasCorruptedCandidate_eq w hfit, ok_bind, if_neg hno, locateAll_eq w hfit, ok_bind]
  rfl

theorem verify_multiple (halg : Known d) (h : Sound text)
    (hmany : 2 ≤ (listed d (wrappers text)).length) :
    verifyDataHash w text d hasher normalizer = .ok (.error .multipleWrappers) := by
  obtain ⟨alg, halg⟩ := halg
  rw [verify_sound hfit hasher normalizer halg h, if_pos (Nat.lt_of_succ_le hmany)]

theorem verify_malformed (halg : Known d) (h : Sound text)
    (hfew : (listed d (wrappers text)).length < 2) (hsel : ¬Selects d (wrappers text)) :
    verifyDataHash w text d hasher normalizer = .ok (.error .malformedExclusion) := by
  obtain ⟨alg, halg⟩ := halg
  have hnot : (listed d (wrappers text)).length = 0 ∨ d.exclusions.length ≠ 1 := by
    rw [selects_iff, not_and_or, not_not] at hsel
    exact hsel.imp_left List.length_eq_zero_iff.mpr
  rw [verify_sound hfit hasher normalizer halg h, if_neg (Nat.not_lt.mpr (Nat.le_of_lt_succ hfew)),
    if_pos hnot]

theorem verify_selected {alg : Algorithm} (halg : alg.id = d.alg) (h : Sound text)
    (hsel : Selects d (wrappers text)) {a m b : Text} (htext : text = a ++ m ++ b)
    (hd : d.exclusions = [⟨strLen a, strLen m⟩]) :
    verifyDataHash w text d hasher normalizer =
      if hasher.digest alg (strBytes (normalizer.nfc (a ++ b))) = d.hash then .ok (.ok ())
      else .ok (.error .hashMismatch) := by
  have hone := listed_of_selects hsel
  have hlen : d.exclusions.length = 1 := congrArg List.length hd
  subst htext
  rw [verify_sound hfit hasher normalizer halg h, hone, if_neg (Nat.lt_irrefl 1),
    if_neg (by rw [hlen]; decide), hd, hashedBytes_block hfit]
  rfl

theorem verify_accepts (h : Sound text) (hsel : Selects d (wrappers text))
    (hdig : Digests text d hasher normalizer) :
    verifyDataHash w text d hasher normalizer = .ok (.ok ()) := by
  obtain ⟨alg, a, m, b, halg, htext, hd, hdig⟩ := hdig
  rw [verify_selected hfit hasher normalizer halg h hsel htext hd, if_pos hdig]

theorem verify_mismatch (halg : Known d) (h : Sound text) (hsel : Selects d (wrappers text))
    (hdig : ¬Digests text d hasher normalizer) :
    verifyDataHash w text d hasher normalizer = .ok (.error .hashMismatch) := by
  obtain ⟨alg, halg⟩ := halg
  obtain ⟨x, hx, hd⟩ := hsel
  obtain ⟨a, m, b, htext, hblock⟩ := exists_block hx
  rw [verify_selected hfit hasher normalizer halg h ⟨x, hx, hd⟩ htext (hblock ▸ hd),
    if_neg fun he => hdig ⟨alg, a, m, b, halg, htext, hblock ▸ hd, he⟩]

end Stages

structure Judges (w : PtrWidth) (text : Text) (d : DataHash) (hasher : Hasher)
    (normalizer : Normalizer) (ws : List Wrapper) (outcome : Except Error Unit) : Prop where
  ok : outcome = .ok () ↔
    Known d ∧ Sound text ∧ Selects d ws ∧ Digests text d hasher normalizer
  unsupported : outcome = .error (.unsupportedAlgorithm d.alg) ↔ ¬Known d
  corrupted : outcome = .error .corruptedWrapper ↔ Known d ∧ ¬Sound text
  multiple : outcome = .error .multipleWrappers ↔
    Known d ∧ Sound text ∧ 2 ≤ (listed d ws).length
  malformed : outcome = .error .malformedExclusion ↔
    Known d ∧ Sound text ∧ (listed d ws).length < 2 ∧ ¬Selects d ws
  mismatch : outcome = .error .hashMismatch ↔
    Known d ∧ Sound text ∧ Selects d ws ∧ ¬Digests text d hasher normalizer
  errors : ∀ e, outcome = .error e → e = .unsupportedAlgorithm d.alg ∨ e = .corruptedWrapper ∨
    e = .multipleWrappers ∨ e = .malformedExclusion ∨ e = .hashMismatch
  covered : Selects d ws → ∃ bytes, hashedBytes w text d.exclusions normalizer = .ok (.ok bytes)

/-- The six outcomes, each with what decides it. -/
inductive Stage (text : Text) (d : DataHash) (hasher : Hasher) (normalizer : Normalizer) :
    Except Error Unit → Prop
  | unsupported (halg : ¬Known d) :
      Stage text d hasher normalizer (.error (.unsupportedAlgorithm d.alg))
  | corrupted (halg : Known d) (hsound : ¬Sound text) :
      Stage text d hasher normalizer (.error .corruptedWrapper)
  | multiple (halg : Known d) (hsound : Sound text)
      (hmany : 2 ≤ (listed d (wrappers text)).length) :
      Stage text d hasher normalizer (.error .multipleWrappers)
  | malformed (halg : Known d) (hsound : Sound text)
      (hfew : (listed d (wrappers text)).length < 2) (hsel : ¬Selects d (wrappers text)) :
      Stage text d hasher normalizer (.error .malformedExclusion)
  | mismatch (halg : Known d) (hsound : Sound text) (hsel : Selects d (wrappers text))
      (hdig : ¬Digests text d hasher normalizer) :
      Stage text d hasher normalizer (.error .hashMismatch)
  | accepted (halg : Known d) (hsound : Sound text) (hsel : Selects d (wrappers text))
      (hdig : Digests text d hasher normalizer) : Stage text d hasher normalizer (.ok ())

section Judge
variable {w : PtrWidth} {text : Text} (hfit : Fits w text) (d : DataHash) (hasher : Hasher)
  (normalizer : Normalizer)
include hfit

theorem verify_stage :
    ∃ outcome, verifyDataHash w text d hasher normalizer = .ok outcome ∧
      Stage text d hasher normalizer outcome := by
  by_cases halg : Known d
  swap
  · exact ⟨_, verify_unknown hasher normalizer halg, .unsupported halg⟩
  by_cases hsound : Sound text
  swap
  · exact ⟨_, verify_corrupted hfit hasher normalizer halg hsound, .corrupted halg hsound⟩
  rcases Nat.lt_or_ge (listed d (wrappers text)).length 2 with hfew | hmany
  swap
  · exact ⟨_, verify_multiple hfit hasher normalizer halg hsound hmany,
      .multiple halg hsound hmany⟩
  by_cases hsel : Selects d (wrappers text)
  swap
  · exact ⟨_, verify_malformed hfit hasher normalizer halg hsound hfew hsel,
      .malformed halg hsound hfew hsel⟩
  by_cases hdig : Digests text d hasher normalizer
  · exact ⟨_, verify_accepts hfit hasher normalizer hsound hsel hdig,
      .accepted halg hsound hsel hdig⟩
  · exact ⟨_, verify_mismatch hfit hasher normalizer halg hsound hsel hdig,
      .mismatch halg hsound hsel hdig⟩

theorem hashedBytes_of_selects (h : Selects d (wrappers text)) :
    ∃ bytes, hashedBytes w text d.exclusions normalizer = .ok (.ok bytes) := by
  obtain ⟨x, hx, hd⟩ := h
  obtain ⟨a, m, b, rfl, hblock⟩ := exists_block hx
  rw [hd, hblock]
  exact ⟨_, hashedBytes_block hfit normalizer⟩

theorem verifyDataHash_judges :
    ∃ ws outcome, locateAll w text = .ok ws ∧
      verifyDataHash w text d hasher normalizer = .ok outcome ∧
      Judges w text d hasher normalizer ws outcome := by
  obtain ⟨outcome, hverify, hstage⟩ := verify_stage hfit d hasher normalizer
  -- an outcome names its stage, and a stage fixes the outcome
  have hfixed : ∀ {o : Except Error Unit}, verifyDataHash w text d hasher normalizer = .ok o →
      outcome = o := fun h => Except.ok.inj (hverify.symm.trans h)
  refine ⟨wrappers text, outcome, locateAll_eq w hfit, hverify, ⟨?_, fun h => ?_⟩,
    ⟨?_, fun h => ?_⟩, ⟨?_, fun h => ?_⟩, ⟨?_, fun h => ?_⟩, ⟨?_, fun h => ?_⟩,
    ⟨?_, fun h => ?_⟩, ?_, hashedBytes_of_selects hfit d normalizer⟩
  · rintro rfl
    cases hstage with
    | accepted halg hsound hsel hdig => exact ⟨halg, hsound, hsel, hdig⟩
  · exact hfixed (verify_accepts hfit hasher normalizer h.2.1 h.2.2.1 h.2.2.2)
  · rintro rfl
    cases hstage with
    | unsupported halg => exact halg
  · exact hfixed (verify_unknown hasher normalizer h)
  · rintro rfl
    cases hstage with
    | corrupted halg hsound => exact ⟨halg, hsound⟩
  · exact hfixed (verify_corrupted hfit hasher normalizer h.1 h.2)
  · rintro rfl
    cases hstage with
    | multiple halg hsound hmany => exact ⟨halg, hsound, hmany⟩
  · exact hfixed (verify_multiple hfit hasher normalizer h.1 h.2.1 h.2.2)
  · rintro rfl
    cases hstage with
    | malformed halg hsound hfew hsel => exact ⟨halg, hsound, hfew, hsel⟩
  · exact hfixed (verify_malformed hfit hasher normalizer h.1 h.2.1 h.2.2.1 h.2.2.2)
  · rintro rfl
    cases hstage with
    | mismatch halg hsound hsel hdig => exact ⟨halg, hsound, hsel, hdig⟩
  · exact hfixed (verify_mismatch hfit hasher normalizer h.1 h.2.1 h.2.2.1 h.2.2.2)
  · rintro e rfl
    cases hstage <;> simp

end Judge

theorem verifyDataHash_judges_twice :
    ∃ ws outcome, locateAll .w32 ('é' :: carrier [7] []) = .ok ws ∧
      verifyDataHash .w32 ('é' :: carrier [7] []) ⟨[⟨2, 52⟩, ⟨2, 52⟩], "sha256", [], [], none⟩
        ⟨fun _ bytes => bytes⟩ ⟨id⟩ = .ok outcome ∧
      Judges .w32 ('é' :: carrier [7] []) ⟨[⟨2, 52⟩, ⟨2, 52⟩], "sha256", [], [], none⟩
        ⟨fun _ bytes => bytes⟩ ⟨id⟩ ws outcome :=
  verifyDataHash_judges (by decide) _ _ _

end UnstructuredText
