import UnstructuredText.Lib.Refine
import UnstructuredText.Binding.Strip
import UnstructuredText.Binding.Verify
import UnstructuredText.Checksum.Overflow
import UnstructuredText.Checksum.Grammar

/-! Two pointer widths. The crate ships for 32-bit and for 64-bit addresses. On a text that
a 32-bit machine can hold, the scans and the binding give on it what they give on a 64-bit
machine; the encoders and the version 2 parser give the same or fault. -/

namespace UnstructuredText
open Machine Sized MarkedRuns

theorem usizeMax_le : PtrWidth.w32.usizeMax ≤ PtrWidth.w64.usizeMax := by decide

theorem Fits.widen {text : Text} (h : Fits .w32 text) : Fits .w64 text :=
  Nat.le_trans h (by decide)

section Encoders

theorem carry_refines (framed : List UInt8) : Refines (carry .w32 framed) (carry .w64 framed) := by
  unfold carry
  apply (mul_refines usizeMax_le _ _).bind
  intro n _
  apply (add_refines usizeMax_le _ _).bind
  intro capacity _
  exact (reserve_refines usizeMax_le _).bind_right _

theorem encodeWithPadding_refines (payload pad : List UInt8) :
    Refines (encodeWithPadding .w32 payload pad) (encodeWithPadding .w64 payload pad) := by
  unfold encodeWithPadding
  cases u32TryFrom payload.length with
  | none => exact Refines.refl
  | some len =>
    apply (add_refines usizeMax_le _ _).bind
    intro n _
    apply (add_refines usizeMax_le _ _).bind
    intro capacity _
    apply (reserve_refines usizeMax_le _).bind
    intro _ _
    exact (carry_refines _).bind_right _

theorem encode_refines (payload : List UInt8) :
    Refines (encode .w32 payload) (encode .w64 payload) :=
  encodeWithPadding_refines payload []

theorem embed_refines (text : Text) (payload : List UInt8) :
    Refines (embed .w32 text payload) (embed .w64 text payload) :=
  (encode_refines payload).bind_right _

theorem targetLength_refines (n : ℕ) : Refines (targetLength .w32 n) (targetLength .w64 n) := by
  unfold targetLength
  apply (add_refines usizeMax_le _ _).bind
  intro a _
  apply (mul_refines usizeMax_le _ _).bind
  intro framed _
  apply (add_refines usizeMax_le _ _).bind
  intro b _
  exact add_refines usizeMax_le _ _

theorem padding_refines (gap : ℕ) : Refines (padding .w32 gap) (padding .w64 gap) := by
  unfold padding
  apply Refines.ite
  · exact fun _ => Refines.refl
  · intro _
    apply (mul_refines usizeMax_le _ _).bind
    intro four _
    apply Refines.ite
    · exact fun _ => Refines.refl
    · intro _
      exact (mul_refines usizeMax_le _ _).bind_right _

theorem encodePadded_refines (payload : List UInt8) :
    Refines (encodePadded .w32 payload) (encodePadded .w64 payload) := by
  unfold encodePadded
  apply (targetLength_refines _).bind
  intro target _
  apply (encode_refines _).bind
  intro base _
  cases base with
  | error e => exact Refines.refl
  | ok base =>
    dsimp only
    cases checkedSub target (strLen base) with
    | none => exact Refines.refl
    | some gap =>
      apply (padding_refines gap).bind
      intro pad _
      cases pad with
      | error e => exact Refines.refl
      | ok pad => exact encodeWithPadding_refines payload pad

end Encoders

section Scans
variable {text : Text} (hfit : Fits .w32 text)
include hfit

theorem locateAll_widths : locateAll .w64 text = locateAll .w32 text := by
  rw [locateAll_eq .w64 hfit.widen, locateAll_eq .w32 hfit]

theorem hasCandidate_widths : hasCandidate .w64 text = hasCandidate .w32 text := by
  rw [hasCandidate_eq .w64 hfit.widen, hasCandidate_eq .w32 hfit]

theorem hasCorruptedCandidate_widths :
    hasCorruptedCandidate .w64 text = hasCorruptedCandidate .w32 text := by
  rw [hasCorruptedCandidate_eq .w64 hfit.widen, hasCorruptedCandidate_eq .w32 hfit]

theorem extract_widths : extract .w64 text = extract .w32 text := by
  rw [extract_eq .w64 hfit.widen, extract_eq .w32 hfit]

theorem applyExclusionsLoop_widths (cursor : ℕ) (out : Text) (exclusions : List Exclusion) :
    applyExclusionsLoop .w64 text cursor out exclusions =
      applyExclusionsLoop .w32 text cursor out exclusions := by
  induction exclusions generalizing cursor out with
  | nil => rfl
  | cons ex exclusions ih =>
    rw [applyExclusionsLoop, applyExclusionsLoop]
    rcases Nat.lt_or_ge PtrWidth.w32.usizeMax (ex.start + ex.length) with hfar | hnear
    · have hmax := hfit.lt_usizeMax
      have hnone : ex.stop .w32 = none := checkedAdd_none hfar
      rw [hnone]
      cases hstop : ex.stop .w64 with
      | none => rfl
      | some stop =>
        have hbehind : ex.start < cursor ∨ stop > strLen text := by
          rw [Exclusion.stop, checkedAdd] at hstop
          split_ifs at hstop
          obtain rfl := Option.some.inj hstop
          exact .inr (Nat.lt_trans hmax hfar)
        dsimp only
        rw [if_pos hbehind]
    · have hnarrow : ex.stop .w32 = some (ex.start + ex.length) := checkedAdd_some hnear
      have hwide : ex.stop .w64 = some (ex.start + ex.length) :=
        checkedAdd_some (Nat.le_trans hnear usizeMax_le)
      rw [hnarrow, hwide]
      dsimp only
      simp only [ih]

theorem hashedBytes_widths (exclusions : List Exclusion) (normalizer : Normalizer) :
    hashedBytes .w64 text exclusions normalizer = hashedBytes .w32 text exclusions normalizer := by
  unfold hashedBytes applyExclusions
  rw [applyExclusionsLoop_widths hfit]

theorem computeDataHash_widths (alg : Algorithm) (hasher : Hasher) (normalizer : Normalizer) :
    computeDataHash .w64 text alg hasher normalizer =
      computeDataHash .w32 text alg hasher normalizer := by
  unfold computeDataHash manifestExclusion
  simp only [extract_widths hfit, hashedBytes_widths hfit]

theorem verifyDataHash_widths (d : DataHash) (hasher : Hasher) (normalizer : Normalizer) :
    verifyDataHash .w64 text d hasher normalizer =
      verifyDataHash .w32 text d hasher normalizer := by
  unfold verifyDataHash
  simp only [locateAll_widths hfit, hasCorruptedCandidate_widths hfit, hashedBytes_widths hfit]

end Scans

namespace V2
variable {hasher : Hasher}

theorem framed_refines (payload : List UInt8) :
    Refines (framed .w32 payload hasher) (framed .w64 payload hasher) := by
  unfold framed
  cases u32TryFrom payload.length with
  | none => exact Refines.refl
  | some len =>
    apply (add_refines usizeMax_le _ _).bind
    intro n _
    apply (add_refines usizeMax_le _ _).bind
    intro capacity _
    exact (reserve_refines usizeMax_le _).bind_right _

theorem encode_refines (payload : List UInt8) :
    Refines (encode .w32 payload hasher) (encode .w64 payload hasher) := by
  unfold encode
  apply (framed_refines payload).bind
  intro v _
  cases v with
  | error e => exact Refines.refl
  | ok v => exact (carry_refines v).bind_right _

theorem embed_refines (text : Text) (payload : List UInt8) :
    Refines (embed .w32 text payload hasher) (embed .w64 text payload hasher) :=
  (encode_refines payload).bind_right _

section Parser
variable (hlong : LongDigests hasher)
include hlong

theorem decode_refines {run : List UInt8} (hlen : run.length ≤ PtrWidth.w32.usizeMax)
    (start length : ℕ) :
    Refines (decode .w32 run start length hasher) (decode .w64 run start length hasher) := by
  by_cases hhead : magic <+: run ∧ headerLen ≤ run.length
  swap
  · rw [decode, decode, frameBounds_none .w32 hhead, frameBounds_none .w64 hhead]
    exact Refines.refl
  obtain ⟨v, n, rest, rfl⟩ := exists_header hhead.1 hhead.2
  rcases Nat.lt_or_ge PtrWidth.w32.usizeMax (headerLen + n.toNat + checksumLen) with hfar | hnear
  · by_cases hover : Overflows .w32 (header v n rest)
    · rw [decode_overflow hover]
      exact refines_error _ _
    · -- the run is too short for what it declares, which the wider machine notices
      obtain ⟨result, hok, hrejects⟩ :=
        decode_rejects hlong (not_overflows_w64 (header v n rest)) start length
      have hshort : (header v n rest).length <
          headerLen + declared (header v n rest) + checksumLen := by
        rw [declared_header]
        exact Nat.lt_of_le_of_lt hlen hfar
      rw [decode_beyond hfar hover, hok, hrejects hshort]
      exact Refines.refl
  · rw [decode_header hlong hnear, decode_header hlong (Nat.le_trans hnear usizeMax_le)]
    exact Refines.refl

variable {text : Text} (hfit : Fits .w32 text)
include hfit

theorem locateAll_refines : Refines (locateAll .w32 text hasher) (locateAll .w64 text hasher) := by
  unfold locateAll
  rw [scan_eq .w32 _ hfit, scan_eq .w64 _ hfit.widen]
  apply foldlM_refines
  intro found r hr
  exact (decode_refines hlong (runs_length_le .w32 hfit hr) _ _).bind_right _

theorem extract_refines : Refines (extract .w32 text hasher) (extract .w64 text hasher) := by
  unfold extract
  apply (locateAll_refines hlong hfit).bind
  intro ws _
  rcases ws with _ | ⟨x, _ | ⟨y, ws⟩⟩
  · exact refines_of_eq (congrArg (· >>= _) (hasCandidate_widths hfit).symm)
  · exact Refines.refl
  · exact Refines.refl

theorem extractAny_refines :
    Refines (extractAny .w32 text hasher) (extractAny .w64 text hasher) := by
  unfold extractAny
  rw [extract_widths hfit]
  apply Refines.refl.bind
  intro outcome _
  cases outcome with
  | ok x => exact Refines.refl
  | error v1 => exact (extract_refines hlong hfit).bind_right _

end Parser
end V2

section Ends
variable {w : PtrWidth} {text : Text} (hfit : Fits w text)
include hfit

theorem applyExclusions_ends (exclusions : List Exclusion) :
    Ends (applyExclusions w text exclusions) := by
  have hfrom : Fits w ([] ++ text) := hfit
  rcases applyExclusionsLoop_cases w exclusions hfrom [] with ⟨_, kept, hcarved⟩ | ⟨_, hok⟩
  · exact ⟨_, applyExclusions_carved w hfit hcarved⟩
  · exact ⟨_, hok⟩

theorem hashedBytes_ends (exclusions : List Exclusion) (normalizer : Normalizer) :
    Ends (hashedBytes w text exclusions normalizer) := by
  obtain ⟨outcome, hok⟩ := applyExclusions_ends hfit exclusions
  rw [hashedBytes, hok]
  cases outcome with
  | error e => exact ends_ok _
  | ok kept => exact ends_ok _

theorem computeDataHash_ends (alg : Algorithm) (hasher : Hasher) (normalizer : Normalizer) :
    Ends (computeDataHash w text alg hasher normalizer) := by
  rw [computeDataHash, manifestExclusion, extract_eq w hfit]
  cases verdict (candidates text) with
  | error e => exact ends_ok _
  | ok x =>
    obtain ⟨outcome, hok⟩ := hashedBytes_ends hfit [x.exclusion] normalizer
    change Ends (hashedBytes w text [x.exclusion] normalizer >>= _)
    rw [hok]
    cases outcome with
    | error e => exact ends_ok _
    | ok covered => exact ends_ok _

end Ends

structure Ports (text : Text) (hasher : Hasher) : Prop where
  located : Agrees (locateAll · text)
  candidates : Agrees (hasCandidate · text)
  extracted : Agrees (extract · text)
  excluded : ∀ exclusions, Agrees (applyExclusions · text exclusions)
  computed : ∀ alg binder normalizer, Agrees (computeDataHash · text alg binder normalizer)
  verified : ∀ d binder normalizer, Agrees (verifyDataHash · text d binder normalizer)
  checked : Refines (V2.locateAll .w32 text hasher) (V2.locateAll .w64 text hasher) ∧
    Refines (V2.extract .w32 text hasher) (V2.extract .w64 text hasher) ∧
    Refines (V2.extractAny .w32 text hasher) (V2.extractAny .w64 text hasher)
  safe : (∀ c : Candidate text, ¬V2.Overflows .w32 c.bytes) →
    Agrees (V2.locateAll · text hasher) ∧ Agrees (V2.extract · text hasher) ∧
      Agrees (V2.extractAny · text hasher)
  encoded : ∀ payload, Refines (embed .w32 text payload) (embed .w64 text payload) ∧
    Refines (encodePadded .w32 payload) (encodePadded .w64 payload) ∧
    Refines (V2.embed .w32 text payload hasher) (V2.embed .w64 text payload hasher)
  embedded : ∀ payload : List UInt8, payload.length ≤ u32Max →
    (Fits .w32 (text ++ carrier payload []) → Affords text (headerLen + payload.length) →
      Agrees (embed · text payload)) ∧
    (Fits .w32 (text ++ V2.carrier hasher payload []) →
      Affords text (headerLen + payload.length + V2.checksumLen) →
      Agrees (V2.embed · text payload hasher))

/-- A 32-bit build never answers otherwise than a 64-bit build: its scans and its binding give
the same, and only its encoders and its version 2 parser may stop instead. -/
theorem widths_agree {hasher : Hasher} (hlong : V2.LongDigests hasher) {text : Text}
    (hfit : Fits .w32 text) : Ports text hasher where
  located := agrees_of_eq (locateAll_widths hfit) ⟨_, locateAll_eq .w32 hfit⟩
  candidates := agrees_of_eq (hasCandidate_widths hfit) ⟨_, hasCandidate_eq .w32 hfit⟩
  extracted := agrees_of_eq (extract_widths hfit) ⟨_, extract_eq .w32 hfit⟩
  excluded exclusions := agrees_of_eq (applyExclusionsLoop_widths hfit 0 [] exclusions)
    (applyExclusions_ends hfit exclusions)
  computed alg binder normalizer := agrees_of_eq (computeDataHash_widths hfit alg binder normalizer)
    (computeDataHash_ends hfit alg binder normalizer)
  verified d binder normalizer := by
    obtain ⟨outcome, hok, _⟩ := verify_stage hfit d binder normalizer
    exact agrees_of_eq (verifyDataHash_widths hfit d binder normalizer) ⟨outcome, hok⟩
  checked := ⟨V2.locateAll_refines hlong hfit, V2.extract_refines hlong hfit,
    V2.extractAny_refines hlong hfit⟩
  safe hover := ⟨agrees_of_refines (V2.locateAll_refines hlong hfit)
      ((V2.locateAll_ends_iff hlong hfit).mpr hover),
    agrees_of_refines (V2.extract_refines hlong hfit) ((V2.extract_ends_iff hlong hfit).mpr hover),
    agrees_of_refines (V2.extractAny_refines hlong hfit)
      ((V2.extractAny_ends_iff hlong hfit).mpr hover)⟩
  encoded payload := ⟨embed_refines text payload, encodePadded_refines payload,
    V2.embed_refines text payload⟩
  embedded payload hlen := by
    constructor
    · intro _ hafford
      exact agrees_of_refines (embed_refines text payload)
        ⟨_, embed_eq .w32 text hlen hafford.carried⟩
    · intro _ hafford
      exact agrees_of_refines (V2.embed_refines text payload)
        ⟨_, V2.embed_eq hlong .w32 text hlen hafford.carried⟩

theorem widths_agree_overflow :
    Ports (marker :: encodeRun (header 2 4294967282 [])) ⟨fun _ _ => [1, 2, 3, 4]⟩ :=
  @widths_agree ⟨fun _ _ => [1, 2, 3, 4]⟩ (fun _ _ => Nat.le_refl 4) _ (by decide)

end UnstructuredText
