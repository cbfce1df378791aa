import UnstructuredText.Source.ChecksumV2Defs
import UnstructuredText.Frame.Extract

/-! The version 2 scans. A run decodes when it holds a version 2 frame, four more bytes,
and those bytes are the truncated digest of the frame. The verdicts of the version 2
extractors are read off the candidates, as for version 1. -/

namespace UnstructuredText.V2
open Machine Sized MarkedRuns

/-- Every digest is long enough to be truncated. -/
def LongDigests (hasher : Hasher) : Prop :=
  ∀ alg bytes, checksumLen ≤ (hasher.digest alg bytes).length

variable (hasher : Hasher)

def checksum (bytes : List UInt8) : List UInt8 :=
  (hasher.digest .sha256 bytes).take checksumLen

def Checks (run : List UInt8) : Prop :=
  (run.drop (headerLen + declared run)).take checksumLen =
    checksum hasher (run.take (headerLen + declared run))

instance (run : List UInt8) : Decidable (Checks hasher run) :=
  inferInstanceAs (Decidable (_ = _))

def IsValid (r : Run UInt8) : Prop :=
  Complete version checksumLen r.items ∧ Checks hasher r.items

instance (r : Run UInt8) : Decidable (IsValid hasher r) := inferInstanceAs (Decidable (_ ∧ _))

def toWrapper (r : Run UInt8) : Wrapper := ⟨body r.items, version, r.start, r.length⟩

def wrapperOf (r : Run UInt8) : Option Wrapper :=
  if IsCandidate r ∧ IsValid hasher r then some (toWrapper r) else none

def wrappers (text : Text) : List Wrapper := (runs text).filterMap (wrapperOf hasher)

theorem checks_header {v : UInt8} {n : UInt32} {rest : List UInt8} :
    Checks hasher (header v n rest) ↔ (rest.drop n.toNat).take checksumLen =
      checksum hasher (header v n (rest.take n.toNat)) := by
  rw [Checks, declared_header, header_take, header_drop]

theorem isValid_header {v : UInt8} {n : UInt32} {rest : List UInt8} {start length : ℕ} :
    IsValid hasher ⟨header v n rest, start, length⟩ ↔
      (v = version ∧ n.toNat + checksumLen ≤ rest.length) ∧
        (rest.drop n.toNat).take checksumLen =
          checksum hasher (header v n (rest.take n.toNat)) := by
  rw [IsValid, complete_header, checks_header]

variable {hasher} (hlong : LongDigests hasher)
include hlong

theorem slice_digest (bytes : List UInt8) :
    slice (hasher.digest .sha256 bytes) 0 checksumLen = .ok (checksum hasher bytes) :=
  slice_zero_ok (hlong _ bytes)

theorem decode_header {w : PtrWidth} {v : UInt8} {n : UInt32} {rest : List UInt8}
    (hstop : headerLen + n.toNat + checksumLen ≤ w.usizeMax) (start length : ℕ) :
    decode w (header v n rest) start length hasher =
      .ok (wrapperOf hasher ⟨header v n rest, start, length⟩) := by
  have hcand : IsCandidate ⟨header v n rest, start, length⟩ := magic_prefix_header v n rest
  have hlen := header_length v n rest
  have hbody := add_ok hstop
  rw [decode, frameBounds_header, checkedAdd_some (Nat.le_of_add_right_le hstop), Option.map_some,
    ok_bind]
  dsimp only
  rw [index_ok (header_version v n rest), ok_bind, wrapperOf]
  by_cases hv : v = version
  swap
  · rw [if_pos hv, if_neg fun h => hv ((isValid_header hasher).mp h.2).1.1]
    rfl
  rw [if_neg (not_not.mpr hv), hbody, ok_bind]
  -- the run may end before the declared body or before the checksum behind it
  rcases Nat.lt_or_ge rest.length (n.toNat + checksumLen) with hshort | hroom
  · rw [if_pos (by omega), if_neg fun h => Nat.not_le.mpr hshort ((isValid_header hasher).mp h.2).1.2]
    rfl
  have hframe : slice (header v n rest) 0 (headerLen + n.toNat) =
      .ok (header v n (rest.take n.toNat)) := by
    rw [slice_zero_ok (by omega), header_take]
  have hfound : slice (header v n rest) (headerLen + n.toNat) (headerLen + n.toNat + checksumLen) =
      .ok ((rest.drop n.toNat).take checksumLen) := by
    rw [slice_ok (Nat.le_add_right _ _) (by omega), Nat.add_assoc, header_take, header_drop,
      List.drop_take, Nat.add_sub_cancel_left]
  have hpayload : slice (header v n rest) headerLen (headerLen + n.toNat) =
      .ok (body (header v n rest)) := by
    rw [slice_ok (Nat.le_add_right _ _) (by omega), body, declared_header]
  rw [if_neg (by omega), hframe, ok_bind, ok_bind, hfound, ok_bind, slice_digest hlong, ok_bind]
  by_cases hsum : (rest.drop n.toNat).take checksumLen =
      checksum hasher (header v n (rest.take n.toNat))
  · rw [if_neg (not_not.mpr hsum), hpayload,
      if_pos ⟨hcand, (isValid_header hasher).mpr ⟨⟨hv, hroom⟩, hsum⟩⟩]
    rfl
  · rw [if_pos hsum, if_neg fun h => hsum ((isValid_header hasher).mp h.2).2]
    rfl

theorem decode_eq (run : List UInt8) (start length : ℕ) :
    decode .w64 run start length hasher = .ok (wrapperOf hasher ⟨run, start, length⟩) := by
  by_cases h : magic <+: run ∧ headerLen ≤ run.length
  · obtain ⟨v, n, rest, rfl⟩ := exists_header h.1 h.2
    have hn := n.toNat_lt
    refine decode_header hlong ?_ start length
    unfold headerLen checksumLen
    change _ ≤ 2 ^ 64 - 1
    omega
  · rw [decode, frameBounds_none .w64 h, ok_bind, wrapperOf,
      if_neg fun hc => h ⟨hc.1, hc.2.1.1⟩]
    rfl

theorem locateAll_eq {text : Text} (hfit : Fits .w64 text) :
    locateAll .w64 text hasher = .ok (wrappers hasher text) :=
  scan_found .w64 hfit fun r _ => decode_eq hlong r.items r.start r.length

end UnstructuredText.V2
