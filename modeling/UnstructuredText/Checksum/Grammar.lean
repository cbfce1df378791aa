import UnstructuredText.Checksum.Verdict
import UnstructuredText.Frame.Embed

/-! What `locateAll` reports is exactly the grammar of version 2 wrappers: a marker, the
selectors of a frame, its checksum and any further bytes, and then no further selector.
A run reads as at most one version, and an embedded wrapper is extracted again. -/

namespace UnstructuredText.V2
open Machine Sized MarkedRuns
variable (hasher : Hasher)

def checked (payload : List UInt8) : List UInt8 := frame version payload []

def carrier (payload extra : List UInt8) : Text :=
  marker :: encodeRun (checked payload ++ checksum hasher (checked payload) ++ extra)

/-- `text` cut as `a ++ m ++ b` around a version 2 wrapper `m` of the payload `p`. -/
structure FrameCut (text : Text) (p : List UInt8) (a m b : Text) : Prop where
  eq : text = a ++ m ++ b
  length_le : p.length ≤ u32Max
  carries : ∃ extra, m = carrier hasher p extra
  blunt : Blunt selectors b

structure Reports (text : Text) (ws : List Wrapper) : Prop where
  version_eq : ∀ x ∈ ws, x.version = 2
  mem_iff : ∀ p start length, (⟨p, 2, start, length⟩ : Wrapper) ∈ ws ↔
    ∃ a m b, FrameCut hasher text p a m b ∧ start = strLen a ∧ length = strLen m
  once : ∀ p a m b, FrameCut hasher text p a m b → ws.count ⟨p, 2, strLen a, strLen m⟩ = 1
  increasing : ws.Pairwise fun x y => x.start < y.start

theorem checked_append (payload trailer : List UInt8) :
    checked payload ++ trailer = frame version payload trailer := by
  rw [checked, frame, frame, List.append_nil]

variable {hasher}

theorem checks_frame {payload trailer : List UInt8} (hlen : payload.length ≤ u32Max) :
    Checks hasher (frame version payload trailer) ↔
      trailer.take checksumLen = checksum hasher (checked payload) := by
  have htake : header version (UInt32.ofNat payload.length) payload = checked payload := by
    rw [checked, frame_eq_header, List.append_nil]
  rw [frame_eq_header, checks_header, toNat_of_le_u32Max hlen, List.drop_left, List.take_left, htake]

section Long
variable (hlong : LongDigests hasher)

include hlong in
theorem checksum_length (bytes : List UInt8) : (checksum hasher bytes).length = checksumLen :=
  List.length_take_of_le (hlong _ bytes)

include hlong in
theorem valid_iff_frame {run payload : List UInt8} {start length : ℕ} :
    (magic <+: run ∧ IsValid hasher ⟨run, start, length⟩ ∧ body run = payload) ↔
      payload.length ≤ u32Max ∧
        ∃ extra, run = checked payload ++ checksum hasher (checked payload) ++ extra := by
  constructor
  · rintro ⟨hmagic, ⟨hcomplete, hsum⟩, hbody⟩
    obtain ⟨hlen, trailer, _, rfl⟩ := complete_iff_frame.mp ⟨hmagic, hcomplete, hbody⟩
    refine ⟨hlen, trailer.drop checksumLen, ?_⟩
    rw [← (checks_frame hlen).mp hsum, List.append_assoc, List.take_append_drop, checked_append]
  · rintro ⟨hlen, extra, rfl⟩
    have hsum := checksum_length hlong (checked payload)
    rw [List.append_assoc, checked_append]
    obtain ⟨hmagic, hcomplete, hbody⟩ := (@complete_iff_frame version checksumLen _ payload).mpr
      ⟨hlen, checksum hasher (checked payload) ++ extra, by rw [List.length_append]; omega, rfl⟩
    refine ⟨hmagic, ⟨hcomplete, (checks_frame hlen).mpr ?_⟩, hbody⟩
    rw [← hsum, List.take_left]

variable {text : Text}

theorem wrapperOf_eq_some_iff {r : Run UInt8} {x : Wrapper} :
    wrapperOf hasher r = some x ↔ IsCandidate r ∧ IsValid hasher r ∧ x = toWrapper r := by
  rw [wrapperOf, Option.ite_none_right_eq_some, Option.some_inj, and_assoc, @eq_comm _ x]

theorem valid_singleton {r : Run UInt8} (h : IsValid hasher r) : valid hasher [r] = [r] := by
  rw [valid, List.filter_singleton, decide_eq_true h]
  rfl

theorem placed_wrapperOf : Placed (wrapperOf hasher) := by
  intro r x h
  obtain ⟨_, _, rfl⟩ := wrapperOf_eq_some_iff.mp h
  exact ⟨rfl, rfl⟩

theorem wrappers_apart {x y : Wrapper} (hx : x ∈ UnstructuredText.wrappers text)
    (hy : y ∈ wrappers hasher text) : x.start ≠ y.start := by
  intro hstart
  obtain ⟨c, hc⟩ := mem_filterMap_runs_iff.mp hx
  obtain ⟨c', hc'⟩ := mem_filterMap_runs_iff.mp hy
  obtain ⟨_, hv1, rfl⟩ := UnstructuredText.wrapperOf_eq_some_iff.mp hc
  obtain ⟨_, hv2, rfl⟩ := wrapperOf_eq_some_iff.mp hc'
  obtain rfl : c = c' := Cut.ext_of_start hstart
  exact not_isValid_of_v1 hv1 hv2

include hlong

theorem FrameCut.mem_wrappers {p : List UInt8} {a m b : Text}
    (h : FrameCut hasher text p a m b) :
    ⟨p, version, strLen a, strLen m⟩ ∈ wrappers hasher text := by
  obtain ⟨extra, rfl⟩ := h.carries
  obtain ⟨c, hbytes, rfl, hblock⟩ := exists_cut_of_eq h.eq h.blunt
  have hframe : ∃ extra, cutBytes c = checked p ++ checksum hasher (checked p) ++ extra :=
    ⟨extra, hbytes⟩
  obtain ⟨hmagic, hvalid, hbody⟩ := (valid_iff_frame hlong).mpr ⟨h.length_le, hframe⟩
  refine mem_filterMap_runs_iff.mpr ⟨c, wrapperOf_eq_some_iff.mpr ⟨hmagic, hvalid, ?_⟩⟩
  rw [toWrapper, hbody, hblock]
  rfl

theorem exists_frameCut {x : Wrapper} (h : x ∈ wrappers hasher text) :
    x.version = version ∧ ∃ a m b, FrameCut hasher text x.payload a m b ∧
      x.start = strLen a ∧ x.length = strLen m := by
  obtain ⟨c, hx⟩ := mem_filterMap_runs_iff.mp h
  obtain ⟨hmagic, hvalid, rfl⟩ := wrapperOf_eq_some_iff.mp hx
  obtain ⟨hlen, extra, hframe⟩ := (valid_iff_frame hlong).mp ⟨hmagic, hvalid, rfl⟩
  have hblock : c.block = carrier hasher (body (cutBytes c)) extra := by
    rw [carrier, ← hframe, block_eq]
  exact ⟨rfl, c.before, c.block, c.after, ⟨c.eq_block, hlen, ⟨extra, hblock⟩, c.blunt⟩, rfl, rfl⟩

theorem wrappers_reports (text : Text) : Reports hasher text (wrappers hasher text) where
  version_eq _ hx := (exists_frameCut hlong hx).1
  mem_iff p start length := by
    constructor
    · intro h
      obtain ⟨_, a, m, b, hcut, hstart, hlength⟩ := exists_frameCut hlong h
      exact ⟨a, m, b, hcut, hstart, hlength⟩
    · rintro ⟨a, m, b, hcut, rfl, rfl⟩
      exact hcut.mem_wrappers hlong
  once _ _ _ _ h :=
    List.count_eq_one_of_mem (placed_wrapperOf.nodup text) (h.mem_wrappers hlong)
  increasing := placed_wrapperOf.increasing text

theorem framed_length (payload : List UInt8) :
    (checked payload ++ checksum hasher (checked payload)).length =
      headerLen + payload.length + checksumLen := by
  rw [checked_append, frame_length, checksum_length hlong]

theorem framed_eq (w : PtrWidth) {payload : List UInt8} (hlen : payload.length ≤ u32Max)
    (hroom : Reserves w (headerLen + payload.length + checksumLen)) :
    framed w payload hasher = .ok (.ok (checked payload ++ checksum hasher (checked payload))) := by
  have hsum := slice_digest hlong (checked payload)
  have hmax := w.two_mul_isizeMax
  unfold Reserves at hroom
  rw [framed, u32TryFrom_some hlen]
  simp only
  rw [add_ok (by omega), ok_bind, add_ok (by omega), ok_bind, reserve_ok (by omega), ok_bind]
  rw [checked, frame, List.append_nil] at hsum ⊢
  rw [hsum]
  rfl

theorem encode_eq (w : PtrWidth) {payload : List UInt8} (hlen : payload.length ≤ u32Max)
    (hroom : Reserves w (headerLen + payload.length + checksumLen)) :
    encode w payload hasher = .ok (.ok (carrier hasher payload [])) := by
  have hcarry : carry w (checked payload ++ checksum hasher (checked payload)) =
      .ok (marker :: encodeRun (checked payload ++ checksum hasher (checked payload))) :=
    carry_eq w (by rwa [framed_length hlong])
  rw [encode, framed_eq hlong w hlen hroom, ok_bind]
  simp only
  rw [hcarry, carrier, List.append_nil]
  rfl

theorem embed_eq (w : PtrWidth) (text : Text) {payload : List UInt8}
    (hlen : payload.length ≤ u32Max)
    (hroom : Reserves w (headerLen + payload.length + checksumLen)) :
    embed w text payload hasher = .ok (.ok (text ++ carrier hasher payload [])) := by
  rw [embed, encode_eq hlong w hlen hroom]
  rfl

omit hlong in
theorem framed_le {payload : List UInt8} (hlen : payload.length ≤ u32Max) :
    headerLen + payload.length + checksumLen ≤ 2 * u32Max := by
  unfold headerLen checksumLen
  unfold u32Max at hlen ⊢
  omega

theorem extract_carrier {payload : List UInt8} (hlen : payload.length ≤ u32Max)
    (hhost : IsEmpty (Candidate text)) (hfit : Fits .w64 (text ++ carrier hasher payload [])) :
    extract .w64 (text ++ carrier hasher payload []) hasher =
      .ok (.ok ⟨payload, version, strLen text, strLen (carrier hasher payload [])⟩) := by
  obtain ⟨hmagic, hvalid, hbody⟩ := (@valid_iff_frame hasher hlong _ payload (strLen text)
    (strLen (carrier hasher payload []))).mpr ⟨hlen, [], rfl⟩
  have hcands : candidates (text ++ carrier hasher payload []) =
      [⟨checked payload ++ checksum hasher (checked payload) ++ [], strLen text,
        strLen (carrier hasher payload [])⟩] := by
    have h := candidates_append_encoded text hmagic
    rwa [candidates_eq_nil_iff.mpr hhost] at h
  rw [extract_eq hlong hfit, hcands, Except.ok.injEq, verdict_ok_iff]
  refine ⟨_, valid_singleton hvalid, ?_⟩
  rw [toWrapper, hbody]

omit hlong in
structure Exact (hasher : Hasher) : Prop where
  reports : ∀ text, Fits .w64 text →
    ∃ ws, locateAll .w64 text hasher = .ok ws ∧ Reports hasher text ws
  embeds : ∀ text payload, payload.length ≤ u32Max → IsEmpty (Candidate text) →
    Fits .w64 (text ++ carrier hasher payload []) →
    ∃ asset x range, embed .w64 text payload hasher = .ok (.ok asset) ∧
      extract .w64 asset hasher = .ok (.ok x) ∧ x.payload = payload ∧ x.version = 2 ∧
      x.range .w64 = .ok range ∧ strip asset range = .ok (.ok text)
  apart : ∀ text, Fits .w64 text → ∀ ws ws2, UnstructuredText.locateAll .w64 text = .ok ws →
    locateAll .w64 text hasher = .ok ws2 → ∀ x ∈ ws, ∀ y ∈ ws2, x.start ≠ y.start

theorem grammar_exact : Exact hasher where
  reports text hfit := ⟨_, locateAll_eq hlong hfit, wrappers_reports hlong text⟩
  embeds text payload hlen hhost hfit := by
    obtain ⟨range, hrange, hstrip⟩ := @strip_last .w64 text (carrier hasher payload [])
      ⟨payload, version, strLen text, strLen (carrier hasher payload [])⟩ hfit rfl rfl
    have hembed := embed_eq hlong .w64 text hlen (reserves_w64 (framed_le hlen))
    exact ⟨_, _, range, hembed, extract_carrier hlong hlen hhost hfit, rfl, rfl, hrange, hstrip⟩
  apart text hfit ws ws2 hws hws2 x hx y hy := by
    rw [UnstructuredText.locateAll_eq .w64 hfit] at hws
    rw [locateAll_eq hlong hfit] at hws2
    exact wrappers_apart (Except.ok.inj hws ▸ hx) (Except.ok.inj hws2 ▸ hy)

end Long

theorem grammar_exact_const : Exact ⟨fun _ _ => [1, 2, 3, 4]⟩ :=
  grammar_exact fun _ _ => Nat.le_refl 4

end UnstructuredText.V2
