import UnstructuredText.Checksum.Grammar

/-! Damaged version 2 carriers. Whatever the bytes of a carrier are changed to, a wrapper is
located in their place only when the checksum of what is read stands behind it: so a cut
is always noticed, and any other damage unless the truncated digests collide. -/

namespace UnstructuredText.V2
open Machine Sized MarkedRuns
variable {hasher : Hasher} (hlong : LongDigests hasher)

def whole (hasher : Hasher) (p : List UInt8) : List UInt8 :=
  checked p ++ checksum hasher (checked p)

theorem whole_eq_frame (p : List UInt8) :
    whole hasher p = frame version p (checksum hasher (checked p)) :=
  checked_append p _

section At
variable {t r : Text} {bytes : List UInt8} (hr : Blunt selectors r)
include hlong hr

theorem mem_wrappers_at_iff {x : Wrapper} :
    x ∈ wrappers hasher (t ++ marker :: encodeRun bytes ++ r) ∧ x.start = strLen t ↔
      ∃ p extra, p.length ≤ u32Max ∧ bytes = whole hasher p ++ extra ∧
        x = ⟨p, version, strLen t, strLen (marker :: encodeRun bytes)⟩ := by
  obtain ⟨c, hbytes, hbefore, hblock⟩ :=
    @exists_cut_of_eq (t ++ marker :: encodeRun bytes ++ r) t r bytes rfl hr
  have hplace : c.start = strLen t := congrArg strLen hbefore
  constructor
  · rintro ⟨hx, hstart⟩
    obtain ⟨c', hc'⟩ := mem_filterMap_runs_iff.mp hx
    obtain ⟨hmagic, hvalid, rfl⟩ := wrapperOf_eq_some_iff.mp hc'
    obtain rfl : c' = c := Cut.ext_of_start (hstart.trans hplace.symm)
    obtain ⟨hlen, extra, hwhole⟩ := (valid_iff_frame hlong).mp ⟨hmagic, hvalid, rfl⟩
    refine ⟨_, extra, hlen, hbytes.symm.trans hwhole, ?_⟩
    rw [toWrapper, hplace, hblock]
  · rintro ⟨p, extra, hlen, hwhole, rfl⟩
    obtain ⟨hmagic, hvalid, hbody⟩ := (@valid_iff_frame hasher hlong (cutBytes c) p c.start
      (strLen c.block)).mpr ⟨hlen, extra, hbytes.trans hwhole⟩
    refine ⟨mem_filterMap_runs_iff.mpr ⟨c, wrapperOf_eq_some_iff.mpr ⟨hmagic, hvalid, ?_⟩⟩, rfl⟩
    rw [toWrapper, hbody, hblock, hplace]

theorem exists_mem_at_iff : (∃ x ∈ wrappers hasher (t ++ marker :: encodeRun bytes ++ r),
      x.start = strLen t) ↔ ∃ p extra, p.length ≤ u32Max ∧ bytes = whole hasher p ++ extra := by
  constructor
  · rintro ⟨x, hx⟩
    obtain ⟨p, extra, hlen, hwhole, _⟩ := (mem_wrappers_at_iff hlong hr).mp hx
    exact ⟨p, extra, hlen, hwhole⟩
  · rintro ⟨p, extra, hlen, hwhole⟩
    exact ⟨_, (mem_wrappers_at_iff hlong hr).mpr ⟨p, extra, hlen, hwhole, rfl⟩⟩

end At

theorem frame_eq_whole {p q trailer extra : List UInt8} (hp : p.length ≤ u32Max)
    (hq : q.length ≤ u32Max) (h : frame version p trailer = whole hasher q ++ extra) :
    q = p ∧ trailer = checksum hasher (checked p) ++ extra := by
  rw [whole, List.append_assoc, checked_append] at h
  have hbody : q = p := by
    rw [← body_frame version (checksum hasher (checked q) ++ extra) hq, ← h,
      body_frame version trailer hp]
  subst hbody
  exact ⟨rfl, List.append_cancel_left h⟩

include hlong in
theorem whole_of_prefix {p q bytes extra : List UInt8} (hp : p.length ≤ u32Max)
    (hq : q.length ≤ u32Max) (hcut : bytes <+: whole hasher p)
    (h : bytes = whole hasher q ++ extra) : q = p ∧ bytes = whole hasher p := by
  have hsum := checksum_length hlong (checked p)
  have htake := List.prefix_iff_eq_take.mp hcut
  have hcomplete : Complete version checksumLen bytes := by
    rw [h, whole, List.append_assoc, checked_append]
    apply complete_frame version hq
    rw [List.length_append, checksum_length hlong]
    exact Nat.le_add_right _ _
  rcases Nat.lt_or_ge bytes.length (headerLen + p.length) with htorn | hlong'
  · rw [htake, whole_eq_frame] at hcomplete
    exact absurd hcomplete (not_complete_take hp htorn)
  · obtain ⟨j, hj⟩ := Nat.exists_eq_add_of_le hlong'
    rw [whole_eq_frame, hj, frame_take] at htake
    obtain ⟨rfl, htrailer⟩ := frame_eq_whole hp hq (htake.symm.trans h)
    refine ⟨rfl, ?_⟩
    -- what is left of the checksum contains all of it
    have hall : (checksum hasher (checked q)).take j = checksum hasher (checked q) := by
      apply List.take_of_length_le
      have hlength := congrArg List.length htrailer
      rw [List.length_take, List.length_append] at hlength
      omega
    rw [htake, hall, whole_eq_frame]

/-- What becomes of a carrier of `p` whose bytes are now `bytes`: the wrappers located in the
text around it, and the verdict on that text. -/
structure Detects (hasher : Hasher) (t : Text) (p bytes : List UInt8) (length : ℕ)
    (ws : List Wrapper) (outcome : Except Error Wrapper) : Prop where
  honest : ∀ x ∈ ws, x.start = strLen t → ∃ extra, bytes = whole hasher x.payload ++ extra
  cut : bytes <+: whole hasher p → ∀ x, x ∈ ws ∧ x.start = strLen t ↔
    bytes = whole hasher p ∧ x = ⟨p, version, strLen t, length⟩
  mangled : ∀ q sum : List UInt8, q.length ≤ u32Max → sum.length = checksumLen →
    bytes = checked q ++ sum →
    ((∃ x ∈ ws, x.start = strLen t) ↔ sum = checksum hasher (checked q))
  reported : magic <+: bytes → ws = [] → outcome = .error .corruptedWrapper

section Reported
variable {t r : Text} {bytes : List UInt8} (hr : Blunt selectors r)
include hr

theorem candidates_at (hmagic : magic <+: bytes) :
    candidates (t ++ marker :: encodeRun bytes ++ r) ≠ [] := by
  obtain ⟨c, hbytes, _⟩ :=
    @exists_cut_of_eq (t ++ marker :: encodeRun bytes ++ r) t r bytes rfl hr
  exact List.ne_nil_of_mem (Candidate.mem ⟨c, hbytes.symm ▸ hmagic⟩)

end Reported

include hlong in
theorem damage_detected {t r : Text} {p bytes : List UInt8} (hp : p.length ≤ u32Max)
    (hr : Blunt selectors r) (hfit : Fits .w64 (t ++ marker :: encodeRun bytes ++ r)) :
    ∃ ws outcome, locateAll .w64 (t ++ marker :: encodeRun bytes ++ r) hasher = .ok ws ∧
      extract .w64 (t ++ marker :: encodeRun bytes ++ r) hasher = .ok outcome ∧
      Detects hasher t p bytes (strLen (marker :: encodeRun bytes)) ws outcome := by
  refine ⟨_, _, locateAll_eq hlong hfit, extract_eq hlong hfit, ?_, ?_, ?_, ?_⟩
  · intro x hx hstart
    obtain ⟨q, extra, _, hwhole, rfl⟩ := (mem_wrappers_at_iff hlong hr).mp ⟨hx, hstart⟩
    exact ⟨extra, hwhole⟩
  · intro hcut x
    rw [mem_wrappers_at_iff hlong hr]
    constructor
    · rintro ⟨q, extra, hq, hwhole, rfl⟩
      obtain ⟨rfl, hbytes⟩ := whole_of_prefix hlong hp hq hcut hwhole
      exact ⟨hbytes, rfl⟩
    · rintro ⟨hbytes, rfl⟩
      exact ⟨p, [], hp, by rw [hbytes, List.append_nil], rfl⟩
  · intro q sum hq hsum hbytes
    rw [exists_mem_at_iff hlong hr]
    constructor
    · rintro ⟨q', extra, hq', hwhole⟩
      rw [hbytes, checked_append] at hwhole
      obtain ⟨rfl, htrailer⟩ := frame_eq_whole hq hq' hwhole
      have hlength := congrArg List.length htrailer
      rw [List.length_append, checksum_length hlong, hsum, Nat.left_eq_add,
        List.length_eq_zero_iff] at hlength
      rw [htrailer, hlength, List.append_nil]
    · rintro rfl
      exact ⟨q, [], hq, by rw [hbytes, List.append_nil]; rfl⟩
  · intro hmagic hnone
    rw [wrappers_eq, List.map_eq_nil_iff, valid_eq_nil_iff] at hnone
    exact verdict_corrupted_iff.mpr ⟨candidates_at hr hmagic, hnone⟩

theorem damage_detected_flipped :
    ∃ ws outcome,
      locateAll .w64 (['a'] ++ marker :: encodeRun (checked [8] ++ [7, 1, 0, 0]) ++ ['b'])
        ⟨fun _ bytes => bytes.reverse ++ [1, 2, 3, 4]⟩ = .ok ws ∧
      extract .w64 (['a'] ++ marker :: encodeRun (checked [8] ++ [7, 1, 0, 0]) ++ ['b'])
        ⟨fun _ bytes => bytes.reverse ++ [1, 2, 3, 4]⟩ = .ok outcome ∧
      Detects ⟨fun _ bytes => bytes.reverse ++ [1, 2, 3, 4]⟩ ['a'] [7]
        (checked [8] ++ [7, 1, 0, 0])
        (strLen (marker :: encodeRun (checked [8] ++ [7, 1, 0, 0]))) ws outcome :=
  @damage_detected ⟨fun _ bytes => bytes.reverse ++ [1, 2, 3, 4]⟩
    (fun _ bytes => by rw [List.length_append]; exact Nat.le_add_left 4 _) _ _ _ _ (by decide)
    (blunt_cons selectors (by decide) []) (by decide)

end UnstructuredText.V2
