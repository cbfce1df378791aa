import UnstructuredText.Frame.Padding

/-! Carriers cut short or interrupted. The run at the marker of the carrier is the part
of its frame that is left, whatever text comes before and after, so it is the whole
wrapper, a corrupted candidate, or no candidate at all. -/

namespace UnstructuredText
open Machine Sized MarkedRuns
variable {w : PtrWidth} {payload : List UInt8} {c : Text}

theorem eq_of_carry {framed : List UInt8} (h : carry w framed = .ok c) :
    c = marker :: encodeRun framed := by
  simp only [carry, bind_eq_ok_iff] at h
  obtain ⟨_, _, _, _, _, _, h⟩ := h
  exact (Except.ok.inj h).symm

theorem eq_of_encodeWithPadding {pad : List UInt8}
    (h : encodeWithPadding w payload pad = .ok (.ok c)) :
    payload.length ≤ u32Max ∧ c = carrier payload pad := by
  unfold encodeWithPadding u32TryFrom at h
  split_ifs at h with hlen
  · simp only [bind_eq_ok_iff] at h
    obtain ⟨_, _, _, _, _, _, c', hcarry, h⟩ := h
    obtain rfl : c' = c := Except.ok.inj (Except.ok.inj h)
    exact ⟨hlen, eq_of_carry hcarry⟩
  · cases h

theorem eq_of_encodePadded (h : encodePadded w payload = .ok (.ok c)) :
    payload.length ≤ u32Max ∧ ∃ pad, c = carrier payload pad := by
  rw [encodePadded, bind_eq_ok_iff] at h
  obtain ⟨target, _, h⟩ := h
  rw [bind_eq_ok_iff] at h
  obtain ⟨base | base, _, h⟩ := h
  · cases h
  dsimp only at h
  split at h
  · cases h
  rw [bind_eq_ok_iff] at h
  obtain ⟨pad | pad, _, h⟩ := h
  · cases h
  · obtain ⟨hlen, rfl⟩ := eq_of_encodeWithPadding h
    exact ⟨hlen, pad, rfl⟩

theorem eq_encodeRun_take {s : Text} {pad : List UInt8} (h : marker :: s <+: carrier payload pad) :
    s = encodeRun ((frame version payload pad).take s.length) := by
  have hs : s <+: encodeRun (frame version payload pad) := (List.cons_prefix_cons.mp h).2
  rw [encodeRun, List.map_take]
  exact List.prefix_iff_eq_take.mp hs

/-- What becomes of a carrier of `p` behind `t` of which the marker and `k` selectors are
left, in all `length` bytes: the verdict on the text and the wrappers located in it. -/
structure FailsSafe (t : Text) (p : List UInt8) (k length : ℕ) (outcome : Except Error Wrapper)
    (ws : List Wrapper) : Prop where
  torn : 8 ≤ k → k < 13 + p.length → outcome = .error .corruptedWrapper
  whole : 13 + p.length ≤ k → ∀ x, x ∈ ws ∧ x.start = strLen t ↔ x = ⟨p, 1, strLen t, length⟩
  bare : k < 8 → ∀ x ∈ ws, x.start ≠ strLen t
  payload_eq : ∀ x ∈ ws, x.start = strLen t → x.payload = p

section Left
variable {t s r : Text} {pad : List UInt8} (hleft : marker :: s <+: carrier payload pad)
  (hr : Blunt selectors r)
include hleft hr

theorem exists_left_cut : ∃ c : Cut selectors (t ++ marker :: s ++ r),
    cutBytes c = (frame version payload pad).take s.length ∧ c.before = t ∧
      c.block = marker :: s := by
  have hs := eq_encodeRun_take hleft
  obtain ⟨c, hbytes, hbefore, hblock⟩ := @exists_cut_of_eq (t ++ marker :: s ++ r) t r
    ((frame version payload pad).take s.length) (by rw [← hs]) hr
  exact ⟨c, hbytes, hbefore, by rw [hblock, ← hs]⟩

variable (hlen : payload.length ≤ u32Max)
include hlen

theorem verdict_left_torn (hmagic : 8 ≤ s.length) (htorn : s.length < headerLen + payload.length) :
    verdict (candidates (t ++ marker :: s ++ r)) = .error .corruptedWrapper := by
  obtain ⟨c, hbytes, -, -⟩ := @exists_left_cut _ t _ _ _ hleft hr
  have hbears : magic <+: cutBytes c := by
    rw [hbytes, List.prefix_take_iff, frame_eq_header]
    exact ⟨magic_prefix_header .., hmagic⟩
  have hbad : ¬IsValid (Candidate.asRun ⟨c, hbears⟩) := by
    change ¬Complete version 0 (cutBytes c)
    rw [hbytes]
    exact not_complete_take hlen htorn
  exact verdict_corrupted ⟨_, Candidate.mem ⟨c, hbears⟩, hbad⟩

theorem mem_wrappers_left_iff {x : Wrapper} :
    x ∈ wrappers (t ++ marker :: s ++ r) ∧ x.start = strLen t ↔
      headerLen + payload.length ≤ s.length ∧
        x = ⟨payload, version, strLen t, strLen (marker :: s)⟩ := by
  obtain ⟨c, hbytes, hbefore, hblock⟩ := @exists_left_cut _ t _ _ _ hleft hr
  have hplace : c.start = strLen t := congrArg strLen hbefore
  -- whole, the run is the frame with the first bytes of its padding
  have hwhole : headerLen + payload.length ≤ s.length →
      ∃ trailer, cutBytes c = frame version payload trailer := fun h => by
    obtain ⟨j, hj⟩ := Nat.exists_eq_add_of_le h
    exact ⟨pad.take j, by rw [hbytes, hj, frame_take]⟩
  constructor
  · rintro ⟨hx, hstart⟩
    obtain ⟨c', hmagic, hcomplete, rfl⟩ := mem_wrappers_iff.mp hx
    obtain rfl : c' = c := Cut.ext_of_start (hstart.trans hplace.symm)
    rcases Nat.lt_or_ge s.length (headerLen + payload.length) with htorn | h
    · rw [hbytes] at hcomplete
      exact absurd hcomplete (not_complete_take hlen htorn)
    · obtain ⟨trailer, hframe⟩ := hwhole h
      rw [hframe, body_frame version trailer hlen, hblock, hplace]
      exact ⟨h, rfl⟩
  · rintro ⟨h, rfl⟩
    obtain ⟨trailer, hframe⟩ := hwhole h
    obtain ⟨hmagic, hcomplete, hbody⟩ :=
      complete_iff_frame.mpr ⟨hlen, trailer, Nat.zero_le _, hframe⟩
    exact ⟨mem_wrappers_iff.mpr ⟨c, hmagic, hcomplete, by rw [hbody, hblock, hplace]⟩, rfl⟩

theorem failsSafe_left : FailsSafe t payload s.length (strLen (marker :: s))
    (verdict (candidates (t ++ marker :: s ++ r))) (wrappers (t ++ marker :: s ++ r)) where
  torn := verdict_left_torn hleft hr hlen
  whole h _ := (mem_wrappers_left_iff hleft hr hlen).trans (and_iff_right h)
  bare h x hx hstart := by
    have hlong := ((mem_wrappers_left_iff hleft hr hlen).mp ⟨hx, hstart⟩).1
    unfold headerLen at hlong
    omega
  payload_eq x hx hstart := by
    rw [((mem_wrappers_left_iff hleft hr hlen).mp ⟨hx, hstart⟩).2]

end Left

theorem interrupted_failsSafe {t s r : Text}
    (henc : encode w payload = .ok (.ok c) ∨ encodePadded w payload = .ok (.ok c))
    (hleft : marker :: s <+: c) (hr : Blunt selectors r)
    (hfit : Fits w (t ++ marker :: s ++ r)) :
    ∃ outcome ws, extract w (t ++ marker :: s ++ r) = .ok outcome ∧
      locateAll w (t ++ marker :: s ++ r) = .ok ws ∧
      FailsSafe t payload s.length (strLen (marker :: s)) outcome ws := by
  obtain ⟨hlen, pad, rfl⟩ : payload.length ≤ u32Max ∧ ∃ pad, c = carrier payload pad := by
    rcases henc with h | h
    · obtain ⟨hlen, rfl⟩ := eq_of_encodeWithPadding h
      exact ⟨hlen, [], rfl⟩
    · exact eq_of_encodePadded h
  exact ⟨_, _, extract_eq w hfit, locateAll_eq w hfit, failsSafe_left hleft hr hlen⟩

theorem interrupted_failsSafe_torn :
    ∃ outcome ws, extract .w64 (['a'] ++ marker :: encodeRun magic ++ ['b']) = .ok outcome ∧
      locateAll .w64 (['a'] ++ marker :: encodeRun magic ++ ['b']) = .ok ws ∧
      FailsSafe ['a'] [7] (encodeRun magic).length (strLen (marker :: encodeRun magic))
        outcome ws :=
  interrupted_failsSafe (.inl (encode_eq .w64 (by decide) (reserves_w64 (by decide))))
    (by decide) (blunt_cons selectors (by decide) []) (by decide)

end UnstructuredText
