import UnstructuredText.Lib.RunRemoval
import UnstructuredText.Source.WrapperDefs
import Mathlib.Data.List.TFAE

/-! The codec is a bijection between bytes and selectors, and the marker is not a
selector. Decoding a leading run is reading the longest block of selectors, so the
marked runs of a text are its wrapper candidates. -/

namespace UnstructuredText
open Machine Sized MarkedRuns

theorem byteToVs_toNat (b : UInt8) : (byteToVs b).toNat = vsCodePoint b := rfl

theorem vsCodePoint_low {b : UInt8} (h : b.toNat ≤ 15) : vsCodePoint b = vsStart + b.toNat :=
  if_pos (UInt8.le_iff_toNat_le.mpr h)

theorem vsCodePoint_high {b : UInt8} (h : 15 < b.toNat) :
    vsCodePoint b = vsSupStart + (b.toNat - 16) :=
  if_neg fun hle => Nat.not_le.mpr h (UInt8.le_iff_toNat_le.mp hle)

theorem vsToByte_byteToVs (b : UInt8) : vsToByte (byteToVs b) = some b := by
  have hb := b.toNat_lt
  unfold vsToByte vsEnd vsSupEnd
  rw [byteToVs_toNat]
  rcases Nat.lt_or_ge 15 b.toNat with h | h
  · rw [vsCodePoint_high h]
    unfold vsStart vsSupStart
    rw [if_neg (by omega), if_pos (by omega),
      show 0xE0100 + (b.toNat - 16) - 0xE0100 + 0x10 = b.toNat by omega, UInt8.ofNat_toNat]
  · rw [vsCodePoint_low h]
    unfold vsStart
    rw [if_pos (by omega), Nat.add_sub_cancel_left, UInt8.ofNat_toNat]

theorem byteToVs_of_vsToByte {c : Char} {b : UInt8} (h : vsToByte c = some b) :
    byteToVs b = c := by
  have hcode : (byteToVs b).toNat = c.toNat := by
    rw [byteToVs_toNat]
    unfold vsToByte vsStart vsEnd vsSupStart vsSupEnd at h
    split_ifs at h with hlow hhigh
    · obtain rfl := Option.some.inj h
      have hb : (UInt8.ofNat (c.toNat - 0xFE00)).toNat = c.toNat - 0xFE00 :=
        UInt8.toNat_ofNat_of_lt' (by show _ < 256; omega)
      rw [vsCodePoint_low (by omega), hb, vsStart]
      omega
    · obtain rfl := Option.some.inj h
      have hb : (UInt8.ofNat (c.toNat - 0xE0100 + 0x10)).toNat = c.toNat - 0xE0100 + 0x10 :=
        UInt8.toNat_ofNat_of_lt' (by show _ < 256; omega)
      rw [vsCodePoint_high (by omega), hb, vsSupStart]
      omega
  exact Char.ext (UInt32.toNat_inj.mp hcode)

theorem byteToVs_utf8Size (b : UInt8) :
    (byteToVs b).utf8Size = if b.toNat ≤ 15 then 3 else 4 := by
  have hb := b.toNat_lt
  have hval : (byteToVs b).val.toNat = vsCodePoint b := byteToVs_toNat b
  simp only [Char.utf8Size, UInt32.le_iff_toNat_le, hval, UInt32.toNat_ofNatLT]
  rcases Nat.lt_or_ge 15 b.toNat with h | h
  · rw [vsCodePoint_high h, vsSupStart, if_neg (by omega), if_neg (by omega), if_neg (by omega),
      if_neg (by omega)]
  · rw [vsCodePoint_low h, vsStart, if_neg (by omega), if_neg (by omega), if_pos (by omega),
      if_pos h]

theorem vsToByte_marker : vsToByte marker = none := by decide

theorem marker_utf8Size : marker.utf8Size = 3 := by decide

def selectors : Alphabet Char UInt8 :=
  { utf8 with marker := marker, dec := vsToByte, dec_marker := vsToByte_marker }

theorem decodable_encodeRun (bytes : List UInt8) : Decodable selectors (encodeRun bytes) := by
  intro c hc
  obtain ⟨b, _, rfl⟩ := List.mem_map.mp hc
  exact Option.isSome_iff_exists.mpr ⟨b, vsToByte_byteToVs b⟩

theorem decoded_encodeRun (bytes : List UInt8) : decoded selectors (encodeRun bytes) = bytes := by
  induction bytes with
  | nil => rfl
  | cons b bytes ih =>
    have hb : selectors.dec (byteToVs b) = some b := vsToByte_byteToVs b
    rw [encodeRun, List.map_cons, decoded, List.filterMap_cons_some hb]
    exact congrArg (b :: ·) ih

theorem encodeRun_decoded {m : Text} (hm : Decodable selectors m) :
    encodeRun (decoded selectors m) = m := by
  induction m with
  | nil => rfl
  | cons c m ih =>
    obtain ⟨b, hb⟩ := Option.isSome_iff_exists.mp (hm c List.mem_cons_self)
    rw [decoded, List.filterMap_cons_some hb, encodeRun, List.map_cons, byteToVs_of_vsToByte hb]
    exact congrArg (c :: ·) (ih fun d hd => hm d (List.mem_cons_of_mem c hd))

theorem decodeRunLoop_eq (off : ℕ) (s : Text) (out : List UInt8) :
    decodeRunLoop (off + strLen s) out (charIndicesFrom off s) =
      (out ++ decoded selectors (sel selectors s), off + strLen (sel selectors s)) := by
  induction s generalizing off out with
  | nil => simp only [charIndicesFrom, decodeRunLoop, sel, decoded, List.takeWhile_nil,
      List.filterMap_nil, List.append_nil, strLen_nil]
  | cons c s ih =>
    rw [charIndicesFrom, decodeRunLoop]
    cases hc : vsToByte c with
    | none =>
      have hsel : sel selectors (c :: s) = [] :=
        List.takeWhile_cons_of_neg (by simp [decodes, selectors, hc])
      simp only [hsel, decoded, List.filterMap_nil, List.append_nil, strLen_nil, Nat.add_zero]
    | some b =>
      have hsel : sel selectors (c :: s) = c :: sel selectors s :=
        List.takeWhile_cons_of_pos (by simp [decodes, selectors, hc])
      have hdec : decoded selectors (c :: sel selectors s) =
          b :: decoded selectors (sel selectors s) := List.filterMap_cons_some hc
      simp only [strLen_cons, ← Nat.add_assoc, ih, hsel, hdec, List.append_assoc,
        List.cons_append, List.nil_append]

theorem decodeRun_eq (s : Text) :
    decodeRun s = (decoded selectors (sel selectors s), strLen (sel selectors s)) := by
  have h := decodeRunLoop_eq 0 s []
  rwa [Nat.zero_add, Nat.zero_add, List.nil_append] at h

theorem decodeRun_encodeRun_append (bytes : List UInt8) {s : Text} (hs : Blunt selectors s) :
    decodeRun (encodeRun bytes ++ s) = (bytes, strLen (encodeRun bytes)) := by
  rw [decodeRun_eq, sel_append selectors (decodable_encodeRun bytes) hs, decoded_encodeRun]

theorem encodeRun_sel (s : Text) : encodeRun (decoded selectors (sel selectors s)) = sel selectors s :=
  encodeRun_decoded (decodable_sel selectors s)

theorem decodeRun_whole_iff {s : Text} {bytes : List UInt8} :
    decodeRun s = (bytes, strLen s) ↔ s = encodeRun bytes := by
  constructor
  · intro h
    rw [decodeRun_eq, Prod.mk.injEq] at h
    obtain ⟨rfl, hstop⟩ := h
    have hsplit := sel_append_rest selectors s
    have hrest : strLen (rest selectors s) = 0 := by
      have htotal := congrArg strLen hsplit
      rw [strLen_append] at htotal
      omega
    rw [encodeRun_sel]
    rwa [(total_eq_zero utf8).mp hrest, List.append_nil, eq_comm] at hsplit
  · rintro rfl
    have h := decodeRun_encodeRun_append bytes (blunt_nil selectors)
    rwa [List.append_nil] at h

theorem decodeExact_cons (c : Char) (s : Text) : decodeExact (c :: s) =
    (okOr (vsToByte c) .corruptedWrapper >>= fun b => decodeExact s >>= fun bytes =>
      pure (b :: bytes)) := List.mapM_cons

theorem decodeExact_encodeRun (bytes : List UInt8) : decodeExact (encodeRun bytes) = .ok bytes := by
  induction bytes with
  | nil => rfl
  | cons b bytes ih =>
    rw [encodeRun, List.map_cons, decodeExact_cons, vsToByte_byteToVs]
    change (decodeExact (encodeRun bytes) >>= fun bytes => pure (b :: bytes)) = _
    rw [ih]
    rfl

theorem decodeExact_cases (s : Text) :
    (∃ bytes, s = encodeRun bytes) ∨ decodeExact s = .error .corruptedWrapper := by
  induction s with
  | nil => exact .inl ⟨[], rfl⟩
  | cons c s ih =>
    rw [decodeExact_cons]
    cases hc : vsToByte c with
    | none => exact .inr rfl
    | some b =>
      rcases ih with ⟨bytes, rfl⟩ | ih
      · exact .inl ⟨b :: bytes, by rw [← byteToVs_of_vsToByte hc]; rfl⟩
      · refine .inr ?_
        rw [ih]
        rfl

theorem decodeExact_ok_iff {s : Text} {bytes : List UInt8} :
    decodeExact s = .ok bytes ↔ s = encodeRun bytes := by
  constructor
  · intro h
    rcases decodeExact_cases s with ⟨bytes', rfl⟩ | he
    · rw [decodeExact_encodeRun] at h
      rw [Except.ok.inj h]
    · rw [he] at h
      cases h
  · rintro rfl
    exact decodeExact_encodeRun bytes

structure CodecExact : Prop where
  decoded : ∀ s bytes stop, decodeRun s = (bytes, stop) → isCharBoundary s stop = true ∧
    strTo s stop = .ok (encodeRun bytes) ∧ ∃ behind, strFrom s stop = .ok behind ∧
      Blunt selectors behind
  encoded : ∀ bytes s, Blunt selectors s →
    decodeRun (encodeRun bytes ++ s) = (bytes, strLen (encodeRun bytes))
  strict : ∀ s bytes, [decodeExact s = .ok bytes, decodeRun s = (bytes, strLen s),
    s = encodeRun bytes].TFAE
  rejects : ∀ s, (∀ bytes, decodeExact s ≠ .ok bytes) → decodeExact s = .error .corruptedWrapper

theorem codec_exact : CodecExact where
  decoded s bytes stop h := by
    rw [decodeRun_eq, Prod.mk.injEq] at h
    obtain ⟨rfl, rfl⟩ := h
    have hboundary := isCharBoundary_append (sel selectors s) (rest selectors s)
    have hto := strTo_append (sel selectors s) (rest selectors s)
    have hfrom := strFrom_append (sel selectors s) (rest selectors s)
    rw [sel_append_rest] at hboundary hto hfrom
    rw [encodeRun_sel]
    exact ⟨hboundary, hto, rest selectors s, hfrom, blunt_rest selectors s⟩
  encoded bytes _ hs := decodeRun_encodeRun_append bytes hs
  strict s bytes := by
    apply List.tfae_of_forall (s = encodeRun bytes)
    simp only [List.forall_mem_cons]
    exact ⟨decodeExact_ok_iff, decodeRun_whole_iff, trivial, fun _ h => absurd h List.not_mem_nil⟩
  rejects s h := by
    rcases decodeExact_cases s with ⟨bytes, rfl⟩ | he
    · exact absurd (decodeExact_encodeRun bytes) (h bytes)
    · exact he

end UnstructuredText
