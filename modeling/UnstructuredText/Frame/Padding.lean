import UnstructuredText.Frame.Embed

/-! Padding to a deterministic length. An encoded frame falls short of four bytes for
each of its bytes by the number of low ones, and six more bytes keep the gap clear of the
three values that threes and fours cannot make up. -/

namespace UnstructuredText
open Machine Sized
variable (w : PtrWidth)

theorem strLen_encodeRun_append (x y : List UInt8) :
    strLen (encodeRun (x ++ y)) = strLen (encodeRun x) + strLen (encodeRun y) := by
  rw [encodeRun, List.map_append, strLen_append]
  rfl

theorem strLen_encodeRun_replicate (n : ℕ) (b : UInt8) :
    strLen (encodeRun (List.replicate n b)) = n * (byteToVs b).utf8Size := by
  induction n with
  | zero => exact (Nat.zero_mul _).symm
  | succ n ih =>
    have hcons : strLen (encodeRun (List.replicate (n + 1) b)) =
        (byteToVs b).utf8Size + strLen (encodeRun (List.replicate n b)) := rfl
    rw [hcons, ih, Nat.succ_mul, Nat.add_comm]

def filler (a b : ℕ) : List UInt8 := List.replicate a 0x00 ++ List.replicate b 0x10

theorem strLen_filler (a b : ℕ) : strLen (encodeRun (filler a b)) = 3 * a + 4 * b := by
  have hthree : (byteToVs 0x00).utf8Size = 3 := byteToVs_utf8Size 0x00
  have hfour : (byteToVs 0x10).utf8Size = 4 := byteToVs_utf8Size 0x10
  rw [filler, strLen_encodeRun_append, strLen_encodeRun_replicate, strLen_encodeRun_replicate,
    hthree, hfour, Nat.mul_comm a, Nat.mul_comm b]

theorem padding_eq {gap : ℕ} (h : 4 * (gap % 3) ≤ gap) :
    padding w gap = .ok (.ok (filler ((gap - 4 * (gap % 3)) / 3) (gap % 3))) := by
  have hmod : gap % 3 < 3 := Nat.mod_lt gap (by decide)
  have hmax := Nat.le_trans (show 8 ≤ u32Max by decide) (u32Max_le w)
  rw [padding]
  split_ifs with hzero
  · subst hzero
    rfl
  · simp only
    rw [mul_ok (by omega), ok_bind, if_neg (Nat.not_lt.mpr h), ok_bind, sub_ok h]
    rfl

theorem strLen_padding {gap : ℕ} (h : 4 * (gap % 3) ≤ gap) :
    strLen (encodeRun (filler ((gap - 4 * (gap % 3)) / 3) (gap % 3))) = gap := by
  rw [strLen_filler]
  omega

theorem representable_iff (gap : ℕ) :
    (∃ a b, gap = 3 * a + 4 * b) ↔ 4 * (gap % 3) ≤ gap := by
  constructor
  · rintro ⟨a, b, rfl⟩
    -- the remainder counts the fours up to a multiple of three
    have hmod : (3 * a + 4 * b) % 3 ≤ b := by omega
    omega
  · exact fun h => ⟨(gap - 4 * (gap % 3)) / 3, gap % 3, by omega⟩

theorem padding_error {gap : ℕ} (h : ¬4 * (gap % 3) ≤ gap) :
    padding w gap = .ok (.error (.unrepresentableGap gap)) := by
  have hmod : gap % 3 < 3 := Nat.mod_lt gap (by decide)
  have hmax := Nat.le_trans (show 8 ≤ u32Max by decide) (u32Max_le w)
  rw [padding]
  split_ifs with hzero
  · exact absurd hzero (by omega)
  · simp only
    rw [mul_ok (by omega), ok_bind, if_pos (Nat.not_le.mp h)]
    rfl

structure Fills (gap : ℕ) (outcome : Except Error (List UInt8)) : Prop where
  ok : (∃ out, outcome = .ok out) ↔ ∃ a b, gap = 3 * a + 4 * b
  error : outcome = .error (.unrepresentableGap gap) ↔ ¬∃ a b, gap = 3 * a + 4 * b
  unrepresentable : (¬∃ a b, gap = 3 * a + 4 * b) ↔ gap = 1 ∨ gap = 2 ∨ gap = 5
  exact_len : ∀ out, outcome = .ok out → strLen (encodeRun out) = gap
  canonical : ∀ out, outcome = .ok out → ∃ a b, out = filler a b ∧ gap = 3 * a + 4 * b ∧
    ∀ a' b', gap = 3 * a' + 4 * b' → b ≤ b'

theorem unrepresentable_iff (gap : ℕ) :
    (¬∃ a b, gap = 3 * a + 4 * b) ↔ gap = 1 ∨ gap = 2 ∨ gap = 5 := by
  rw [representable_iff]
  omega

theorem fills_filler {gap : ℕ} (h : 4 * (gap % 3) ≤ gap) :
    Fills gap (.ok (filler ((gap - 4 * (gap % 3)) / 3) (gap % 3))) where
  ok := iff_of_true ⟨_, rfl⟩ ((representable_iff gap).mpr h)
  error := iff_of_false (fun he => nomatch he) (not_not.mpr ((representable_iff gap).mpr h))
  unrepresentable := unrepresentable_iff gap
  exact_len _ hout := Except.ok.inj hout ▸ strLen_padding h
  canonical _ hout := by
    obtain rfl := Except.ok.inj hout
    exact ⟨_, _, rfl, by omega, fun a' b' hgap => by omega⟩

theorem fills_error {gap : ℕ} (h : ¬4 * (gap % 3) ≤ gap) :
    Fills gap (.error (.unrepresentableGap gap)) where
  ok := iff_of_false (fun ⟨_, he⟩ => nomatch he) (mt (representable_iff gap).mp h)
  error := iff_of_true rfl (mt (representable_iff gap).mp h)
  unrepresentable := unrepresentable_iff gap
  exact_len _ hout := nomatch hout
  canonical _ hout := nomatch hout

/-- The decomposition is found whenever there is one, with the fewest fours, and nothing
on the way to it overflows. -/
theorem padding_fills (gap : ℕ) : ∃ outcome, padding w gap = .ok outcome ∧ Fills gap outcome := by
  by_cases h : 4 * (gap % 3) ≤ gap
  · exact ⟨_, padding_eq w h, fills_filler h⟩
  · exact ⟨_, padding_error w h, fills_error h⟩

def paddedLen (manifestLen : ℕ) : ℕ := 3 + (headerLen + manifestLen) * 4 + 6

theorem targetLength_eq {n : ℕ} (h : paddedLen n ≤ w.usizeMax) :
    targetLength w n = .ok (paddedLen n) := by
  unfold paddedLen at h
  rw [targetLength, add_ok (by omega), ok_bind, mul_ok (by omega), ok_bind, add_ok (by omega),
    ok_bind, add_ok h]
  rfl

theorem strLen_carrier_pad (payload pad : List UInt8) :
    strLen (carrier payload pad) = strLen (carrier payload []) + strLen (encodeRun pad) := by
  have hframe : frame version payload pad = frame version payload [] ++ pad := by
    rw [frame, frame, List.append_nil]
  rw [strLen_carrier, strLen_carrier, hframe, strLen_encodeRun_append, Nat.add_assoc]

def gapOf (payload : List UInt8) : ℕ := lowCount (frame version payload []) + 6

theorem strLen_carrier_gap (payload : List UInt8) :
    strLen (carrier payload []) + gapOf payload = paddedLen payload.length := by
  have hrun := strLen_encodeRun (frame version payload [])
  rw [frame_length, List.length_nil, Nat.add_zero] at hrun
  rw [strLen_carrier, gapOf, paddedLen]
  omega

theorem gapOf_reachable (payload : List UInt8) : 4 * (gapOf payload % 3) ≤ gapOf payload := by
  unfold gapOf
  -- only 1, 2 and 5 are out of reach of threes and fours
  omega

theorem reserves_of_strLen {payload pad : List UInt8} {n : ℕ} (hlen : strLen (carrier payload pad) = n)
    (hroom : 2 * n ≤ w.isizeMax) : Reserves w (headerLen + payload.length + pad.length) := by
  have hthree := three_mul_le_strLen (frame version payload pad)
  rw [frame_length] at hthree
  rw [strLen_carrier] at hlen
  unfold Reserves
  omega

theorem encodePadded_eq {payload : List UInt8} (hlen : payload.length ≤ u32Max)
    (hroom : 2 * paddedLen payload.length ≤ w.isizeMax) :
    ∃ pad, encodePadded w payload = .ok (.ok (carrier payload pad)) ∧
      strLen (carrier payload pad) = paddedLen payload.length := by
  have hmax := w.two_mul_isizeMax
  have hgap := strLen_carrier_gap payload
  have hreach := gapOf_reachable payload
  have hbase : encode w payload = .ok (.ok (carrier payload [])) := by
    apply encode_eq w hlen
    unfold Reserves
    unfold paddedLen at hroom
    omega
  have hsub : checkedSub (paddedLen payload.length) (strLen (carrier payload [])) =
      some (gapOf payload) := by
    rw [checkedSub, if_pos (by omega)]
    exact congrArg some (by omega)
  have htotal : strLen (carrier payload (filler ((gapOf payload - 4 * (gapOf payload % 3)) / 3)
      (gapOf payload % 3))) = paddedLen payload.length := by
    rw [strLen_carrier_pad, strLen_padding hreach, hgap]
  refine ⟨_, ?_, htotal⟩
  rw [encodePadded, targetLength_eq w (by omega), ok_bind, hbase, ok_bind]
  simp only [hsub]
  rw [padding_eq w hreach, ok_bind]
  exact encodeWithPadding_eq w hlen (reserves_of_strLen w htotal hroom)

end UnstructuredText
