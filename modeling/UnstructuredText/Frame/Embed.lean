import UnstructuredText.Frame.Concat

/-! Embedding. An encoded wrapper begins with a marker, so appended to any host it is one
more run and leaves every other run of the host as it was. -/

namespace UnstructuredText
open Machine Sized MarkedRuns
variable (w : PtrWidth)

/-- The bytes that travel as three UTF-8 bytes; the others travel as four. -/
def lowCount (bytes : List UInt8) : ℕ := bytes.countP fun b => b.toNat ≤ 15

theorem strLen_encodeRun (bytes : List UInt8) :
    strLen (encodeRun bytes) + lowCount bytes = 4 * bytes.length := by
  induction bytes with
  | nil => rfl
  | cons b bytes ih =>
    have hsize := byteToVs_utf8Size b
    have hcons : strLen (encodeRun (b :: bytes)) = (byteToVs b).utf8Size + strLen (encodeRun bytes) :=
      rfl
    rw [hcons, lowCount, List.countP_cons, List.length_cons]
    rw [lowCount] at ih
    by_cases hb : b.toNat ≤ 15
    · rw [if_pos hb] at hsize
      rw [if_pos (decide_eq_true hb)]
      omega
    · rw [if_neg hb] at hsize
      rw [if_neg (by simpa using hb)]
      omega

theorem strLen_carrier (payload pad : List UInt8) :
    strLen (carrier payload pad) = 3 + strLen (encodeRun (frame version payload pad)) := by
  rw [carrier, strLen_cons, marker_utf8Size]

theorem frame_length (v : UInt8) (payload trailer : List UInt8) :
    (frame v payload trailer).length = headerLen + payload.length + trailer.length := by
  rw [frame_eq_header, header_length, List.length_append, Nat.add_assoc]

theorem three_mul_le_strLen (bytes : List UInt8) : 3 * bytes.length ≤ strLen (encodeRun bytes) := by
  have hlen := strLen_encodeRun bytes
  have hlow : lowCount bytes ≤ bytes.length := List.countP_le_length
  omega

def Reserves (n : ℕ) : Prop := 1 + 4 * n ≤ w.isizeMax

instance (n : ℕ) : Decidable (Reserves w n) := inferInstanceAs (Decidable (_ ≤ _))

/-- A 32-bit machine can reserve what `carry` asks for `n` bytes, and twice the host, which
is what `format!` may ask for when it puts a carrier behind it. -/
structure Affords (text : Text) (n : ℕ) : Prop where
  carried : Reserves .w32 n
  doubled : 2 * strLen text ≤ PtrWidth.isizeMax .w32

theorem reserves_w64 {n : ℕ} (h : n ≤ 2 * u32Max) : Reserves .w64 n := by
  unfold u32Max at h
  change _ ≤ 2 ^ 63 - 1
  omega

theorem reserves_of_affords {text : Text} {n : ℕ} (h : n ≤ 2 * u32Max)
    (hafford : w = .w32 → Affords text n) : Reserves w n := by
  cases w with
  | w32 => exact (hafford rfl).carried
  | w64 => exact reserves_w64 h

example : ¬Reserves .w32 (2 ^ 29) := by decide

theorem framed_le {payload : List UInt8} (hlen : payload.length ≤ u32Max) :
    headerLen + payload.length ≤ 2 * u32Max := by
  unfold headerLen
  unfold u32Max at hlen ⊢
  omega

theorem carry_eq {framed : List UInt8} (hroom : Reserves w framed.length) :
    carry w framed = .ok (marker :: encodeRun framed) := by
  have hmax := w.two_mul_isizeMax
  unfold Reserves at hroom
  rw [carry, mul_ok (by omega), ok_bind, add_ok (by omega), ok_bind, reserve_ok (by omega), ok_bind]
  rfl

theorem encodeWithPadding_eq {payload pad : List UInt8} (hlen : payload.length ≤ u32Max)
    (hroom : Reserves w (headerLen + payload.length + pad.length)) :
    encodeWithPadding w payload pad = .ok (.ok (carrier payload pad)) := by
  have hcarry : carry w (frame version payload pad) = .ok (carrier payload pad) :=
    carry_eq w (by rwa [frame_length])
  have hmax := w.two_mul_isizeMax
  unfold Reserves at hroom
  rw [encodeWithPadding, u32TryFrom_some hlen]
  simp only
  rw [add_ok (by omega), ok_bind, add_ok (by omega), ok_bind, reserve_ok (by omega), ok_bind]
  change (carry w (frame version payload pad) >>= fun c => pure (Except.ok c)) = _
  rw [hcarry]
  rfl

theorem encode_eq {payload : List UInt8} (hlen : payload.length ≤ u32Max)
    (hroom : Reserves w (headerLen + payload.length)) :
    encode w payload = .ok (.ok (carrier payload [])) := encodeWithPadding_eq w hlen hroom

theorem embed_eq (text : Text) {payload : List UInt8} (hlen : payload.length ≤ u32Max)
    (hroom : Reserves w (headerLen + payload.length)) :
    embed w text payload = .ok (.ok (text ++ carrier payload [])) := by
  rw [embed, encode_eq w hlen hroom]
  rfl

def carrierRun (payload pad : List UInt8) (start : ℕ) : Run UInt8 :=
  ⟨frame version payload pad, start, strLen (carrier payload pad)⟩

theorem runs_append_encoded (text : Text) (bytes : List UInt8) :
    runs (text ++ marker :: encodeRun bytes) =
      runs text ++ [⟨bytes, strLen text, strLen (marker :: encodeRun bytes)⟩] := by
  have hb : Blunt selectors (marker :: encodeRun bytes) := blunt_marker selectors _
  have hrun : runs (marker :: encodeRun bytes) =
      [⟨bytes, 0, strLen (marker :: encodeRun bytes)⟩] := by
    have h := runsFrom_run selectors 0 (decodable_encodeRun bytes) (blunt_nil selectors)
    rwa [List.append_nil, runAt, decoded_encodeRun] at h
  rw [runs_append text hb, hrun, List.map_singleton, Run.shift, Nat.zero_add]

theorem candidates_append_encoded (text : Text) {bytes : List UInt8} (h : magic <+: bytes) :
    candidates (text ++ marker :: encodeRun bytes) =
      candidates text ++ [⟨bytes, strLen text, strLen (marker :: encodeRun bytes)⟩] := by
  have hcand : IsCandidate ⟨bytes, strLen text, strLen (marker :: encodeRun bytes)⟩ := h
  rw [candidates, runs_append_encoded, List.filter_append, List.filter_singleton,
    decide_eq_true hcand]
  rfl

section Carrier
variable {payload : List UInt8} (pad : List UInt8) (start : ℕ)

theorem isCandidate_carrierRun : IsCandidate (carrierRun payload pad start) :=
  (congrArg (magic <+: ·) (frame_eq_header version payload pad)).mpr (magic_prefix_header ..)

theorem isValid_carrierRun (hlen : payload.length ≤ u32Max) :
    IsValid (carrierRun payload pad start) := complete_frame version hlen (Nat.zero_le _)

theorem toWrapper_carrierRun (hlen : payload.length ≤ u32Max) :
    toWrapper (carrierRun payload pad start) =
      ⟨payload, version, start, strLen (carrier payload pad)⟩ := by
  rw [toWrapper, carrierRun, body_frame version pad hlen]

end Carrier

theorem candidates_append_carrier (text : Text) (payload pad : List UInt8) :
    candidates (text ++ carrier payload pad) =
      candidates text ++ [carrierRun payload pad (strLen text)] :=
  candidates_append_encoded text (@isCandidate_carrierRun payload pad 0)

theorem wrappers_append_carrier (text : Text) {payload : List UInt8} (pad : List UInt8)
    (hlen : payload.length ≤ u32Max) :
    wrappers (text ++ carrier payload pad) =
      wrappers text ++ [⟨payload, version, strLen text, strLen (carrier payload pad)⟩] := by
  have hvalid := decide_eq_true (isValid_carrierRun pad (strLen text) hlen)
  rw [wrappers_eq, candidates_append_carrier, List.filter_append, List.map_append, ← wrappers_eq,
    List.filter_singleton, hvalid, cond_true, List.map_singleton, toWrapper_carrierRun pad _ hlen]

section OneMore
variable {rs : List (Run UInt8)} {r : Run UInt8} (hr : IsValid r)
include hr

theorem forall_append_valid : (∀ s ∈ rs ++ [r], IsValid s) ↔ ∀ s ∈ rs, IsValid s := by
  rw [List.forall_mem_append, List.forall_mem_singleton, and_iff_left hr]

theorem verdict_append_ok_iff :
    verdict (rs ++ [r]) = .ok (toWrapper r) ↔ verdict rs = .error .notFound := by
  rw [verdict_notFound_iff, verdict_ok_iff]
  constructor
  · rintro ⟨s, hs, -⟩
    exact List.append_eq_singleton_iff.mp hs |>.elim And.left fun h => absurd h.2 (by simp)
  · rintro rfl
    exact ⟨r, rfl, hr, rfl⟩

theorem verdict_append_multiple_iff :
    verdict (rs ++ [r]) = .error .multipleWrappers ↔
      (∃ x, verdict rs = .ok x) ∨ verdict rs = .error .multipleWrappers := by
  rw [verdict_multiple_iff, forall_append_valid hr]
  constructor
  · rintro ⟨hmany, hvalid⟩
    rcases verdict_cases rs with ⟨_, rfl⟩ | ⟨_, s, hs, hbad⟩ | ⟨s, hok, _⟩ | ⟨hmult, _⟩
    · simp at hmany
    · exact absurd (hvalid s hs) hbad
    · exact .inl ⟨_, hok⟩
    · exact .inr hmult
  · rintro (⟨x, hok⟩ | hmult)
    · obtain ⟨s, rfl, hvalid, -⟩ := verdict_ok_iff.mp hok
      exact ⟨Nat.le_refl 2, List.forall_mem_singleton.mpr hvalid⟩
    · obtain ⟨hmany, hvalid⟩ := verdict_multiple_iff.mp hmult
      rw [List.length_append]
      exact ⟨Nat.le_add_right_of_le hmany, hvalid⟩

theorem verdict_append_corrupted_iff :
    verdict (rs ++ [r]) = .error .corruptedWrapper ↔ verdict rs = .error .corruptedWrapper := by
  rw [verdict_corrupted_iff, verdict_corrupted_iff]
  have h := not_congr (@forall_append_valid rs r hr)
  simpa only [not_forall, exists_prop] using h

end OneMore

theorem strip_append (a m b : Text) :
    strip (a ++ m ++ b) ⟨strLen a, strLen (a ++ m)⟩ = .ok (.ok (a ++ b)) := by
  have hstart : isCharBoundary (a ++ m ++ b) (strLen a) = true := by
    rw [List.append_assoc]
    exact isCharBoundary_append a (m ++ b)
  have hstop := isCharBoundary_append (a ++ m) b
  have hinside : ¬(strLen (a ++ m) > strLen (a ++ m ++ b) ∨ strLen a > strLen (a ++ m)) := by
    simp only [strLen_append]
    omega
  have hspan : sub (strLen (a ++ m)) (strLen a) = .ok (strLen m) := by
    rw [strLen_append, sub_add_left]
  have hcap : strLen m ≤ strLen (a ++ m ++ b) := by
    simp only [strLen_append]
    omega
  have hto : strTo (a ++ m ++ b) (strLen a) = .ok a := by
    rw [List.append_assoc, strTo_append]
  rw [strip, if_neg hinside]
  simp only [hstart, hstop, Bool.not_true, Bool.or_self, Bool.false_eq_true, if_false]
  rw [hspan, ok_bind, sub_ok hcap, ok_bind, hto, ok_bind, strFrom_append, ok_bind]
  rfl

theorem range_eq {x : Wrapper} (h : x.start + x.length ≤ w.usizeMax) :
    x.range w = .ok ⟨x.start, x.start + x.length⟩ := by
  rw [Wrapper.range, add_ok h]
  rfl

theorem strip_last {text m : Text} {x : Wrapper} (hfit : Fits w (text ++ m))
    (hstart : x.start = strLen text) (hlength : x.length = strLen m) :
    ∃ range, x.range w = .ok range ∧ strip (text ++ m) range = .ok (.ok text) := by
  have hstop := hfit.lt_usizeMax
  have hstrip := strip_append text m []
  rw [List.append_nil, List.append_nil, strLen_append] at hstrip
  rw [strLen_append] at hstop
  refine ⟨_, range_eq w (by omega), ?_⟩
  rw [hstart, hlength]
  exact hstrip

def lastWrapper (text : Text) (payload : List UInt8) (asset : Text) : Wrapper :=
  ⟨payload, 1, strLen text, strLen asset - strLen text⟩

structure Embeds (w : PtrWidth) (text : Text) (payload : List UInt8) (asset : Text) : Prop where
  located : ∃ ws, locateAll w text = .ok ws ∧
    locateAll w asset = .ok (ws ++ [lastWrapper text payload asset])
  stripped : ∃ range, (lastWrapper text payload asset).range w = .ok range ∧
    strip asset range = .ok (.ok text)
  ok : extract w asset = .ok (.ok (lastWrapper text payload asset)) ↔
    extract w text = .ok (.error .notFound)
  multiple : extract w asset = .ok (.error .multipleWrappers) ↔
    (∃ x, extract w text = .ok (.ok x)) ∨ extract w text = .ok (.error .multipleWrappers)
  corrupted : extract w asset = .ok (.error .corruptedWrapper) ↔
    extract w text = .ok (.error .corruptedWrapper)

section Law
variable {text : Text} {payload : List UInt8} (hlen : payload.length ≤ u32Max)
include hlen

theorem lastWrapper_carrier (pad : List UInt8) :
    lastWrapper text payload (text ++ carrier payload pad) =
      toWrapper (carrierRun payload pad (strLen text)) := by
  rw [lastWrapper, strLen_append, Nat.add_sub_cancel_left, toWrapper_carrierRun pad _ hlen]
  rfl

theorem embeds_carrier (pad : List UInt8) (hfit : Fits w (text ++ carrier payload pad)) :
    Embeds w text payload (text ++ carrier payload pad) := by
  have hvalid := isValid_carrierRun pad (strLen text) hlen
  have hlast := @lastWrapper_carrier text payload hlen pad
  have hextract := extract_eq w hfit
  rw [candidates_append_carrier] at hextract
  constructor
  · refine ⟨wrappers text, locateAll_eq w hfit.left, ?_⟩
    rw [locateAll_eq w hfit, wrappers_append_carrier text pad hlen, hlast,
      toWrapper_carrierRun pad _ hlen]
  · rw [hlast, toWrapper_carrierRun pad _ hlen]
    exact strip_last w hfit rfl rfl
  · rw [hextract, extract_eq w hfit.left, hlast]
    simp only [Except.ok.injEq]
    exact verdict_append_ok_iff hvalid
  · rw [hextract, extract_eq w hfit.left]
    simp only [Except.ok.injEq]
    exact verdict_append_multiple_iff hvalid
  · rw [hextract, extract_eq w hfit.left]
    simp only [Except.ok.injEq]
    exact verdict_append_corrupted_iff hvalid

/-- Embedding adds one wrapper behind every other, whatever the host contains. The asset is
taken to be a string at all; only on 32 bits may its buffers be refused. -/
theorem embed_law (hfit : Fits w (text ++ carrier payload []))
    (hafford : w = .w32 → Affords text (headerLen + payload.length)) :
    ∃ asset, embed w text payload = .ok (.ok asset) ∧ Embeds w text payload asset :=
  ⟨_, embed_eq w text hlen (reserves_of_affords w (framed_le hlen) hafford),
    embeds_carrier w hlen [] hfit⟩

end Law

theorem embed_law_unfinished :
    ∃ asset, embed .w32 (marker :: encodeRun magic ++ [marker, 'é', marker]) [7] =
      .ok (.ok asset) ∧
      Embeds .w32 (marker :: encodeRun magic ++ [marker, 'é', marker]) [7] asset :=
  embed_law .w32 (by decide) (by decide) fun _ => ⟨by decide, by decide⟩

end UnstructuredText
