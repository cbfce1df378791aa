import UnstructuredText.Checksum.Verdict

/-! Where the version 2 parser faults. The end of the declared body is computed with a
check, the end of the checksum behind it without one, so on a 32-bit machine the last
four declared lengths that pass the check overflow. -/

namespace UnstructuredText.V2
open Machine Sized MarkedRuns

/-- A version 2 run whose declared body ends within the address space, and whose
checksum would not. -/
def Overflows (w : PtrWidth) (run : List UInt8) : Prop :=
  magic <+: run ∧ headerLen ≤ run.length ∧ run[8]? = some version ∧
    headerLen + declared run ≤ w.usizeMax ∧ w.usizeMax < headerLen + declared run + checksumLen

instance (w : PtrWidth) (run : List UInt8) : Decidable (Overflows w run) :=
  inferInstanceAs (Decidable (_ ∧ _ ∧ _ ∧ _ ∧ _))

theorem overflows_header {w : PtrWidth} {v : UInt8} {n : UInt32} {rest : List UInt8} :
    Overflows w (header v n rest) ↔ v = version ∧ headerLen + n.toNat ≤ w.usizeMax ∧
      w.usizeMax < headerLen + n.toNat + checksumLen := by
  have hlen := header_length v n rest
  rw [Overflows, declared_header, header_version, Option.some_inj,
    and_iff_right (magic_prefix_header v n rest), and_iff_right (by omega)]

theorem not_overflows_w64 (run : List UInt8) : ¬Overflows .w64 run := by
  rintro ⟨_, _, _, _, h⟩
  have hn : declared run < 2 ^ 32 := UInt32.toNat_lt _
  unfold headerLen checksumLen at h
  change 2 ^ 64 - 1 < _ at h
  omega

section Decode
variable {w : PtrWidth} {hasher : Hasher}

theorem decode_overflow {v : UInt8} {n : UInt32} {rest : List UInt8}
    (h : Overflows w (header v n rest)) (start length : ℕ) :
    decode w (header v n rest) start length hasher = .error .overflow := by
  obtain ⟨rfl, hbody, hsum⟩ := overflows_header.mp h
  rw [decode, frameBounds_header, checkedAdd_some hbody, Option.map_some, ok_bind]
  dsimp only
  rw [index_ok (header_version version n rest), ok_bind, if_neg (not_not.mpr rfl),
    add_overflow hsum]
  rfl

theorem decode_beyond {v : UInt8} {n : UInt32} {rest : List UInt8}
    (hsum : w.usizeMax < headerLen + n.toNat + checksumLen)
    (h : ¬Overflows w (header v n rest)) (start length : ℕ) :
    decode w (header v n rest) start length hasher = .ok none := by
  rw [decode, frameBounds_header]
  rcases Nat.lt_or_ge w.usizeMax (headerLen + n.toNat) with hfar | hbody
  · rw [checkedAdd_none hfar]
    rfl
  · have hv : v ≠ version := fun hv => h (overflows_header.mpr ⟨hv, hbody, hsum⟩)
    rw [checkedAdd_some hbody, Option.map_some, ok_bind]
    dsimp only
    rw [index_ok (header_version v n rest), ok_bind, if_pos hv]
    rfl

def Rejects (run : List UInt8) (result : Option Wrapper) : Prop :=
  run.length < headerLen + declared run + checksumLen → result = none

variable (hlong : LongDigests hasher)
include hlong

theorem decode_rejects {run : List UInt8} (h : ¬Overflows w run) (start length : ℕ) :
    ∃ result, decode w run start length hasher = .ok result ∧ Rejects run result := by
  by_cases hhead : magic <+: run ∧ headerLen ≤ run.length
  swap
  · rw [decode, frameBounds_none w hhead]
    exact ⟨none, rfl, fun _ => rfl⟩
  obtain ⟨v, n, rest, rfl⟩ := exists_header hhead.1 hhead.2
  rcases Nat.lt_or_ge w.usizeMax (headerLen + n.toNat + checksumLen) with hsum | hsum
  · exact ⟨none, decode_beyond hsum h start length, fun _ => rfl⟩
  · refine ⟨_, decode_header hlong hsum start length, fun hshort => ?_⟩
    exact if_neg fun hc => Nat.not_le.mpr hshort hc.2.1.2.2

theorem decode_ends_iff (run : List UInt8) (start length : ℕ) :
    Ends (decode w run start length hasher) ↔ ¬Overflows w run := by
  constructor
  · intro hends h
    obtain ⟨v, n, rest, rfl⟩ := exists_header h.1 h.2.1
    rw [decode_overflow h] at hends
    exact not_ends_error _ hends
  · intro h
    obtain ⟨result, hok, _⟩ := decode_rejects hlong h start length
    exact ⟨result, hok⟩

end Decode

section Texts
variable {w : PtrWidth} {hasher : Hasher} {text : Text}

theorem forall_runs_iff :
    (∀ r ∈ runs text, ¬Overflows w r.items) ↔ ∀ c : Candidate text, ¬Overflows w c.bytes := by
  constructor
  · exact fun h c => h _ (List.mem_filter.mp c.mem).1
  · intro h r hr hover
    obtain ⟨c, rfl⟩ := mem_candidates_iff.mp (List.mem_filter.mpr ⟨hr, decide_eq_true hover.1⟩)
    exact h c hover

variable (hlong : LongDigests hasher) (hfit : Fits w text)
include hlong hfit

theorem locateAll_ends_iff :
    Ends (locateAll w text hasher) ↔ ∀ c : Candidate text, ¬Overflows w c.bytes := by
  rw [locateAll, scan_eq w _ hfit, ← forall_runs_iff]
  refine foldlM_ends_iff (fun found r _ => ?_) []
  rw [ends_bind_iff, ← decode_ends_iff hlong r.items r.start r.length]
  constructor
  · rintro ⟨result, hok, _⟩
    exact ⟨result, hok⟩
  · rintro ⟨result, hok⟩
    cases result with
    | none => exact ⟨_, hok, ends_ok _⟩
    | some x => exact ⟨_, hok, ends_ok _⟩

theorem extract_ends_iff :
    Ends (extract w text hasher) ↔ ∀ c : Candidate text, ¬Overflows w c.bytes := by
  rw [extract, ends_bind_iff, ← locateAll_ends_iff hlong hfit]
  constructor
  · rintro ⟨ws, hok, _⟩
    exact ⟨ws, hok⟩
  · rintro ⟨ws, hok⟩
    refine ⟨ws, hok, ?_⟩
    rcases ws with _ | ⟨x, _ | ⟨y, ws⟩⟩
    · dsimp only
      rw [hasCandidate_eq w hfit, ok_bind]
      split_ifs
      · exact ends_ok _
      · exact ends_ok _
    · exact ends_ok _
    · exact ends_ok _

theorem extractAny_ends_iff :
    Ends (extractAny w text hasher) ↔ ∀ c : Candidate text, ¬Overflows w c.bytes := by
  rw [extractAny, UnstructuredText.extract_eq w hfit, ok_bind]
  cases hv1 : UnstructuredText.verdict (candidates text) with
  | ok x =>
    obtain ⟨r, hr, hvalid, _⟩ := UnstructuredText.verdict_ok_iff.mp hv1
    obtain ⟨c, hc, rfl⟩ := candidates_eq_singleton_iff.mp hr
    refine iff_of_true (ends_ok _) fun d hover => ?_
    rw [hc d] at hover
    have hversion : some UnstructuredText.version = some version :=
      hvalid.2.1.symm.trans hover.2.2.1
    exact absurd (Option.some.inj hversion) (by decide)
  | error e =>
    dsimp only
    rw [ends_bind_iff, ← extract_ends_iff hlong hfit]
    constructor
    · rintro ⟨outcome, hok, _⟩
      exact ⟨outcome, hok⟩
    · rintro ⟨outcome, hok⟩
      refine ⟨outcome, hok, ?_⟩
      rcases outcome with e2 | x
      · cases e2 <;> exact ends_ok _
      · exact ends_ok _

end Texts

structure SafeIff (w : PtrWidth) (hasher : Hasher) : Prop where
  decode : ∀ run start length, (∃ result, V2.decode w run start length hasher = .ok result ∧
    Rejects run result) ↔ ¬Overflows w run
  locateAll : ∀ text, Fits w text →
    (Ends (V2.locateAll w text hasher) ↔ ∀ c : Candidate text, ¬Overflows w c.bytes)
  extract : ∀ text, Fits w text →
    (Ends (V2.extract w text hasher) ↔ ∀ c : Candidate text, ¬Overflows w c.bytes)
  extractAny : ∀ text, Fits w text →
    (Ends (V2.extractAny w text hasher) ↔ ∀ c : Candidate text, ¬Overflows w c.bytes)

theorem safe_iff {w : PtrWidth} {hasher : Hasher} (hlong : LongDigests hasher) :
    SafeIff w hasher where
  decode run start length := by
    constructor
    · rintro ⟨result, hok, _⟩
      exact (decode_ends_iff hlong run start length).mp ⟨result, hok⟩
    · exact fun h => decode_rejects hlong h start length
  locateAll _ hfit := locateAll_ends_iff hlong hfit
  extract _ hfit := extract_ends_iff hlong hfit
  extractAny _ hfit := extractAny_ends_iff hlong hfit

theorem safe_iff_const : SafeIff .w32 ⟨fun _ _ => [1, 2, 3, 4]⟩ :=
  safe_iff fun _ _ => Nat.le_refl 4

/-- A bare header that declares `2 ^ 32 - 14` bytes, on a 32-bit machine. -/
theorem decode_faults :
    LongDigests ⟨fun _ _ => [1, 2, 3, 4]⟩ ∧
    Fits .w32 (marker :: encodeRun (header 2 4294967282 [])) ∧
    ¬(∃ result, decode .w32 (header 2 4294967282 []) 0 53 ⟨fun _ _ => [1, 2, 3, 4]⟩ = .ok result ∧
      Rejects (header 2 4294967282 []) result) ∧
    ¬Ends (locateAll .w32 (marker :: encodeRun (header 2 4294967282 []))
      ⟨fun _ _ => [1, 2, 3, 4]⟩) ∧
    ¬Ends (extract .w32 (marker :: encodeRun (header 2 4294967282 [])) ⟨fun _ _ => [1, 2, 3, 4]⟩) ∧
    ¬Ends (extractAny .w32 (marker :: encodeRun (header 2 4294967282 []))
      ⟨fun _ _ => [1, 2, 3, 4]⟩) := by
  have hdecode : decode .w32 (header 2 4294967282 []) 0 53 ⟨fun _ _ => [1, 2, 3, 4]⟩ =
      .error .overflow := by decide +kernel
  have hlocate : locateAll .w32 (marker :: encodeRun (header 2 4294967282 []))
      ⟨fun _ _ => [1, 2, 3, 4]⟩ = .error .overflow := by decide +kernel
  have hextract : extract .w32 (marker :: encodeRun (header 2 4294967282 []))
      ⟨fun _ _ => [1, 2, 3, 4]⟩ = .error .overflow := by decide +kernel
  have hany : extractAny .w32 (marker :: encodeRun (header 2 4294967282 []))
      ⟨fun _ _ => [1, 2, 3, 4]⟩ = .error .overflow := by decide +kernel
  rw [hdecode, hlocate, hextract, hany]
  refine ⟨fun _ _ => Nat.le_refl 4, by decide, ?_, not_ends_error _, not_ends_error _,
    not_ends_error _⟩
  rintro ⟨result, hok, _⟩
  cases hok

end UnstructuredText.V2
