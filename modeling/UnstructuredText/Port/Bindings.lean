import UnstructuredText.Port.Widths
import UnstructuredText.Port.Messages
import UnstructuredText.Frame.Padding
import UnstructuredText.Binding.Evidence

/-! The two bindings. The WebAssembly build answers JavaScript what the 64-bit build answers
Python: its offsets fit the numbers they are cast to, and the errors bear the same texts. Of
its wrapping sums only `targetLength` shows any. -/

namespace UnstructuredText
open Machine Sized MarkedRuns

def Wasm.WrapperObject.dict (x : Wasm.WrapperObject) : Python.WrapperDict :=
  ⟨x.payload, x.version, x.start.toNat, x.length.toNat⟩

def Wasm.DataHashObject.dict (d : Wasm.DataHashObject) : Python.DataHashDict :=
  ⟨d.alg, d.hash, d.exclusions.map fun r => (r.start.toNat, r.length.toNat)⟩

/-- A thrown error is raised with the same text, and a value is translated by `f`. -/
def asPython {α β : Type} (f : α → β) : Except Wasm.JsError α → Except Python.PyErr β
  | .ok a => .ok (f a)
  | .error e => .error ⟨e.message⟩

theorem asPython_mapError {α : Type} (o : Except Error α) :
    asPython id (o.mapError Wasm.jsErr) = o.mapError Python.mapErr := by
  cases o with
  | ok a => rfl
  | error e => rfl

theorem translated_agrees {α : Type} {x : Exec (Except Error α)} (h : Ends x) :
    ∃ o, (do return (← x).mapError Wasm.jsErr) = .ok o ∧
      (do return (← x).mapError Python.mapErr) = .ok (asPython id o) := by
  obtain ⟨o, rfl⟩ := h
  exact ⟨_, rfl, congrArg Except.ok (asPython_mapError o).symm⟩

theorem translated_follows {α : Type} {x y : Exec (Except Error α)} (h : Refines x y) :
    Refines (do return asPython id (← (do return (← x).mapError Wasm.jsErr)))
      (do return (← y).mapError Python.mapErr) := by
  intro b hb
  obtain ⟨thrown, hthrown, hb⟩ := bind_eq_ok_iff.mp hb
  obtain ⟨o, ho, hmap⟩ := bind_eq_ok_iff.mp hthrown
  refine bind_eq_ok_iff.mpr ⟨o, h o ho, ?_⟩
  obtain rfl := Except.ok.inj hmap
  rwa [asPython_mapError] at hb

theorem asU32_toNat {n : ℕ} (h : n ≤ PtrWidth.w32.usizeMax) : (Wasm.asU32 n).toNat = n :=
  UInt32.toNat_ofNat_of_lt' (Nat.lt_of_le_of_lt h (by decide))

section Casts
variable {text : Text} (hfit : Fits .w32 text) {x : Wrapper}
  (hx : extract .w32 text = .ok (.ok x))
include hfit hx

theorem start_cast : (Wasm.asU32 x.start).toNat = x.start := by
  have hinside := (wrappers_inside (sound_of_extract hfit hx).2).1
  have hmax := hfit.lt_usizeMax
  apply asU32_toNat
  omega

theorem length_cast : (Wasm.asU32 x.length).toNat = x.length := by
  have hinside := (wrappers_inside (sound_of_extract hfit hx).2).1
  have hmax := hfit.lt_usizeMax
  apply asU32_toNat
  omega

end Casts

section Compute
variable {w : PtrWidth} {text : Text} (hfit : Fits w text) (alg : Algorithm) (hasher : Hasher)
  (normalizer : Normalizer)
include hfit

theorem computeDataHash_of_extract {x : Wrapper} (hx : extract w text = .ok (.ok x)) :
    ∃ hash, computeDataHash w text alg hasher normalizer =
        .ok (.ok ⟨[x.exclusion], alg.id, hash, [], none⟩) ∧
      verifyDataHash w text ⟨[x.exclusion], alg.id, hash, [], none⟩ hasher normalizer =
        .ok (.ok ()) := by
  obtain ⟨a, m, b, rfl, hplace⟩ := exists_block (sound_of_extract hfit hx).2
  have hsigned : Signed w a m b := ⟨hfit, x, hx, hplace⟩
  have hcompute := computeDataHash_eq alg hasher normalizer hsigned
  have hverify := @verify_binding_digest w a m b alg hasher normalizer _ _ _ hsigned ⟨rfl, rfl⟩
  rw [if_pos rfl] at hverify
  rw [binding, ← hplace] at hcompute hverify
  exact ⟨_, hcompute, hverify⟩

theorem computeDataHash_cases :
    (∃ e, extract w text = .ok (.error e) ∧
      computeDataHash w text alg hasher normalizer = .ok (.error e)) ∨
    (∃ x hash, extract w text = .ok (.ok x) ∧
      computeDataHash w text alg hasher normalizer =
        .ok (.ok ⟨[x.exclusion], alg.id, hash, [], none⟩)) := by
  have hextract := extract_eq w hfit
  cases hv : verdict (candidates text) with
  | error e =>
    rw [hv] at hextract
    refine .inl ⟨e, hextract, ?_⟩
    rw [computeDataHash, manifestExclusion, hextract]
    rfl
  | ok x =>
    rw [hv] at hextract
    obtain ⟨hash, hcompute, _⟩ := computeDataHash_of_extract hfit alg hasher normalizer hextract
    exact .inr ⟨x, hash, hextract, hcompute⟩

end Compute

section Calls
variable {text : Text} (hfit : Fits .w32 text)
include hfit

theorem extract_agrees : ∃ o, Wasm.extract text = .ok o ∧
    Python.extract .w64 text = .ok (asPython (Option.map Wasm.WrapperObject.dict) o) := by
  have hwide := extract_widths hfit
  obtain ⟨v, hv⟩ : ∃ v, extract .w32 text = .ok v := ⟨_, extract_eq .w32 hfit⟩
  rw [Wasm.extract, Python.extract, hwide, hv]
  cases v with
  | ok x =>
    refine ⟨_, rfl, ?_⟩
    have hdict : Wasm.WrapperObject.dict
        ⟨x.payload, x.version, Wasm.asU32 x.start, Wasm.asU32 x.length⟩ =
          ⟨x.payload, x.version, x.start, x.length⟩ := by
      rw [Wasm.WrapperObject.dict, start_cast hfit hv, length_cast hfit hv]
    rw [asPython, Option.map_some, hdict]
    rfl
  | error e => cases e <;> exact ⟨_, rfl, rfl⟩

theorem locateAll_of_object {o : Wasm.WrapperObject} (ho : Wasm.extract text = .ok (.ok (some o))) :
    Python.locateAll .w64 text = .ok [(o.start.toNat, o.length.toNat)] := by
  have hwide := locateAll_widths hfit
  obtain ⟨v, hv⟩ : ∃ v, extract .w32 text = .ok v := ⟨_, extract_eq .w32 hfit⟩
  rw [Wasm.extract, hv] at ho
  cases v with
  | error e => cases e <;> cases ho
  | ok x =>
    cases ho
    obtain ⟨r, hr, hvalid, hx⟩ := (extract_ok_iff .w32 hfit).mp hv
    have hws := wrappers_of_candidates hr hvalid
    rw [Python.locateAll, hwide, locateAll_eq .w32 hfit, hws, ← hx, start_cast hfit hv,
      length_cast hfit hv]
    rfl

variable (hasher : Hasher) (normalizer : Normalizer)

theorem computeDataHash_agrees (alg : Option String) :
    ∃ o, Wasm.computeDataHash hasher normalizer text (alg.getD Python.defaultAlg) = .ok o ∧
      Python.computeDataHash .w64 hasher normalizer text alg =
        .ok (asPython Wasm.DataHashObject.dict o) := by
  unfold Wasm.computeDataHash Python.computeDataHash Wasm.algorithm Python.algorithm
  cases Algorithm.fromId (alg.getD Python.defaultAlg) with
  | error e => exact ⟨_, rfl, rfl⟩
  | ok a =>
    dsimp only [Except.mapError]
    rw [computeDataHash_widths hfit]
    rcases computeDataHash_cases hfit a hasher normalizer with
      ⟨e, _, hcompute⟩ | ⟨x, hash, hx, hcompute⟩
    · rw [hcompute]
      exact ⟨_, rfl, rfl⟩
    · rw [hcompute]
      refine ⟨_, rfl, ?_⟩
      have hrange : ((Wasm.asU32 x.start).toNat, (Wasm.asU32 x.length).toNat) =
          (x.start, x.length) := by rw [start_cast hfit hx, length_cast hfit hx]
      rw [asPython, Wasm.DataHashObject.dict]
      simp only [List.map_cons, List.map_nil, Wrapper.exclusion, hrange]
      rfl

theorem verifyDataHash_agrees (hash : List UInt8) {starts lengths : List UInt32}
    (hlen : starts.length = lengths.length) (alg : Option String) :
    ∃ o, Wasm.verifyDataHash hasher normalizer text hash starts lengths
        (alg.getD Python.defaultAlg) = .ok o ∧
      Python.verifyDataHash .w64 hasher normalizer text hash
        ((starts.zip lengths).map fun r => (r.1.toNat, r.2.toNat)) alg = .ok (asPython id o) := by
  unfold Wasm.verifyDataHash Python.verifyDataHash Wasm.algorithm Python.algorithm
  rw [if_neg (not_not.mpr hlen)]
  cases Algorithm.fromId (alg.getD Python.defaultAlg) with
  | error e => exact ⟨_, rfl, rfl⟩
  | ok a =>
    dsimp only [Except.mapError]
    rw [verifyDataHash_widths hfit, List.map_map]
    obtain ⟨o, ho, _⟩ := verify_stage hfit
      ⟨(starts.zip lengths).map fun r => ⟨r.1.toNat, r.2.toNat⟩, a.id, hash, [], none⟩ hasher
      normalizer
    exact translated_agrees ⟨o, ho⟩

end Calls

/-- A range that leaves 32 bits is no range of the text: its wrapped end is in front of its
start, and its exact end behind the text. -/
theorem strip_agrees {text : Text} (hfit : Fits .w32 text) (start length : UInt32) :
    ∃ o, Wasm.strip text start length = .ok o ∧
      Python.strip .w64 text start.toNat length.toNat = .ok (asPython id o) := by
  have hstart := start.toNat_lt
  have hlength := length.toNat_lt
  have hmax := hfit.lt_usizeMax
  have hexact : add .w64 start.toNat length.toNat = .ok (start.toNat + length.toNat) := by
    apply add_ok
    change _ ≤ 2 ^ 64 - 1
    omega
  change _ < 2 ^ 32 - 1 at hmax
  unfold Wasm.strip Python.strip
  rw [hexact, ok_bind, UInt32.toNat_add]
  rcases Nat.lt_or_ge (start.toNat + length.toNat) (2 ^ 32) with hnear | hfar
  · rw [Nat.mod_eq_of_lt hnear]
    exact translated_agrees (strip_ends .w32 hfit ⟨start.toNat, length.toNat⟩)
  · have hwrapped : (start.toNat + length.toNat) % 2 ^ 32 < start.toNat := by omega
    have hbehind : strLen text < start.toNat + length.toNat := by omega
    rw [strip_outside (.inr hwrapped), strip_outside (.inl hbehind)]
    exact ⟨_, rfl, rfl⟩

theorem targetLength_wraps (n : UInt32) :
    (Wasm.targetLength n).toNat = paddedLen n.toNat % 2 ^ 32 := by
  have hheader : (UInt32.ofNat headerLen).toNat = headerLen := rfl
  rw [Wasm.targetLength, paddedLen]
  simp only [UInt32.toNat_add, UInt32.toNat_mul, hheader, UInt32.toNat_ofNat]
  omega

example : (Wasm.targetLength 1073741824).toNat = 61 := by decide

theorem targetLength_agrees (n : UInt32) : ∃ k, Python.targetLength .w64 n.toNat = .ok k ∧
    (Wasm.targetLength n).toNat = k % 2 ^ 32 := by
  refine ⟨_, targetLength_eq .w64 ?_, targetLength_wraps n⟩
  have hn := n.toNat_lt
  unfold paddedLen headerLen
  change _ ≤ 2 ^ 64 - 1
  omega

structure BindingsAgree (text : Text) (hasher : Hasher) (normalizer : Normalizer) : Prop where
  extracted : ∃ o, Wasm.extract text = .ok o ∧
    Python.extract .w64 text = .ok (asPython (Option.map Wasm.WrapperObject.dict) o)
  listed : ∀ o, Wasm.extract text = .ok (.ok (some o)) →
    Python.locateAll .w64 text = .ok [(o.start.toNat, o.length.toNat)]
  computed : ∀ alg : Option String, ∃ o,
    Wasm.computeDataHash hasher normalizer text (alg.getD Python.defaultAlg) = .ok o ∧
      Python.computeDataHash .w64 hasher normalizer text alg =
        .ok (asPython Wasm.DataHashObject.dict o)
  verified : ∀ (hash : List UInt8) (starts lengths : List UInt32) (alg : Option String),
    starts.length = lengths.length →
    ∃ o, Wasm.verifyDataHash hasher normalizer text hash starts lengths
        (alg.getD Python.defaultAlg) = .ok o ∧
      Python.verifyDataHash .w64 hasher normalizer text hash
        ((starts.zip lengths).map fun r => (r.1.toNat, r.2.toNat)) alg = .ok (asPython id o)
  stripped : ∀ start length : UInt32, ∃ o, Wasm.strip text start length = .ok o ∧
    Python.strip .w64 text start.toNat length.toNat = .ok (asPython id o)
  embedded : ∀ payload, Refines (do return asPython id (← Wasm.embed text payload))
    (Python.embed .w64 text payload)
  encoded : ∀ payload, Refines (do return asPython id (← Wasm.encode payload))
    (Python.encode .w64 payload)
  padded : ∀ payload, Refines (do return asPython id (← Wasm.encodePadded payload))
    (Python.encodePadded .w64 payload)
  sized : ∀ manifestLen : UInt32, ∃ k, Python.targetLength .w64 manifestLen.toNat = .ok k ∧
    (Wasm.targetLength manifestLen).toNat = k % 2 ^ 32

theorem bindings_agree {text : Text} (hfit : Fits .w32 text) (hasher : Hasher)
    (normalizer : Normalizer) : BindingsAgree text hasher normalizer where
  extracted := extract_agrees hfit
  listed _ ho := locateAll_of_object hfit ho
  computed alg := computeDataHash_agrees hfit hasher normalizer alg
  verified hash _ _ alg hlen := verifyDataHash_agrees hfit hasher normalizer hash hlen alg
  stripped := strip_agrees hfit
  embedded payload := translated_follows (embed_refines text payload)
  encoded payload := translated_follows (encode_refines payload)
  padded payload := translated_follows (encodePadded_refines payload)
  sized := targetLength_agrees

theorem bindings_agree_accented :
    BindingsAgree ('é' :: carrier [7] []) ⟨fun _ bytes => bytes⟩ ⟨id⟩ :=
  bindings_agree (by decide) _ _

end UnstructuredText
