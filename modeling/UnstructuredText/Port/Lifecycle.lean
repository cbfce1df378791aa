import UnstructuredText.Port.Bindings
import UnstructuredText.Binding.Placeholder

/-! What a JavaScript caller can rely on. A text is unsigned, signed or rejected; a signed
one gives back the unsigned text and binds, an unsigned one can be signed, and a rejected one
names its status code. The numbers that come out go back in unchanged. -/

namespace UnstructuredText
open Machine Sized

namespace Wasm

def WrapperObject.of (x : Wrapper) : WrapperObject :=
  ⟨x.payload, x.version, asU32 x.start, asU32 x.length⟩

/-- `null` is returned, a payload can be embedded and taken out again, and no binding can be
computed. -/
structure Unsigned (text : Text) (hasher : Hasher) (normalizer : Normalizer) : Prop where
  extracts : extract text = .ok (.ok none)
  embeds : ∀ payload : List UInt8, payload.length ≤ u32Max →
    Fits .w32 (text ++ carrier payload []) → Affords text (headerLen + payload.length) →
    ∃ asset o, embed text payload = .ok (.ok asset) ∧ extract asset = .ok (.ok (some o)) ∧
      o.payload = payload ∧ strip asset o.start o.length = .ok (.ok text)
  unbound : ∀ alg : Algorithm,
    computeDataHash hasher normalizer text alg.id = .ok (.error (jsErr .notFound))

structure Signed (text : Text) (o : WrapperObject) (hasher : Hasher) (normalizer : Normalizer) :
    Prop where
  extracts : extract text = .ok (.ok (some o))
  strips : ∃ s, strip text o.start o.length = .ok (.ok s) ∧ Unsigned s hasher normalizer
  binds : ∀ alg : Algorithm, ∃ d, computeDataHash hasher normalizer text alg.id = .ok (.ok d) ∧
    d.exclusions = [⟨o.start, o.length⟩] ∧
      verifyDataHash hasher normalizer text d.hash (d.exclusions.map RangeObject.start)
        (d.exclusions.map RangeObject.length) d.alg = .ok (.ok ())

structure Rejected (text : Text) (code : String) (hasher : Hasher) (normalizer : Normalizer) :
    Prop where
  throws : ∃ e, extract text = .ok (.error e) ∧ bracketed code <:+ e.message ∧
    ∀ alg : Algorithm, computeDataHash hasher normalizer text alg.id = .ok (.error e)

section Core
variable {text : Text} (hfit : Fits .w32 text) (hasher : Hasher) (normalizer : Normalizer)

theorem extract_of_core {x : Wrapper} (hx : UnstructuredText.extract .w32 text = .ok (.ok x)) :
    extract text = .ok (.ok (some (.of x))) := by
  rw [extract, hx]
  rfl

theorem computeDataHash_of_core {alg : Algorithm} {e : Error}
    (h : UnstructuredText.computeDataHash .w32 text alg hasher normalizer = .ok (.error e)) :
    computeDataHash hasher normalizer text alg.id = .ok (.error (jsErr e)) := by
  unfold computeDataHash algorithm
  rw [fromId_id]
  dsimp only [Except.mapError]
  rw [h]
  rfl

include hfit

theorem strip_object {x : Wrapper} (hx : UnstructuredText.extract .w32 text = .ok (.ok x))
    {s : Text} (hs : StripsTo .w32 text x s) :
    strip text (WrapperObject.of x).start (WrapperObject.of x).length = .ok (.ok s) := by
  obtain ⟨range, hrange, hstrip⟩ := hs
  have hstart : (WrapperObject.of x).start.toNat = x.start := start_cast hfit hx
  have hlength : (WrapperObject.of x).length.toNat = x.length := length_cast hfit hx
  have hinside := (wrappers_inside (sound_of_extract hfit hx).2).1
  have hmax := hfit.lt_usizeMax
  rw [range_eq .w32 (by omega)] at hrange
  obtain rfl := Except.ok.inj hrange
  -- the wrapper lies in the text, so its end is an address and the sum does not wrap
  have hstop : ((WrapperObject.of x).start + (WrapperObject.of x).length).toNat =
      x.start + x.length := by
    rw [UInt32.toNat_add, hstart, hlength]
    apply Nat.mod_eq_of_lt
    change strLen text < 2 ^ 32 - 1 at hmax
    omega
  rw [strip, hstart, hstop, hstrip]
  rfl

theorem unsigned_of_core (h : UnstructuredText.extract .w32 text = .ok (.error .notFound)) :
    Unsigned text hasher normalizer where
  extracts := by
    rw [extract, h]
    rfl
  embeds payload hlen hroom hafford := by
    obtain ⟨hsigned, x, hx, hpayload⟩ := signed_carrier h hlen hroom
    obtain ⟨y, hy, hplace⟩ := hsigned.located
    have hstrip := stripsTo_block hsigned.fits hplace
    rw [List.append_nil] at hy hstrip
    obtain rfl := ok_unique hy hx
    rw [List.append_nil] at hstrip
    refine ⟨_, .of y, ?_, extract_of_core hx, hpayload, strip_object hroom hx hstrip⟩
    rw [embed, embed_eq .w32 text hlen hafford.carried]
    rfl
  unbound alg := by
    apply computeDataHash_of_core
    rcases computeDataHash_cases hfit alg hasher normalizer with ⟨e, he, hcompute⟩ | ⟨x, _, hx, _⟩
    · obtain rfl := Except.error.inj (Except.ok.inj (h.symm.trans he))
      exact hcompute
    · cases h.symm.trans hx

theorem rejected_of_core {e : Error} {code : String} (hcode : e.code = some code)
    (h : UnstructuredText.extract .w32 text = .ok (.error e)) :
    Rejected text code hasher normalizer where
  throws := by
    refine ⟨jsErr e, ?_, ?_, fun alg => ?_⟩
    · rw [extract, h]
      cases e with
      | notFound => exact absurd hcode (Option.some_ne_none code).symm
      | _ => rfl
    · exact (bracketed_suffix_iff e (bracket_not_mem_code hcode)).mpr hcode
    · apply computeDataHash_of_core
      rcases computeDataHash_cases hfit alg hasher normalizer with ⟨e', he, hcompute⟩ | ⟨x, _, hx, _⟩
      · obtain rfl := Except.error.inj (Except.ok.inj (h.symm.trans he))
        exact hcompute
      · cases h.symm.trans hx

theorem signed_of_core {x : Wrapper} (hx : UnstructuredText.extract .w32 text = .ok (.ok x)) :
    Signed text (.of x) hasher normalizer where
  extracts := extract_of_core hx
  strips := by
    obtain ⟨a, m, b, rfl, hplace⟩ := exists_block (sound_of_extract hfit hx).2
    have hstrip := stripsTo_block hfit hplace
    have hnone := candidates_stripped hfit hx hplace
    refine ⟨a ++ b, strip_object hfit hx hstrip, unsigned_of_core hfit.outer hasher normalizer ?_⟩
    rw [extract_eq .w32 hfit.outer, hnone]
    rfl
  binds alg := by
    obtain ⟨hash, hcompute, hverify⟩ :=
      computeDataHash_of_extract hfit alg hasher normalizer hx
    refine ⟨⟨alg.id, hash, [⟨asU32 x.start, asU32 x.length⟩]⟩, ?_, rfl, ?_⟩
    · unfold computeDataHash algorithm
      rw [fromId_id]
      dsimp only [Except.mapError]
      rw [hcompute]
      rfl
    · -- the cast range is the range of the wrapper again
      have hrange : (⟨(asU32 x.start).toNat, (asU32 x.length).toNat⟩ : Exclusion) =
          x.exclusion := by rw [start_cast hfit hx, length_cast hfit hx, Wrapper.exclusion]
      unfold verifyDataHash algorithm
      rw [fromId_id]
      simp only [Except.mapError, List.map_cons, List.map_nil, List.zip_cons_cons,
        List.zip_nil_left, hrange]
      rw [hverify]
      rfl

end Core

theorem unsigned_signed_or_rejected {text : Text} (hfit : Fits .w32 text) (hasher : Hasher)
    (normalizer : Normalizer) :
    Unsigned text hasher normalizer ∨ (∃ o, Signed text o hasher normalizer) ∨
      Rejected text "manifest.text.corruptedWrapper" hasher normalizer ∨
      Rejected text "manifest.text.multipleWrappers" hasher normalizer := by
  have hextract := extract_eq .w32 hfit
  rcases verdict_cases (candidates text) with
    ⟨hv, _⟩ | ⟨hv, _⟩ | ⟨r, hv, _⟩ | ⟨hv, _⟩
  · rw [hv] at hextract
    exact .inl (unsigned_of_core hfit hasher normalizer hextract)
  · rw [hv] at hextract
    exact .inr (.inr (.inl
      (rejected_of_core (e := .corruptedWrapper) hfit hasher normalizer rfl hextract)))
  · rw [hv] at hextract
    exact .inr (.inl ⟨_, signed_of_core hfit hasher normalizer hextract⟩)
  · rw [hv] at hextract
    exact .inr (.inr (.inr
      (rejected_of_core (e := .multipleWrappers) hfit hasher normalizer rfl hextract)))

theorem unsigned_signed_or_rejected_twice :
    Unsigned (carrier [7] [] ++ carrier [8] []) ⟨fun _ bytes => bytes⟩ ⟨id⟩ ∨
      (∃ o, Signed (carrier [7] [] ++ carrier [8] []) o ⟨fun _ bytes => bytes⟩ ⟨id⟩) ∨
      Rejected (carrier [7] [] ++ carrier [8] []) "manifest.text.corruptedWrapper"
        ⟨fun _ bytes => bytes⟩ ⟨id⟩ ∨
      Rejected (carrier [7] [] ++ carrier [8] []) "manifest.text.multipleWrappers"
        ⟨fun _ bytes => bytes⟩ ⟨id⟩ :=
  unsigned_signed_or_rejected (by decide) _ _

end Wasm
end UnstructuredText
