import UnstructuredText.Binding.ToJson
import UnstructuredText.Binding.Placeholder
import UnstructuredText.Binding.Evidence

/-! Signing in two passes. A draft of the manifest fixes the range, the binding computed on
the draft is written into the manifest, and what a validator reads out of the asset is that
binding and verifies on the asset. -/

namespace UnstructuredText
open Machine Sized Json

theorem strBytes_injective : Function.Injective strBytes := by
  intro s t h
  have hbytes : (String.ofList s).toByteArray = (String.ofList t).toByteArray := by
    rw [String.toByteArray_ofList, String.toByteArray_ofList]
    exact congrArg List.toByteArray h
  exact String.ofList_injective (String.toByteArray_inj.mp hbytes)

theorem strBytes_length (s : Text) : (strBytes s).length = strLen s := by
  induction s with
  | nil => rfl
  | cons c s ih =>
    rw [strLen_cons, ← ih, ← String.length_utf8EncodeChar, ← List.length_append]
    rfl

def manifestOf (size : ℕ) (d : DataHash) : List UInt8 :=
  strBytes (List.replicate (size - strLen d.toJson) ' ' ++ d.toJson)

def States (bytes : List UInt8) (d : DataHash) : Prop :=
  ∃ text v, strBytes text = bytes ∧ parse text = some v ∧ Denotes v d

theorem strLen_blanks (n : ℕ) : strLen (List.replicate n ' ') = n := by
  induction n with
  | zero => rfl
  | succ n ih =>
    rw [List.replicate_succ, strLen_cons, ih, Nat.add_comm]
    rfl

theorem manifestOf_length {size : ℕ} {d : DataHash} (hroom : strLen d.toJson ≤ size) :
    (manifestOf size d).length = size := by
  rw [manifestOf, strBytes_length, strLen_append, strLen_blanks, Nat.sub_add_cancel hroom]

theorem toValue_injective : Function.Injective Exclusion.toValue := by
  intro e e' h
  simp only [Exclusion.toValue, Value.nat, Value.obj.injEq, List.cons.injEq, Prod.mk.injEq,
    Value.num.injEq, Number.mk.injEq] at h
  obtain ⟨⟨_, _, hstart, _⟩, ⟨_, _, hlength, _⟩, _⟩ := h
  cases e
  cases e'
  congr

theorem denotes_unique {v : Value} {d d' : DataHash} (h : Denotes v d) (h' : Denotes v d') :
    d' = d := by
  obtain ⟨hash, pad, hhash, hpad, rfl⟩ := h
  obtain ⟨hash', pad', hhash', hpad', hv⟩ := h'
  have hmembers := Value.obj.inj hv
  simp only [List.cons_append, List.nil_append, List.cons.injEq, Prod.mk.injEq, Value.arr.injEq,
    Value.str.injEq, true_and] at hmembers
  obtain ⟨hexclusions, halg, rfl, rfl, hname⟩ := hmembers
  have hranges : d'.exclusions = d.exclusions :=
    (List.map_injective_iff.mpr toValue_injective hexclusions).symm
  have hnames : d'.name = d.name := by
    have hwrap : Function.Injective fun name : String => ("name".toList, Value.str name.toList) :=
      fun _ _ h => String.toList_inj.mp (Value.str.inj (Prod.mk.inj h).2)
    rw [← @Option.head?_toList _ d.name, List.map_injective_iff.mpr hwrap hname,
      Option.head?_toList]
  obtain ⟨exclusions, alg, hash, pad, name⟩ := d
  obtain rfl := Option.some.inj (hhash.symm.trans hhash')
  obtain rfl := Option.some.inj (hpad.symm.trans hpad')
  cases d'
  cases hranges
  cases hnames
  cases String.toList_inj.mp halg
  rfl

theorem parse_blanks (n : ℕ) {text : Text} {v : Value} {good : Prop}
    (h : Reads value text v good) (hgood : good) :
    parse (List.replicate n ' ' ++ text) = some v := by
  have hskip : skip (List.replicate n ' ' ++ text) = skip text :=
    List.dropWhile_append_of_pos fun c hc => List.eq_of_mem_replicate hc ▸ rfl
  have hvalue : ∀ k, value (k + 1) (List.replicate n ' ' ++ text) = value (k + 1) text := by
    intro k
    rw [value, value, hskip]
  have hread := (h.exact ((List.replicate n ' ' ++ text).length + 1)
    (by rw [List.length_append]; omega) [] stops_nil []).mpr ⟨hgood, rfl⟩
  rw [List.append_nil] at hread
  rw [parse, hvalue, hread]
  rfl

theorem states_manifestOf (size : ℕ) {d : DataHash} (hplain : PlainStrings d) :
    States (manifestOf size d) d :=
  ⟨_, _, rfl, parse_blanks _ (reads_toJson d) hplain, denotes_iff.mpr rfl⟩

theorem states_manifestOf_iff (size : ℕ) {d d' : DataHash} (hplain : PlainStrings d) :
    States (manifestOf size d) d' ↔ d' = d := by
  constructor
  · rintro ⟨text, v, htext, hparse, hdenotes⟩
    obtain rfl := strBytes_injective htext
    rw [parse_blanks _ (reads_toJson d) hplain, Option.some.injEq] at hparse
    exact denotes_unique (denotes_iff.mpr hparse.symm) hdenotes
  · rintro rfl
    exact states_manifestOf size hplain

section Passes
variable (alg : Algorithm) (hasher : Hasher) (normalizer : Normalizer) (t : Text)

def boundTo (size : ℕ) : DataHash :=
  ⟨[⟨strLen t, paddedLen size⟩], alg.id, hasher.digest alg (strBytes (normalizer.nfc t)), [], none⟩

theorem plain_boundTo (size : ℕ) : PlainStrings (boundTo alg hasher normalizer t size) := by
  refine ⟨?_, fun name hname => nomatch hname⟩
  have hid : Plain alg.id.toList := by cases alg <;> decide
  exact hid

structure Passes (payload : List UInt8) (x : Wrapper) (asset : Text) : Prop where
  carried : ∃ carrier, encodePadded .w64 payload = .ok (.ok carrier) ∧ asset = t ++ carrier
  extracts : extract .w64 asset = .ok (.ok x) ∧ x.payload = payload
  strips : StripsTo .w64 asset x t
  range : (boundTo alg hasher normalizer t payload.length).exclusions = [x.exclusion]
  computes : computeDataHash .w64 asset alg hasher normalizer =
    .ok (.ok (boundTo alg hasher normalizer t payload.length))
  verifies : verifyDataHash .w64 asset (boundTo alg hasher normalizer t payload.length) hasher
    normalizer = .ok (.ok ())

variable {t}

theorem exists_passes (ht : extract .w64 t = .ok (.error .notFound)) {payload : List UInt8}
    (hlen : payload.length ≤ u32Max)
    (hroom : strLen t + paddedLen payload.length ≤ PtrWidth.isizeMax .w64) :
    ∃ x asset, Passes alg hasher normalizer t payload x asset := by
  obtain ⟨pad, hencode, hpadded⟩ := encodePadded_eq .w64 hlen (paddedLen_le hlen)
  have hfit : Fits .w64 (t ++ carrier payload pad) := by
    rw [Fits, strLen_append, hpadded]
    exact hroom
  obtain ⟨hsigned, x, hx, hpayload⟩ := signed_carrier ht hlen hfit
  have hbinding : binding alg hasher normalizer t (carrier payload pad) [] =
      boundTo alg hasher normalizer t payload.length := by
    rw [binding, boundTo, hpadded, List.append_nil]
  have hcompute := computeDataHash_eq alg hasher normalizer hsigned
  have hverify := @verify_binding_digest .w64 t (carrier payload pad) [] alg hasher normalizer _ _ _
    hsigned ⟨rfl, rfl⟩
  obtain ⟨y, hy, hplace⟩ := hsigned.located
  have hstrip := stripsTo_block hsigned.fits hplace
  rw [if_pos rfl] at hverify
  rw [List.append_nil] at hcompute hverify hy hstrip
  rw [hbinding] at hcompute hverify
  obtain rfl := ok_unique hy hx
  refine ⟨y, _, ⟨_, hencode, rfl⟩, ⟨hx, hpayload⟩, ?_, ?_, hcompute, hverify⟩
  · rwa [List.append_nil] at hstrip
  · rw [hplace, hpadded]
    rfl

end Passes

structure SignedTwice (alg : Algorithm) (hasher : Hasher) (normalizer : Normalizer) (t : Text)
    (size : ℕ) (d : DataHash) (asset : Text) : Prop where
  draft : ∀ p : List UInt8, p.length = size → ∃ carrier,
    encodePadded .w64 p = .ok (.ok carrier) ∧
      computeDataHash .w64 (t ++ carrier) alg hasher normalizer = .ok (.ok d)
  final : ∃ carrier, encodePadded .w64 (manifestOf size d) = .ok (.ok carrier) ∧
    asset = t ++ carrier
  carried : ∃ x, extract .w64 asset = .ok (.ok x) ∧ d.exclusions = [x.exclusion] ∧
    (∀ d', States x.payload d' ↔ d' = d) ∧ StripsTo .w64 asset x t
  verifies : ∀ x d', extract .w64 asset = .ok (.ok x) → States x.payload d' →
    verifyDataHash .w64 asset d' hasher normalizer = .ok (.ok ())

/-- The binding computed on any draft can be written into the final manifest: a validator
that reads it there accepts the asset, although the manifest is what the range excludes. -/
theorem two_pass_signing {alg : Algorithm} {hasher : Hasher} {normalizer : Normalizer} {t : Text}
    (ht : extract .w64 t = .ok (.error .notFound)) {size : ℕ} (hsize : size ≤ u32Max)
    (hroom : strLen t + paddedLen size ≤ PtrWidth.isizeMax .w64)
    (hjson : strLen (boundTo alg hasher normalizer t size).toJson ≤ size) :
    ∃ asset, SignedTwice alg hasher normalizer t size (boundTo alg hasher normalizer t size)
      asset := by
  have hplain := plain_boundTo alg hasher normalizer t size
  have hlength := manifestOf_length hjson
  obtain ⟨x, asset, hpass⟩ := exists_passes alg hasher normalizer ht
    (Nat.le_trans (Nat.le_of_eq hlength) hsize) (by rw [hlength]; exact hroom)
  have hrange := hpass.range
  have hverifies := hpass.verifies
  rw [hlength] at hrange hverifies
  obtain ⟨hx, hpayload⟩ := hpass.extracts
  have hstates := fun d' => @states_manifestOf_iff size _ d' hplain
  refine ⟨asset, ?_, hpass.carried, ⟨x, hx, hrange, hpayload ▸ hstates, hpass.strips⟩, ?_⟩
  · rintro p rfl
    obtain ⟨_, _, ⟨carrier, hencode, rfl⟩, _, _, _, hcompute, _⟩ :=
      exists_passes alg hasher normalizer ht hsize hroom
    exact ⟨carrier, hencode, hcompute⟩
  · intro y d' hy hd'
    obtain rfl := ok_unique hx hy
    rw [hpayload] at hd'
    obtain rfl := (hstates d').mp hd'
    exact hverifies

theorem two_pass_signing_accented : ∃ asset, SignedTwice .sha256 ⟨fun _ _ => [1, 2, 3, 4]⟩ ⟨id⟩
    ['é'] 100 (boundTo .sha256 ⟨fun _ _ => [1, 2, 3, 4]⟩ ⟨id⟩ ['é'] 100) asset :=
  two_pass_signing (by decide +kernel) (by decide) (by decide) (by decide +kernel)

end UnstructuredText
