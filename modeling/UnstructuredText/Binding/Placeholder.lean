import UnstructuredText.Frame.Padding
import UnstructuredText.Binding.Transfer

/-! Binding before the manifest is final. Every payload of one length is carried in the
same number of bytes, so the binding computed around a placeholder is the binding of the
asset that carries the final manifest in its place. -/

namespace UnstructuredText
open Machine Sized

theorem signed_carrier {w : PtrWidth} {t : Text} {payload pad : List UInt8}
    (ht : extract w t = .ok (.error .notFound)) (hlen : payload.length ≤ u32Max)
    (hfit : Fits w (t ++ carrier payload pad)) :
    Signed w t (carrier payload pad) [] ∧
      ∃ x, extract w (t ++ carrier payload pad) = .ok (.ok x) ∧ x.payload = payload := by
  have hlaw := (embeds_carrier w hlen pad hfit).ok.mpr ht
  have hrange : (lastWrapper t payload (t ++ carrier payload pad)).exclusion =
      ⟨strLen t, strLen (carrier payload pad)⟩ := by
    rw [lastWrapper_carrier hlen, toWrapper_carrierRun pad _ hlen]
    rfl
  refine ⟨⟨?_, _, ?_, hrange⟩, _, hlaw, rfl⟩
  · rwa [List.append_nil]
  · rwa [List.append_nil]

theorem paddedLen_le {n : ℕ} (h : n ≤ u32Max) : 2 * paddedLen n ≤ PtrWidth.isizeMax .w64 := by
  unfold paddedLen headerLen
  unfold u32Max at h
  change _ ≤ 2 ^ 63 - 1
  omega

structure Shares (alg : Algorithm) (hasher : Hasher) (normalizer : Normalizer) (t : Text)
    (p q : List UInt8) (x y : Text) (d : DataHash) : Prop where
  placeholder : ∃ z, extract .w64 (t ++ x) = .ok (.ok z) ∧ z.payload = p
  final : ∃ z, extract .w64 (t ++ y) = .ok (.ok z) ∧ z.payload = q
  bound : computeDataHash .w64 (t ++ x) alg hasher normalizer = .ok (.ok d)
  rebound : computeDataHash .w64 (t ++ y) alg hasher normalizer = .ok (.ok d)
  exclusions : d.exclusions = [⟨strLen t, strLen x⟩]
  hash : d.hash = hasher.digest alg (strBytes (normalizer.nfc t))
  verifies : verifyDataHash .w64 (t ++ y) d hasher normalizer = .ok (.ok ())

theorem shares_carriers (alg : Algorithm) (hasher : Hasher) (normalizer : Normalizer) {t : Text}
    (ht : extract .w64 t = .ok (.error .notFound)) {p q pad pad' : List UInt8}
    (hp : p.length ≤ u32Max) (hq : q.length ≤ u32Max)
    (hsame : strLen (carrier p pad) = strLen (carrier q pad'))
    (hfit : Fits .w64 (t ++ carrier p pad)) :
    ∃ d, Shares alg hasher normalizer t p q (carrier p pad) (carrier q pad') d := by
  have hfit' : Fits .w64 (t ++ carrier q pad') := by
    rw [Fits, strLen_append, ← hsame, ← strLen_append]
    exact hfit
  obtain ⟨hsigned, hplaceholder⟩ := signed_carrier ht hp hfit
  obtain ⟨hsigned', hfinal⟩ := signed_carrier ht hq hfit'
  have hbound := computeDataHash_eq alg hasher normalizer hsigned
  have hrebound := computeDataHash_eq alg hasher normalizer hsigned'
  have hverifies : verifyDataHash .w64 (t ++ carrier q pad' ++ [])
      (binding alg hasher normalizer t (carrier p pad) []) hasher normalizer = .ok (.ok ()) := by
    rw [verify_binding_digest alg hasher normalizer hsigned' ⟨rfl, hsame⟩, if_pos rfl]
  have hd : binding alg hasher normalizer t (carrier q pad') [] =
      binding alg hasher normalizer t (carrier p pad) [] := by
    rw [binding, binding, hsame]
  rw [hd] at hrebound
  simp only [List.append_nil] at hbound hrebound hverifies
  refine ⟨_, hplaceholder, hfinal, hbound, hrebound, rfl, ?_, hverifies⟩
  rw [binding, List.append_nil]

/-- Deterministic padding breaks the cycle between the manifest and the range it is
bound by. -/
theorem padded_binding (alg : Algorithm) (hasher : Hasher) (normalizer : Normalizer) {t : Text}
    (ht : extract .w64 t = .ok (.error .notFound)) {p q : List UInt8}
    (hp : p.length ≤ u32Max) (hpq : p.length = q.length) :
    ∃ target x y, targetLength .w64 p.length = .ok target ∧
      encodePadded .w64 p = .ok (.ok x) ∧ encodePadded .w64 q = .ok (.ok y) ∧
      strLen x = target ∧ strLen y = target ∧
      (Fits .w64 (t ++ x) → ∃ d, Shares alg hasher normalizer t p q x y d) := by
  have hq := hpq ▸ hp
  obtain ⟨pad, hencode, hlen⟩ := encodePadded_eq .w64 hp (paddedLen_le hp)
  obtain ⟨pad', hencode', hlen'⟩ := encodePadded_eq .w64 hq (paddedLen_le hq)
  have htarget : targetLength .w64 p.length = .ok (paddedLen p.length) :=
    targetLength_eq .w64 (by have := PtrWidth.w64.two_mul_isizeMax; have := paddedLen_le hp; omega)
  rw [← hpq] at hlen'
  exact ⟨_, _, _, htarget, hencode, hencode', hlen, hlen',
    shares_carriers alg hasher normalizer ht hp hq (hlen.trans hlen'.symm)⟩

theorem padded_binding_high :
    ∃ target x y, targetLength .w64 2 = .ok target ∧
      encodePadded .w64 [0, 1] = .ok (.ok x) ∧ encodePadded .w64 [0xAB, 0xCD] = .ok (.ok y) ∧
      strLen x = target ∧ strLen y = target ∧
      (Fits .w64 (['é', marker] ++ x) →
        ∃ d, Shares .sha512 ⟨fun _ bytes => bytes⟩ ⟨id⟩ ['é', marker] [0, 1] [0xAB, 0xCD] x y d) :=
  @padded_binding .sha512 ⟨fun _ bytes => bytes⟩ ⟨id⟩ ['é', marker] (by decide) [0, 1] [0xAB, 0xCD]
    (by decide) rfl

end UnstructuredText
