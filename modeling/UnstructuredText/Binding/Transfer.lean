import UnstructuredText.Binding.Verify

/-! The binding law. What `computeDataHash` binds is a byte range and the digest of the
rest, so a binding is good on another text exactly when the wrapper there occupies the
same range and the rest has the same digest. -/

namespace UnstructuredText
open Machine Sized MarkedRuns
variable (w : PtrWidth)

/-- `a ++ m ++ b` is a text on which `extract` succeeds with a wrapper that occupies `m`. -/
structure Signed (a m b : Text) : Prop where
  fits : Fits w (a ++ m ++ b)
  located : ∃ x, extract w (a ++ m ++ b) = .ok (.ok x) ∧ x.exclusion = ⟨strLen a, strLen m⟩

def binding (alg : Algorithm) (hasher : Hasher) (normalizer : Normalizer) (a m b : Text) :
    DataHash :=
  ⟨[⟨strLen a, strLen m⟩], alg.id, hasher.digest alg (strBytes (normalizer.nfc (a ++ b))), [], none⟩

section Law
variable {w} {a m b : Text} (alg : Algorithm) (hasher : Hasher) (normalizer : Normalizer)

theorem sound_of_candidates {text : Text} {r : Run UInt8} (hr : candidates text = [r])
    (hvalid : IsValid r) : Sound text := by
  rw [sound_iff, hr]
  exact List.forall_mem_singleton.mpr hvalid

theorem Signed.cases (h : Signed w a m b) : Sound (a ++ m ++ b) ∧
    ∃ x, wrappers (a ++ m ++ b) = [x] ∧ x.exclusion = ⟨strLen a, strLen m⟩ := by
  obtain ⟨x, hx, hexclusion⟩ := h.located
  obtain ⟨r, hr, hvalid, rfl⟩ := (extract_ok_iff w h.fits).mp hx
  exact ⟨sound_of_candidates hr hvalid, _, wrappers_of_candidates hr hvalid, hexclusion⟩

theorem computeDataHash_eq (h : Signed w a m b) :
    computeDataHash w (a ++ m ++ b) alg hasher normalizer =
      .ok (.ok (binding alg hasher normalizer a m b)) := by
  obtain ⟨x, hx, hexclusion⟩ := h.located
  have hmanifest : manifestExclusion w (a ++ m ++ b) = .ok (.ok ⟨strLen a, strLen m⟩) := by
    rw [manifestExclusion, hx, ok_bind, ← hexclusion]
    rfl
  rw [computeDataHash, hmanifest, ok_bind]
  dsimp only
  rw [hashedBytes_block h.fits, ok_bind]
  rfl

theorem Signed.selects_iff (h : Signed w a m b) {d : DataHash} :
    Selects d (wrappers (a ++ m ++ b)) ↔ d.exclusions = [⟨strLen a, strLen m⟩] := by
  obtain ⟨_, x, hx, hexclusion⟩ := h.cases
  rw [Selects, hx, ← hexclusion]
  exact ⟨fun ⟨y, hy, hd⟩ => List.mem_singleton.mp hy ▸ hd, fun hd => ⟨x, by simp, hd⟩⟩

variable {a' m' b' : Text}

theorem binding_exclusions_iff :
    (binding alg hasher normalizer a m b).exclusions = [⟨strLen a', strLen m'⟩] ↔
      strLen a = strLen a' ∧ strLen m = strLen m' := by
  simp only [binding, List.cons.injEq, Exclusion.mk.injEq, and_true]

theorem verify_binding_malformed (h' : Signed w a' m' b')
    (hrange : ¬(strLen a = strLen a' ∧ strLen m = strLen m')) :
    verifyDataHash w (a' ++ m' ++ b') (binding alg hasher normalizer a m b) hasher normalizer =
      .ok (.error .malformedExclusion) := by
  obtain ⟨hsound, x, hx, _⟩ := h'.cases
  -- one wrapper is located, so no more than one is listed
  have hfew : (listed (binding alg hasher normalizer a m b) [x]).length < 2 :=
    Nat.lt_succ_of_le (List.length_filter_le _ _)
  refine verify_malformed h'.fits hasher normalizer ⟨alg, rfl⟩ hsound (hx ▸ hfew) ?_
  rw [h'.selects_iff, binding_exclusions_iff]
  exact hrange

theorem verify_binding_digest (h' : Signed w a' m' b')
    (hrange : strLen a = strLen a' ∧ strLen m = strLen m') :
    verifyDataHash w (a' ++ m' ++ b') (binding alg hasher normalizer a m b) hasher normalizer =
      if hasher.digest alg (strBytes (normalizer.nfc (a' ++ b'))) =
          hasher.digest alg (strBytes (normalizer.nfc (a ++ b))) then .ok (.ok ())
      else .ok (.error .hashMismatch) := by
  have hd := (@binding_exclusions_iff a m b alg hasher normalizer a' m').mpr hrange
  exact verify_selected h'.fits hasher normalizer rfl h'.cases.1 (h'.selects_iff.mpr hd) rfl hd

end Law

structure Transfers (alg : Algorithm) (hasher : Hasher) (normalizer : Normalizer)
    (a m b a' m' b' : Text) (d : DataHash) : Prop where
  accepts : verifyDataHash w (a' ++ m' ++ b') d hasher normalizer = .ok (.ok ()) ↔
    strLen a = strLen a' ∧ strLen m = strLen m' ∧
      hasher.digest alg (strBytes (normalizer.nfc (a ++ b))) =
        hasher.digest alg (strBytes (normalizer.nfc (a' ++ b')))
  malformed : ¬(strLen a = strLen a' ∧ strLen m = strLen m') →
    verifyDataHash w (a' ++ m' ++ b') d hasher normalizer = .ok (.error .malformedExclusion)
  mismatch : strLen a = strLen a' → strLen m = strLen m' →
    hasher.digest alg (strBytes (normalizer.nfc (a ++ b))) ≠
      hasher.digest alg (strBytes (normalizer.nfc (a' ++ b'))) →
    verifyDataHash w (a' ++ m' ++ b') d hasher normalizer = .ok (.error .hashMismatch)
  self : verifyDataHash w (a ++ m ++ b) d hasher normalizer = .ok (.ok ())
  shared : normalizer.nfc (a ++ b) = normalizer.nfc (a' ++ b') →
    computeDataHash w (a' ++ m' ++ b') alg hasher normalizer = .ok (.ok d) →
    strLen a = strLen a'

theorem binding_transfer (alg : Algorithm) (hasher : Hasher) (normalizer : Normalizer)
    {a m b a' m' b' : Text} (h : Signed w a m b) (h' : Signed w a' m' b') :
    ∃ d, computeDataHash w (a ++ m ++ b) alg hasher normalizer = .ok (.ok d) ∧
      Transfers w alg hasher normalizer a m b a' m' b' d := by
  refine ⟨_, computeDataHash_eq alg hasher normalizer h, ?_, ?_, ?_, ?_, ?_⟩
  · by_cases hrange : strLen a = strLen a' ∧ strLen m = strLen m'
    · rw [verify_binding_digest alg hasher normalizer h' hrange, ← and_assoc, and_iff_right hrange]
      split_ifs with hdigest
      · exact iff_of_true rfl hdigest.symm
      · exact iff_of_false (fun hok => nomatch hok) (Ne.symm hdigest)
    · rw [verify_binding_malformed alg hasher normalizer h' hrange, ← and_assoc]
      exact iff_of_false (fun hok => nomatch hok) (fun hall => hrange hall.1)
  · exact verify_binding_malformed alg hasher normalizer h'
  · intro hstart hlength hdigest
    rw [verify_binding_digest alg hasher normalizer h' ⟨hstart, hlength⟩, if_neg (Ne.symm hdigest)]
  · rw [verify_binding_digest alg hasher normalizer h ⟨rfl, rfl⟩, if_pos rfl]
  · intro _ hcompute
    rw [computeDataHash_eq alg hasher normalizer h'] at hcompute
    have hd := congrArg DataHash.exclusions (Except.ok.inj (Except.ok.inj hcompute))
    exact ((binding_exclusions_iff alg hasher normalizer).mp hd).1.symm

theorem binding_transfer_decomposed :
    ∃ d, computeDataHash .w32 (['é'] ++ carrier [7] [] ++ ['b']) .sha384 ⟨fun _ bytes => bytes⟩
        ⟨fun _ => ['é', 'b']⟩ = .ok (.ok d) ∧
      Transfers .w32 .sha384 ⟨fun _ bytes => bytes⟩ ⟨fun _ => ['é', 'b']⟩
        ['é'] (carrier [7] []) ['b'] ['e', '\u0301'] (carrier [7] []) ['b'] d :=
  binding_transfer .w32 .sha384 _ _
    ⟨by decide, ⟨[7], 1, 2, 52⟩, by decide +kernel, by decide⟩
    ⟨by decide, ⟨[7], 1, 3, 52⟩, by decide +kernel, by decide⟩

end UnstructuredText
