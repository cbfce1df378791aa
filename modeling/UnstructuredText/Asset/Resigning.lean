import UnstructuredText.Asset.Cleaning
import UnstructuredText.Binding.Transfer

/-! Bindings over histories. The digest of a binding covers what is shown, so stripping and
signing again keeps it, and the binding stays good as long as the wrapper keeps its range.
What a further action does to a binding is told for each of the actions. -/

namespace UnstructuredText
open Machine Sized MarkedRuns

section Signed
variable {hasher : Hasher} (hlong : V2.LongDigests hasher) {t : Text} (hfit : Fits .w64 t)
  {x : Wrapper} (hx : extract .w64 t = .ok (.ok x))
include hlong hfit hx

theorem wrappers_of_extract : (asset hasher t).wrappers = [x] := by
  have hdecides := decides_asset hlong hfit
  have hv1 := Except.ok.inj (hx.symm.trans hdecides.v1)
  unfold decideV1 at hv1
  split_ifs at hv1 with hbad
  have hone := pick_ok_iff.mp hv1.symm
  have hnone : Asset.ofVersion 2 (asset hasher t).wrappers = [] :=
    not_not.mp fun hne => hbad (.inr hne)
  -- no wrapper is of version 2, so the ones of version 1 are all there are
  have hall : Asset.ofVersion 1 (asset hasher t).wrappers = (asset hasher t).wrappers := by
    apply List.filter_eq_self.mpr
    intro y hy
    refine decide_eq_true ((hdecides.versions y hy).resolve_right fun hv => ?_)
    exact List.filter_eq_nil_iff.mp hnone y hy (decide_eq_true hv)
  exact hall.symm.trans hone

theorem exists_signed : ∃ a m b, t = a ++ m ++ b ∧ Signed .w64 a m b ∧
    x.exclusion = ⟨strLen a, strLen m⟩ ∧ a ++ b = (asset hasher t).shown := by
  have hone := wrappers_of_extract hlong hfit hx
  have hshown := @Asset.applyExclusions_wrappers hasher _ _ hfit
  obtain ⟨a, bytes, b, htext, _, _, hblock⟩ :=
    exists_block_of_mem (hone ▸ List.mem_singleton_self x)
  have hexclusion : x.exclusion = ⟨strLen a, strLen (marker :: encodeRun bytes)⟩ := by
    rw [hblock]
    rfl
  rw [hone, List.map_singleton, hexclusion] at hshown
  subst htext
  rw [applyExclusions_block .w64 hfit] at hshown
  exact ⟨a, _, b, rfl, ⟨hfit, x, hx, hexclusion⟩, hexclusion,
    Except.ok.inj (Except.ok.inj hshown)⟩

end Signed

structure Resigns (t t' : Text) (x x' : Wrapper) (alg : Algorithm) (binder : Hasher)
    (normalizer : Normalizer) : Prop where
  digests : ∃ d d', computeDataHash .w64 t alg binder normalizer = .ok (.ok d) ∧
    computeDataHash .w64 t' alg binder normalizer = .ok (.ok d') ∧
    d.exclusions = [x.exclusion] ∧ d'.exclusions = [x'.exclusion] ∧ d'.hash = d.hash
  stays : ∀ d, computeDataHash .w64 t alg binder normalizer = .ok (.ok d) →
    x'.exclusion = x.exclusion → verifyDataHash .w64 t' d binder normalizer = .ok (.ok ())
  moves : ∀ d, computeDataHash .w64 t alg binder normalizer = .ok (.ok d) →
    x'.exclusion ≠ x.exclusion →
    verifyDataHash .w64 t' d binder normalizer = .ok (.error .malformedExclusion)

theorem resigns_of_shown {hasher : Hasher} (hlong : V2.LongDigests hasher) {t t' : Text}
    (hfit : Fits .w64 t) (hfit' : Fits .w64 t') {x x' : Wrapper}
    (hx : extract .w64 t = .ok (.ok x)) (hx' : extract .w64 t' = .ok (.ok x'))
    (alg : Algorithm) (binder : Hasher) {normalizer : Normalizer}
    (hshown : normalizer.nfc (asset hasher t').shown = normalizer.nfc (asset hasher t).shown) :
    Resigns t t' x x' alg binder normalizer := by
  obtain ⟨a, m, b, rfl, hsigned, hplace, hab⟩ := exists_signed hlong hfit hx
  obtain ⟨a', m', b', rfl, hsigned', hplace', hab'⟩ := exists_signed hlong hfit' hx'
  have hkept : normalizer.nfc (a' ++ b') = normalizer.nfc (a ++ b) := by rw [hab, hab', hshown]
  have hcompute := computeDataHash_eq alg binder normalizer hsigned
  have hcompute' := computeDataHash_eq alg binder normalizer hsigned'
  have hranges : x'.exclusion = x.exclusion ↔ strLen a = strLen a' ∧ strLen m = strLen m' := by
    rw [hplace, hplace', Exclusion.mk.injEq]
    exact and_congr eq_comm eq_comm
  refine ⟨⟨_, _, hcompute, hcompute', ?_, ?_, ?_⟩, ?_, ?_⟩
  · rw [hplace]
    rfl
  · rw [hplace']
    rfl
  · unfold binding
    rw [hkept]
  · intro d hd hsame
    obtain rfl := ok_unique hcompute hd
    rw [verify_binding_digest alg binder normalizer hsigned' (hranges.mp hsame), hkept, if_pos rfl]
  · intro d hd hmoved
    obtain rfl := ok_unique hcompute hd
    exact verify_binding_malformed alg binder normalizer hsigned' (mt hranges.mpr hmoved)

/-- However a text is stripped and signed again, its digest is the same, and an earlier
binding is good exactly when the later wrapper has the range of the earlier one. -/
theorem resigning_keeps_digest {hasher : Hasher} (hlong : V2.LongDigests hasher) {t t' : Text}
    {as : List Action} (h : History hasher t as t')
    (hnone : as.flatMap (Action.shown hasher) = []) {x x' : Wrapper}
    (hx : extract .w64 t = .ok (.ok x)) (hx' : extract .w64 t' = .ok (.ok x'))
    (alg : Algorithm) (binder : Hasher) (normalizer : Normalizer) :
    Resigns t t' x x' alg binder normalizer := by
  have hshown := h.shown_eq hlong hnone
  exact resigns_of_shown hlong h.fits.1 h.fits.2 hx hx' alg binder (congrArg normalizer.nfc hshown)

theorem resigning_keeps_digest_moved :
    Resigns ('a' :: carrier [7] [] ++ ['b']) (['a', 'b'] ++ carrier [9] []) ⟨[7], 1, 1, 52⟩
      ⟨[9], 1, 2, 52⟩ .sha256 ⟨fun _ bytes => bytes⟩ ⟨id⟩ :=
  @resigning_keeps_digest ⟨fun _ _ => [1, 2, 3, 4]⟩ (fun _ _ => Nat.le_refl 4) _ _
    [.strip ⟨[7], 1, 1, 52⟩, .embed [9]]
    (.step (by decide)
      (.strip (show locateAll .w64 _ = .ok [⟨[7], 1, 1, 52⟩] by decide +kernel) (by decide))
      (by decide +kernel)
    (.step (show Fits .w64 ['a', 'b'] by decide) (.embed (by decide)) (by decide +kernel)
    (.done (by decide)))) rfl _ _ (by decide +kernel) (by decide +kernel) _ _ _

end UnstructuredText
