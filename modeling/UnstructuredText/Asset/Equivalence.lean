import UnstructuredText.Lib.Normal
import UnstructuredText.Asset.Resigning

/-! Canonical equivalence. Normalization passes over the characters of a carrier, so texts
with the same normal form carry the same wrappers, if not at the same offsets. They get the
same answers and the same digest, and a binding is good on both where the offsets agree. -/

namespace UnstructuredText
open Machine Sized MarkedRuns

def Wrapper.unplaced (x : Wrapper) : Wrapper := { x with start := 0 }

section Tables
variable (ones twos : List Wrapper) (broken : Bool)

theorem pick_unplaced (xs : List Wrapper) :
    pick (xs.map Wrapper.unplaced) = (pick xs).map Wrapper.unplaced := by
  rcases xs with _ | ⟨x, _ | ⟨y, xs⟩⟩ <;> rfl

theorem decideV1_unplaced :
    decideV1 (ones.map Wrapper.unplaced) (twos.map Wrapper.unplaced) broken =
      (decideV1 ones twos broken).map Wrapper.unplaced := by
  simp only [decideV1, Ne, List.map_eq_nil_iff, pick_unplaced]
  split_ifs <;> rfl

theorem decideV2_unplaced :
    decideV2 (ones.map Wrapper.unplaced) (twos.map Wrapper.unplaced) broken =
      (decideV2 ones twos broken).map Wrapper.unplaced := by
  simp only [decideV2, Ne, List.map_eq_nil_iff, pick_unplaced]
  split_ifs <;> rfl

theorem decideAny_unplaced :
    decideAny (ones.map Wrapper.unplaced) (twos.map Wrapper.unplaced) broken =
      (decideAny ones twos broken).map Wrapper.unplaced := by
  simp only [decideAny, List.map_eq_nil_iff, List.length_map, pick_unplaced, decideV2_unplaced]
  split_ifs <;> rfl

theorem ofVersion_unplaced (v : UInt8) (xs : List Wrapper) :
    Asset.ofVersion v (xs.map Wrapper.unplaced) = (Asset.ofVersion v xs).map Wrapper.unplaced := by
  rw [Asset.ofVersion, List.filter_map]
  rfl

end Tables

section Equivalent
variable {hasher : Hasher} {normalizer : Normalizer} {t t' : Text}
  (h : Normalizes selectors normalizer.nfc) (hsame : normalizer.nfc t' = normalizer.nfc t)
include h hsame

theorem runs_unplaced : (runs t').map Run.unplaced = (runs t).map Run.unplaced :=
  h.map_unplaced_congr 0 0 hsame

theorem shown_equivalent :
    normalizer.nfc (asset hasher t').shown = normalizer.nfc (asset hasher t).shown :=
  h.visible_congr (reads hasher) hsame

theorem wrappers_unplaced : (asset hasher t').wrappers.map Wrapper.unplaced =
    (asset hasher t).wrappers.map Wrapper.unplaced := by
  have hread : ∀ t, (asset hasher t).wrappers.map Wrapper.unplaced =
      (((runs t).map Run.unplaced).filter fun r => Readable hasher r.items).map asWrapper := by
    intro t
    rw [Asset.wrappers, Asset.located_eq, List.filter_map, List.map_map, List.map_map]
    rfl
  rw [hread t', runs_unplaced h hsame, ← hread t]

theorem broken_equivalent : broken hasher t' = broken hasher t := by
  have hany : ∀ s, ((runs s).any fun r => decide (IsCandidate r)) =
      ((runs s).map Run.unplaced).any fun r => decide (IsCandidate r) := by
    intro s
    rw [List.any_map]
    rfl
  unfold broken
  rw [hany, runs_unplaced h (shown_equivalent h hsame), ← hany]

end Equivalent

def composeAcute (c : Char) (s : Text) : Text :=
  if c = 'e' ∧ s.head? = some '\u0301' then 'é' :: s.tail else c :: s

def acute : Normalizer := ⟨fun s => s.foldr composeAcute []⟩

theorem composeAcute_of_ne {c : Char} (hc : c ≠ 'e') (s : Text) : composeAcute c s = c :: s :=
  if_neg fun h => hc h.1

theorem foldr_composeAcute (c : Char) (l s : Text) :
    (composeAcute c l).foldr composeAcute s = composeAcute c (l.foldr composeAcute s) := by
  rw [composeAcute]
  split_ifs with h
  · obtain ⟨rfl, hl⟩ := h
    obtain ⟨l, rfl⟩ := List.head?_eq_some_iff.mp hl
    have haccent := @composeAcute_of_ne '\u0301' (by decide) (l.foldr composeAcute s)
    have hletter := @composeAcute_of_ne 'é' (by decide) (l.foldr composeAcute s)
    rw [List.tail_cons, List.foldr_cons, List.foldr_cons, haccent, hletter, composeAcute,
      if_pos ⟨rfl, rfl⟩, List.tail_cons]
  · rfl

theorem foldr_acute (a s : Text) :
    (acute.nfc a).foldr composeAcute s = a.foldr composeAcute s := by
  induction a with
  | nil => rfl
  | cons c a ih =>
    change (composeAcute c (acute.nfc a)).foldr composeAcute s = _
    rw [foldr_composeAcute, ih]
    rfl

theorem composeAcute_append {c : Char} (hc : c ≠ '\u0301') (d : Char) (l s : Text) :
    composeAcute d (l ++ c :: s) = composeAcute d l ++ c :: s := by
  cases l with
  | nil =>
    have hno : ¬(d = 'e' ∧ (c :: s).head? = some '\u0301') := fun h => hc (Option.some.inj h.2)
    have hno' : ¬(d = 'e' ∧ ([] : Text).head? = some '\u0301') := fun h => nomatch h.2
    rw [List.nil_append, composeAcute, composeAcute, if_neg hno, if_neg hno']
    rfl
  | cons x l =>
    by_cases h : d = 'e' ∧ (x :: l).head? = some '\u0301'
    · rw [composeAcute, composeAcute, if_pos h]
      exact if_pos h
    · rw [composeAcute, composeAcute, if_neg h]
      exact if_neg h

theorem mem_composeAcute {c d : Char} {s : Text} (h : d ∈ composeAcute c s) :
    d = 'é' ∨ d ∈ c :: s := by
  rw [composeAcute] at h
  split_ifs at h
  · exact (List.mem_cons.mp h).imp id fun hs => List.mem_cons_of_mem c (List.mem_of_mem_tail hs)
  · exact .inr h

theorem normalizes_acute : Normalizes selectors acute.nfc where
  split a c b hc := by
    have hletter : c ≠ 'e' := by
      rintro rfl
      exact absurd hc (by decide)
    have haccent : c ≠ '\u0301' := by
      rintro rfl
      exact absurd hc (by decide)
    induction a with
    | nil => exact composeAcute_of_ne hletter _
    | cons d a ih =>
      change composeAcute d (acute.nfc (a ++ c :: b)) = composeAcute d (acute.nfc a) ++ _
      rw [ih, composeAcute_append haccent]
  fresh l := by
    induction l with
    | nil => exact fun _ hc _ => hc
    | cons d l ih =>
      intro c hc hcarries
      rcases mem_composeAcute hc with rfl | hmem
      · exact absurd hcarries (by decide)
      · rcases List.mem_cons.mp hmem with rfl | hmem
        · exact List.mem_cons_self
        · exact List.mem_cons_of_mem d (ih c hmem hcarries)
  empty l := by
    cases l with
    | nil => exact iff_of_true rfl rfl
    | cons c l =>
      refine iff_of_false (fun h => ?_) (List.cons_ne_nil c l)
      change composeAcute c (acute.nfc l) = [] at h
      rw [composeAcute] at h
      split_ifs at h
  joined a b := by
    change (a ++ b).foldr composeAcute [] = (acute.nfc a ++ acute.nfc b).foldr composeAcute []
    rw [List.foldr_append, List.foldr_append, foldr_acute, foldr_acute]

def AnswersAlike (c c' : Exec (Except Error Wrapper)) : Prop :=
  ∃ o o', c = .ok o ∧ c' = .ok o' ∧ o'.map Wrapper.unplaced = o.map Wrapper.unplaced

structure Alike (hasher : Hasher) (normalizer : Normalizer) (t t' : Text) : Prop where
  decided : ∃ xs xs' shown shown' broken, Decides t hasher xs shown broken ∧
    Decides t' hasher xs' shown' broken ∧
    xs'.map Wrapper.unplaced = xs.map Wrapper.unplaced ∧
    normalizer.nfc shown' = normalizer.nfc shown
  v1 : AnswersAlike (extract .w64 t) (extract .w64 t')
  v2 : AnswersAlike (V2.extract .w64 t hasher) (V2.extract .w64 t' hasher)
  any : AnswersAlike (V2.extractAny .w64 t hasher) (V2.extractAny .w64 t' hasher)
  bound : ∀ x x', extract .w64 t = .ok (.ok x) → extract .w64 t' = .ok (.ok x') →
    ∀ alg binder, Resigns t t' x x' alg binder normalizer

/-- Texts with the same normal form are told apart by nothing but offsets. What is asked of
the normalizer is what Unicode states of NFC and the characters of carriers. -/
theorem equivalents_alike {hasher : Hasher} (hlong : V2.LongDigests hasher)
    {normalizer : Normalizer} (h : Normalizes selectors normalizer.nfc) {t t' : Text}
    (hfit : Fits .w64 t) (hfit' : Fits .w64 t') (hsame : normalizer.nfc t' = normalizer.nfc t) :
    Alike hasher normalizer t t' := by
  have hdecides := decides_asset hlong hfit
  have hdecides' := decides_asset hlong hfit'
  have hwrappers := @wrappers_unplaced hasher _ _ _ h hsame
  have hshown := @shown_equivalent hasher _ _ _ h hsame
  rw [broken_equivalent h hsame] at hdecides'
  have hversion : ∀ v, (Asset.ofVersion v (asset hasher t').wrappers).map Wrapper.unplaced =
      (Asset.ofVersion v (asset hasher t).wrappers).map Wrapper.unplaced := by
    intro v
    rw [← ofVersion_unplaced, hwrappers, ofVersion_unplaced]
  refine ⟨⟨_, _, _, _, _, hdecides, hdecides', hwrappers, hshown⟩,
    ⟨_, _, hdecides.v1, hdecides'.v1, ?_⟩, ⟨_, _, hdecides.v2, hdecides'.v2, ?_⟩,
    ⟨_, _, hdecides.any, hdecides'.any, ?_⟩, fun x x' hx hx' alg binder => ?_⟩
  · rw [← decideV1_unplaced, hversion, hversion, decideV1_unplaced]
  · rw [← decideV2_unplaced, hversion, hversion, decideV2_unplaced]
  · rw [← decideAny_unplaced, hversion, hversion, decideAny_unplaced]
  · exact resigns_of_shown hlong hfit hfit' hx hx' alg binder hshown

theorem equivalents_alike_composed : Alike ⟨fun _ _ => [1, 2, 3, 4]⟩ acute
    (['e', '\u0301'] ++ carrier [7] []) ('é' :: carrier [7] []) :=
  @equivalents_alike ⟨fun _ _ => [1, 2, 3, 4]⟩ (fun _ _ => Nat.le_refl 4) _ normalizes_acute _ _
    (by decide) (by decide) (by decide +kernel)

end UnstructuredText
