import UnstructuredText.Asset.History

/-! Cleaning. Wrappers of either version are stripped one at a time, each where it is
located at that moment. However they are chosen, the same number of strips removes them
all and leaves the same text. -/

namespace UnstructuredText
open Machine Sized MarkedRuns

def Strips (as : List Action) : Prop := ∀ a ∈ as, ∃ x, a = .strip x

section Strips
variable {as : List Action} (h : Strips as)
include h

theorem gained_strips (hasher : Hasher) : as.flatMap (Action.gained hasher) = [] := by
  apply List.flatMap_eq_nil_iff.mpr
  intro a ha
  obtain ⟨x, rfl⟩ := h a ha
  rfl

theorem shown_strips (hasher : Hasher) : as.flatMap (Action.shown hasher) = [] := by
  apply List.flatMap_eq_nil_iff.mpr
  intro a ha
  obtain ⟨x, rfl⟩ := h a ha
  rfl

theorem lost_strips : (as.flatMap Action.lost).length = as.length := by
  induction as with
  | nil => rfl
  | cons a as ih =>
    obtain ⟨x, rfl⟩ := h a List.mem_cons_self
    rw [List.flatMap_cons, List.length_append, ih fun b hb => h b (List.mem_cons_of_mem _ hb),
      List.length_cons, Nat.add_comm]
    rfl

end Strips

section Clean
variable {hasher : Hasher} {t : Text}

theorem eq_shown_of_wrappers (h : (asset hasher t).wrappers = []) : t = (asset hasher t).shown := by
  have hcarried : carried (asset hasher t).tokens = [] := by
    rw [← List.length_eq_zero_iff, ← located_length selectors 0]
    rw [Asset.wrappers, List.map_eq_nil_iff] at h
    rw [h]
    rfl
  have hrender := congrArg (render selectors) (eq_items_of_carried hcarried)
  rw [render_items] at hrender
  exact (Asset.text_asset t).symm.trans hrender

theorem shown_shown (d : Asset hasher) : (asset hasher d.shown).shown = d.shown :=
  (eq_shown_of_wrappers (Asset.wrappers_shown d)).symm

theorem broken_shown (t : Text) : broken hasher (asset hasher t).shown = broken hasher t := by
  unfold broken
  rw [shown_shown]

theorem extract_shown (hfit : Fits .w64 t) : extract .w64 (asset hasher t).shown =
    .ok (.error (if broken hasher t = true then .corruptedWrapper else .notFound)) := by
  have hnone := Asset.wrappers_shown (asset hasher t)
  have hnone1 := @Asset.ofVersion_one hasher (asset hasher t).shown
  have hnone2 := @Asset.ofVersion_two hasher (asset hasher t).shown
  rw [hnone] at hnone1 hnone2
  rw [extract_eq .w64 (Asset.fits_shown hfit), verdict_eq_decide hasher, ← hnone1, ← hnone2,
    broken_shown]
  unfold decideV1
  split_ifs with hbad hbroken hbroken
  · rfl
  · exact absurd (hbad.resolve_right fun hne => hne rfl) hbroken
  · exact absurd (.inl hbroken) hbad
  · rfl

variable (hlong : V2.LongDigests hasher)
include hlong

theorem applies_strip_iff (hfit : Fits .w64 t) {x : Wrapper} :
    Applies hasher t (.strip x) ↔ x ∈ (asset hasher t).wrappers := by
  have hdecides := decides_asset hlong hfit
  constructor
  · intro hx
    cases hx with
    | strip hws hx =>
      obtain rfl := Except.ok.inj (hdecides.ones.symm.trans hws)
      exact (List.mem_filter.mp hx).1
    | stripV2 hws hx =>
      obtain rfl := Except.ok.inj (hdecides.twos.symm.trans hws)
      exact (List.mem_filter.mp hx).1
  · intro hx
    rcases hdecides.versions x hx with hv | hv
    · exact .strip hdecides.ones (List.mem_filter.mpr ⟨hx, decide_eq_true hv⟩)
    · exact .stripV2 hdecides.twos (List.mem_filter.mpr ⟨hx, decide_eq_true hv⟩)

theorem exists_strip_iff (hfit : Fits .w64 t) :
    (∃ x, Applies hasher t (.strip x)) ↔ (asset hasher t).wrappers ≠ [] := by
  simp only [applies_strip_iff hlong hfit]
  exact ⟨fun ⟨_, hx⟩ => List.ne_nil_of_mem hx, List.exists_mem_of_ne_nil _⟩

variable {as : List Action} {t' : Text} (h : History hasher t as t') (hstrips : Strips as)
include h hstrips

theorem strips_count :
    (asset hasher t').wrappers.length + as.length = (asset hasher t).wrappers.length := by
  have hlen := (h.contents_perm hlong).length_eq
  rw [gained_strips hstrips, List.append_nil, List.length_append, List.length_map,
    List.length_map, lost_strips hstrips] at hlen
  exact hlen.symm

theorem strips_shown : (asset hasher t').shown = (asset hasher t).shown :=
  h.shown_eq hlong (shown_strips hstrips hasher)

end Clean

structure Cleans (hasher : Hasher) (t : Text) (xs : List Wrapper) (shown : Text)
    (broken : Bool) : Prop where
  bounded : ∀ as t', History hasher t as t' → Strips as → as.length ≤ xs.length
  live : ∀ as t', History hasher t as t' → Strips as → as.length < xs.length →
    ∃ x, Applies hasher t' (.strip x)
  final : ∀ as t', History hasher t as t' → Strips as → as.length = xs.length →
    t' = shown ∧ ∀ x, ¬Applies hasher t' (.strip x)
  unsigned : extract .w64 shown =
    .ok (.error (if broken = true then .corruptedWrapper else .notFound))

theorem strips_confluent {hasher : Hasher} (hlong : V2.LongDigests hasher) {t : Text}
    (hfit : Fits .w64 t) : ∃ xs shown broken, Decides t hasher xs shown broken ∧
      Cleans hasher t xs shown broken := by
  refine ⟨_, _, _, decides_asset hlong hfit, ?_, ?_, ?_, extract_shown hfit⟩
  · intro as t' h hstrips
    exact Nat.le_of_add_left_le (Nat.le_of_eq (strips_count hlong h hstrips))
  · intro as t' h hstrips hlt
    rw [exists_strip_iff hlong h.fits.2]
    intro hnil
    have hcount := strips_count hlong h hstrips
    rw [hnil, List.length_nil, Nat.zero_add] at hcount
    exact Nat.lt_irrefl _ (hcount ▸ hlt)
  · intro as t' h hstrips hlen
    have hcount := strips_count hlong h hstrips
    rw [hlen, Nat.add_eq_right, List.length_eq_zero_iff] at hcount
    refine ⟨?_, fun x hx => (exists_strip_iff hlong h.fits.2).mp ⟨x, hx⟩ hcount⟩
    rw [← strips_shown hlong h hstrips]
    exact eq_shown_of_wrappers hcount

theorem strips_confluent_mixed : ∃ xs shown broken,
    Decides ('a' :: carrier [7] [] ++ V2.carrier ⟨fun _ _ => [1, 2, 3, 4]⟩ [8] [])
      ⟨fun _ _ => [1, 2, 3, 4]⟩ xs shown broken ∧
    Cleans ⟨fun _ _ => [1, 2, 3, 4]⟩
      ('a' :: carrier [7] [] ++ V2.carrier ⟨fun _ _ => [1, 2, 3, 4]⟩ [8] []) xs shown broken :=
  @strips_confluent ⟨fun _ _ => [1, 2, 3, 4]⟩ (fun _ _ => Nat.le_refl 4) _ (by decide)

end UnstructuredText
