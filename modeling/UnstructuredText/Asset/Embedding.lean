import UnstructuredText.Asset.History

/-! Embedding in terms of the tables. Whatever a text carries, an encoder adds one wrapper
to those located and changes nothing else, so the three extractors answer about the asset as
their tables say. -/

namespace UnstructuredText
open Machine Sized MarkedRuns

section Attach
variable {hasher : Hasher} {t : Text} {bytes : List UInt8}

theorem wrappers_attach (h : Readable hasher bytes) :
    (asset hasher (t ++ marker :: encodeRun bytes)).wrappers =
      (asset hasher t).wrappers ++
        [asWrapper ⟨bytes, strLen t, strLen (marker :: encodeRun bytes)⟩] := by
  rw [Asset.wrappers, Asset.wrappers, Asset.located_eq, Asset.located_eq, runs_append_encoded,
    List.filter_append, List.filter_singleton, decide_eq_true h, List.map_append]
  rfl

theorem shown_attach (h : Readable hasher bytes) :
    (asset hasher (t ++ marker :: encodeRun bytes)).shown = (asset hasher t).shown := by
  have hedits := Edits.step (edit_attach t h) (.done _)
  apply hedits.visible_eq
  intro c hc
  obtain rfl := List.mem_singleton.mp hc
  rfl

theorem broken_attach (h : Readable hasher bytes) :
    broken hasher (t ++ marker :: encodeRun bytes) = broken hasher t := by
  unfold broken
  rw [shown_attach h]

theorem decides_attach (hlong : V2.LongDigests hasher) (h : Readable hasher bytes)
    (hfit : Fits .w64 (t ++ marker :: encodeRun bytes)) :
    Decides (t ++ marker :: encodeRun bytes) hasher ((asset hasher t).wrappers ++
        [asWrapper ⟨bytes, strLen t, strLen (marker :: encodeRun bytes)⟩])
      (asset hasher t).shown (broken hasher t) := by
  have hdecides := decides_asset hlong hfit
  rwa [wrappers_attach h, shown_attach h, broken_attach h] at hdecides

end Attach

section Tables
variable {xs : List Wrapper} {x : Wrapper}

theorem ofVersion_append_self {v : UInt8} (hx : x.version = v) :
    Asset.ofVersion v (xs ++ [x]) = Asset.ofVersion v xs ++ [x] := by
  rw [Asset.ofVersion, List.filter_append, List.filter_singleton, decide_eq_true hx]
  rfl

theorem ofVersion_append_other {v : UInt8} (hx : x.version ≠ v) :
    Asset.ofVersion v (xs ++ [x]) = Asset.ofVersion v xs := by
  rw [Asset.ofVersion, List.filter_append, List.filter_singleton, decide_eq_false hx]
  exact List.append_nil _

theorem pick_append_iff : pick (xs ++ [x]) = .ok x ↔ xs = [] := by
  rw [pick_ok_iff]
  exact List.append_left_eq_self

theorem ofVersions_nil_iff (h : ∀ y ∈ xs, y.version = 1 ∨ y.version = 2) :
    xs = [] ↔ Asset.ofVersion 1 xs = [] ∧ Asset.ofVersion 2 xs = [] := by
  constructor
  · rintro rfl
    exact ⟨rfl, rfl⟩
  · rintro ⟨hones, htwos⟩
    apply List.eq_nil_iff_forall_not_mem.mpr
    intro y hy
    rcases h y hy with hv | hv
    · exact List.filter_eq_nil_iff.mp hones y hy (decide_eq_true hv)
    · exact List.filter_eq_nil_iff.mp htwos y hy (decide_eq_true hv)

end Tables

structure Embeds1 (asset : Text) (hasher : Hasher) (xs : List Wrapper) (shown : Text)
    (broken : Bool) (x : Wrapper) : Prop where
  decides : Decides asset hasher (xs ++ [x]) shown broken
  extract : extract .w64 asset = .ok (.ok x) ↔ broken = false ∧ xs = []
  any : V2.extractAny .w64 asset hasher = .ok (.ok x) ↔ broken = false ∧ xs = []

structure Embeds2 (asset : Text) (hasher : Hasher) (xs : List Wrapper) (shown : Text)
    (broken : Bool) (x : Wrapper) : Prop where
  decides : Decides asset hasher (xs ++ [x]) shown broken
  corrupted : UnstructuredText.extract .w64 asset = .ok (.error .corruptedWrapper)
  extract : V2.extract .w64 asset hasher = .ok (.ok x) ↔ Asset.ofVersion 2 xs = []
  any : V2.extractAny .w64 asset hasher = .ok (.ok x) ↔ Asset.ofVersion 2 xs = []

section Answers
variable {asset : Text} {hasher : Hasher} {xs : List Wrapper} {shown : Text} {broken : Bool}
  {x : Wrapper} (h : Decides asset hasher (xs ++ [x]) shown broken)
include h

theorem embeds1_of_decides (hx : x.version = 1) : Embeds1 asset hasher xs shown broken x := by
  have hother : x.version ≠ 2 := by rw [hx]; decide
  have hnil := ofVersions_nil_iff fun y hy => h.versions y (List.mem_append_left _ hy)
  have hv1 := h.v1
  have hany := h.any
  rw [ofVersion_append_self hx, ofVersion_append_other hother] at hv1 hany
  refine ⟨h, ?_, ?_⟩
  · rw [hv1, Except.ok.injEq, decideV1, hnil]
    split_ifs with hbad
    · refine iff_of_false (fun hok => nomatch hok) ?_
      rintro ⟨hwhole, _, htwos⟩
      rcases hbad with hbroken | hne
      · exact Bool.false_ne_true (hwhole.symm.trans hbroken)
      · exact hne htwos
    · rw [not_or, not_not, Bool.not_eq_true] at hbad
      rw [pick_append_iff, and_iff_right hbad.1, and_iff_left hbad.2]
  · rw [hany, Except.ok.injEq, decideAny, hnil]
    have hlength : (Asset.ofVersion 1 xs ++ [x]).length = 1 ↔ Asset.ofVersion 1 xs = [] := by
      rw [List.length_append, List.length_singleton, Nat.add_eq_right, List.length_eq_zero_iff]
    split_ifs with hone
    · rw [pick_append_iff, and_iff_right hone.1, and_iff_left hone.2.1]
    · refine iff_of_false (fun hok => ?_) fun hc =>
        hone ⟨hc.1, hc.2.2, hlength.mpr hc.2.1⟩
      -- version 2 is asked, and can only return a wrapper of its own
      unfold decideV2 at hok
      split_ifs at hok
      have hmem : x ∈ Asset.ofVersion 2 xs := by
        rw [pick_ok_iff.mp hok]
        exact List.mem_singleton_self x
      exact hother (of_decide_eq_true (List.mem_filter.mp hmem).2)

theorem embeds2_of_decides (hx : x.version = 2) : Embeds2 asset hasher xs shown broken x := by
  have hother : x.version ≠ 1 := by rw [hx]; decide
  have hv1 := h.v1
  have hv2 := h.v2
  have hany := h.any
  rw [ofVersion_append_self hx, ofVersion_append_other hother] at hv1 hv2 hany
  have hne : Asset.ofVersion 2 xs ++ [x] ≠ [] :=
    List.append_ne_nil_of_right_ne_nil _ (List.cons_ne_nil _ _)
  refine ⟨h, ?_, ?_, ?_⟩
  · rw [hv1, decideV1, if_pos (.inr hne)]
  · rw [hv2, Except.ok.injEq, decideV2, if_neg fun hc => hne hc.1, pick_append_iff]
  · rw [hany, Except.ok.injEq, decideAny, if_neg fun hc => hne hc.2.1, decideV2,
      if_neg fun hc => hne hc.1, pick_append_iff]

end Answers

structure Encoders (hasher : Hasher) (t : Text) (p : List UInt8) (xs : List Wrapper)
    (shown : Text) (broken : Bool) : Prop where
  embed : ∃ c, (Action.embed p).perform hasher t = .ok (.ok (t ++ c)) ∧
    (Fits .w64 (t ++ c) →
      Embeds1 (t ++ c) hasher xs shown broken ⟨p, 1, strLen t, strLen c⟩)
  embedPadded : ∃ c, (Action.embedPadded p).perform hasher t = .ok (.ok (t ++ c)) ∧
    strLen c = paddedLen p.length ∧ (Fits .w64 (t ++ c) →
      Embeds1 (t ++ c) hasher xs shown broken ⟨p, 1, strLen t, strLen c⟩)
  embedV2 : ∃ c, (Action.embedV2 p).perform hasher t = .ok (.ok (t ++ c)) ∧
    (Fits .w64 (t ++ c) →
      Embeds2 (t ++ c) hasher xs shown broken ⟨p, 2, strLen t, strLen c⟩)

section Encoded
variable {hasher : Hasher} (hlong : V2.LongDigests hasher) {t : Text} {payload : List UInt8}
  (hlen : payload.length ≤ u32Max)
include hlong hlen

theorem embeds1_carrier (pad : List UInt8) (hfit : Fits .w64 (t ++ carrier payload pad)) :
    Embeds1 (t ++ carrier payload pad) hasher (asset hasher t).wrappers (asset hasher t).shown
      (broken hasher t) ⟨payload, 1, strLen t, strLen (carrier payload pad)⟩ := by
  have hdecides := decides_attach hlong (readable_frame hlen pad) hfit
  have hwrapper : asWrapper ⟨frame version payload pad, strLen t, strLen (carrier payload pad)⟩ =
      ⟨payload, 1, strLen t, strLen (carrier payload pad)⟩ := by
    rw [asWrapper, body_frame version pad hlen]
    rfl
  exact embeds1_of_decides (hwrapper ▸ hdecides) rfl

theorem embeds2_carrier (hfit : Fits .w64 (t ++ V2.carrier hasher payload [])) :
    Embeds2 (t ++ V2.carrier hasher payload []) hasher (asset hasher t).wrappers
      (asset hasher t).shown (broken hasher t)
      ⟨payload, 2, strLen t, strLen (V2.carrier hasher payload [])⟩ := by
  have hdecides := decides_attach hlong (readable_checked hlen hlong []) hfit
  obtain ⟨_, _, hbody⟩ := (@V2.valid_iff_frame hasher hlong _ payload 0 0).mpr ⟨hlen, [], rfl⟩
  have hwrapper : asWrapper ⟨V2.checked payload ++ V2.checksum hasher (V2.checked payload) ++ [],
      strLen t, strLen (V2.carrier hasher payload [])⟩ =
      ⟨payload, 2, strLen t, strLen (V2.carrier hasher payload [])⟩ := by
    rw [asWrapper, hbody]
    rfl
  exact embeds2_of_decides (hwrapper ▸ hdecides) rfl

end Encoded

/-- An encoder of either version adds its wrapper behind those of both versions, and the
payload is extracted again exactly when nothing that the extractor minds was there. -/
theorem encoders_decided {hasher : Hasher} (hlong : V2.LongDigests hasher) {t : Text}
    (hfit : Fits .w64 t) {p : List UInt8} (hlen : p.length ≤ u32Max) :
    ∃ xs shown broken, Decides t hasher xs shown broken ∧
      Encoders hasher t p xs shown broken := by
  refine ⟨_, _, _, decides_asset hlong hfit, ?_, ?_, ?_⟩
  · exact ⟨_, perform_embed hasher hlen t, embeds1_carrier hlong hlen []⟩
  · obtain ⟨pad, hpadded, hperform⟩ := perform_embedPadded hasher hlen t
    exact ⟨_, hperform, hpadded, embeds1_carrier hlong hlen pad⟩
  · exact ⟨_, perform_embedV2 hasher hlen t hlong, embeds2_carrier hlong hlen⟩

theorem encoders_decided_signed : ∃ xs shown broken,
    Decides ('a' :: carrier [7] []) ⟨fun _ _ => [1, 2, 3, 4]⟩ xs shown broken ∧
      Encoders ⟨fun _ _ => [1, 2, 3, 4]⟩ ('a' :: carrier [7] []) [8] xs shown broken :=
  @encoders_decided ⟨fun _ _ => [1, 2, 3, 4]⟩ (fun _ _ => Nat.le_refl 4) _ (by decide) _
    (by decide)

end UnstructuredText
