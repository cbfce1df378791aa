import UnstructuredText.Asset.Document

/-! Outcomes as tables. What each of the three extractors answers is a function of three
things: the wrappers located under version 1, those located under version 2, and whether
anything that bears the magic is left once all of them are excluded. -/

namespace UnstructuredText
open Machine Sized MarkedRuns

def pick : List Wrapper → Except Error Wrapper
  | [x] => .ok x
  | [] => .error .notFound
  | _ => .error .multipleWrappers

def decideV1 (ones twos : List Wrapper) (broken : Bool) : Except Error Wrapper :=
  if broken = true ∨ twos ≠ [] then .error .corruptedWrapper else pick ones

def decideV2 (ones twos : List Wrapper) (broken : Bool) : Except Error Wrapper :=
  if twos = [] ∧ (broken = true ∨ ones ≠ []) then .error .corruptedWrapper else pick twos

def decideAny (ones twos : List Wrapper) (broken : Bool) : Except Error Wrapper :=
  if broken = false ∧ twos = [] ∧ ones.length = 1 then pick ones else decideV2 ones twos broken

theorem pick_ok_iff {xs : List Wrapper} {x : Wrapper} : pick xs = .ok x ↔ xs = [x] := by
  rcases xs with _ | ⟨y, _ | ⟨z, xs⟩⟩ <;> simp [pick]

section Candidates
variable (hasher : Hasher) (text : Text)

def broken : Bool := (runs (asset hasher text).shown).any fun r => IsCandidate r

theorem broken_iff : broken hasher text = true ↔
    ∃ r ∈ candidates text, ¬Readable hasher r.items := by
  have hitems := map_items_unread selectors (reads hasher) 0 0 text
  have hmap : ∀ rs : List (Run UInt8), (rs.any fun r => decide (IsCandidate r)) =
      (rs.map Run.items).any fun bytes => decide (magic <+: bytes) := by
    intro rs
    rw [List.any_map]
    rfl
  unfold broken
  rw [hmap]
  change (((runs (visible (lex selectors (reads hasher) text))).map Run.items).any _) = true ↔ _
  rw [runs, ← hitems, ← hmap, List.any_eq_true]
  simp only [candidates, List.mem_filter, decide_eq_true_eq, reads, Bool.not_eq_true',
    decide_eq_false_iff_not]
  constructor
  · rintro ⟨r, ⟨hr, hunread⟩, hcand⟩
    exact ⟨r, ⟨hr, hcand⟩, hunread⟩
  · rintro ⟨r, ⟨hr, hcand⟩, hunread⟩
    exact ⟨r, ⟨hr, hunread⟩, hcand⟩

variable {hasher text}

theorem isValid_of_readable {r : Run UInt8} (h : Readable hasher r.items) :
    IsValid r ∨ V2.IsValid hasher r := h.2

theorem readable_of_mem {r : Run UInt8} (hr : r ∈ candidates text)
    (h : IsValid r ∨ V2.IsValid hasher r) : Readable hasher r.items :=
  ⟨of_decide_eq_true (List.mem_filter.mp hr).2, h⟩

theorem twos_ne_nil_iff : V2.wrappers hasher text ≠ [] ↔
    ∃ r ∈ candidates text, V2.IsValid hasher r := by
  rw [V2.wrappers_eq, Ne, List.map_eq_nil_iff, V2.valid_eq_nil_iff]
  simp only [not_forall, not_not, exists_prop]

theorem ones_ne_nil_iff : wrappers text ≠ [] ↔ ∃ r ∈ candidates text, IsValid r := by
  rw [wrappers_eq, Ne, List.map_eq_nil_iff, List.filter_eq_nil_iff]
  simp only [decide_eq_true_eq, not_forall, not_not, exists_prop]

theorem exists_invalid_iff : (∃ r ∈ candidates text, ¬IsValid r) ↔
    broken hasher text = true ∨ V2.wrappers hasher text ≠ [] := by
  rw [broken_iff, twos_ne_nil_iff]
  constructor
  · rintro ⟨r, hr, hbad⟩
    by_cases hread : Readable hasher r.items
    · exact .inr ⟨r, hr, (isValid_of_readable hread).resolve_left hbad⟩
    · exact .inl ⟨r, hr, hread⟩
  · rintro (⟨r, hr, hunread⟩ | ⟨r, hr, hvalid⟩)
    · exact ⟨r, hr, fun hv => hunread (readable_of_mem hr (.inl hv))⟩
    · exact ⟨r, hr, fun hv => V2.not_isValid_of_v1 hv hvalid⟩

theorem candidates_ne_nil_iff : candidates text ≠ [] ↔
    broken hasher text = true ∨ wrappers text ≠ [] ∨ V2.wrappers hasher text ≠ [] := by
  rw [broken_iff, ones_ne_nil_iff, twos_ne_nil_iff]
  constructor
  · intro hne
    obtain ⟨r, hr⟩ := List.exists_mem_of_ne_nil _ hne
    by_cases hread : Readable hasher r.items
    · exact .inr ((isValid_of_readable hread).imp (fun h => ⟨r, hr, h⟩) fun h => ⟨r, hr, h⟩)
    · exact .inl ⟨r, hr, hread⟩
  · rintro (⟨r, hr, _⟩ | ⟨r, hr, _⟩ | ⟨r, hr, _⟩) <;> exact List.ne_nil_of_mem hr

end Candidates

section Verdicts
variable (hasher : Hasher) (text : Text)

theorem pick_toWrapper (rs : List (Run UInt8)) : pick (rs.map toWrapper) = single rs := by
  rcases rs with _ | ⟨r, _ | ⟨s, rs⟩⟩ <;> rfl

theorem verdict_eq_decide : verdict (candidates text) =
    decideV1 (wrappers text) (V2.wrappers hasher text) (broken hasher text) := by
  unfold verdict decideV1
  by_cases hbad : ∃ r ∈ candidates text, ¬IsValid r
  · rw [if_pos hbad, if_pos (exists_invalid_iff.mp hbad)]
  · have hall : (candidates text).filter (fun r => IsValid r) = candidates text :=
      List.filter_eq_self.mpr fun r hr => decide_eq_true (not_not.mp fun hv => hbad ⟨r, hr, hv⟩)
    rw [if_neg hbad, if_neg (mt exists_invalid_iff.mpr hbad), wrappers_eq, hall, pick_toWrapper]

theorem verdict2_eq_decide : V2.verdict hasher (candidates text) =
    decideV2 (wrappers text) (V2.wrappers hasher text) (broken hasher text) := by
  have hnone := @candidates_ne_nil_iff hasher text
  unfold V2.verdict decideV2
  rw [V2.wrappers_eq] at hnone ⊢
  generalize V2.valid hasher (candidates text) = rs at hnone ⊢
  rcases rs with _ | ⟨r, _ | ⟨s, rs⟩⟩
  · rw [List.map_nil, ne_self_iff_false, or_false] at hnone
    by_cases hcand : candidates text = []
    · rw [if_pos hcand, if_neg fun hc => hnone.mpr hc.2 hcand]
      rfl
    · rw [if_neg hcand, if_pos ⟨rfl, hnone.mp hcand⟩]
  · exact (if_neg fun hc => List.cons_ne_nil _ _ hc.1).symm
  · exact (if_neg fun hc => List.cons_ne_nil _ _ hc.1).symm

theorem anyVerdict_eq_decide : V2.anyVerdict hasher (candidates text) =
    decideAny (wrappers text) (V2.wrappers hasher text) (broken hasher text) := by
  have h1 := verdict_eq_decide hasher text
  unfold decideAny
  split_ifs with hone
  · obtain ⟨hwhole, htwos, hlen⟩ := hone
    obtain ⟨x, hx⟩ := List.length_eq_one_iff.mp hlen
    have hpick : verdict (candidates text) = .ok x := by
      rw [h1, hwhole, htwos, hx]
      rfl
    rw [V2.anyVerdict_of_ok hpick, hx]
    rfl
  · rw [← verdict2_eq_decide]
    by_cases hcand : candidates text = []
    · rw [hcand]
      rfl
    · -- version 1 has no answer: it saw a wrapper too many or one it does not decode
      cases hv : verdict (candidates text) with
      | error e => exact V2.anyVerdict_of_error hv hcand
      | ok x =>
        refine absurd ?_ hone
        rw [h1] at hv
        unfold decideV1 at hv
        split_ifs at hv with hbad
        rw [not_or, not_not, Bool.not_eq_true] at hbad
        exact ⟨hbad.1, hbad.2, congrArg List.length (pick_ok_iff.mp hv)⟩

end Verdicts

/-- The answers about a text in which `xs` is located, `shown` is left without it, and
`broken` tells whether something in there still bears the magic. -/
structure Decides (text : Text) (hasher : Hasher) (xs : List Wrapper) (shown : Text)
    (broken : Bool) : Prop where
  versions : ∀ x ∈ xs, x.version = 1 ∨ x.version = 2
  ones : locateAll .w64 text = .ok (Asset.ofVersion 1 xs)
  twos : V2.locateAll .w64 text hasher = .ok (Asset.ofVersion 2 xs)
  disjoint : xs.Pairwise fun x y => x.start + x.length ≤ y.start
  excluded : applyExclusions .w64 text (xs.map Wrapper.exclusion) = .ok (.ok shown)
  left : locateAll .w64 shown = .ok [] ∧ V2.locateAll .w64 shown hasher = .ok [] ∧
    hasCandidate .w64 shown = .ok broken
  v1 : extract .w64 text = .ok (decideV1 (Asset.ofVersion 1 xs) (Asset.ofVersion 2 xs) broken)
  v2 : V2.extract .w64 text hasher =
    .ok (decideV2 (Asset.ofVersion 1 xs) (Asset.ofVersion 2 xs) broken)
  any : V2.extractAny .w64 text hasher =
    .ok (decideAny (Asset.ofVersion 1 xs) (Asset.ofVersion 2 xs) broken)

theorem decides_asset {hasher : Hasher} (hlong : V2.LongDigests hasher) {text : Text}
    (hfit : Fits .w64 text) : Decides text hasher (asset hasher text).wrappers
      (asset hasher text).shown (broken hasher text) := by
  have hones : Asset.ofVersion 1 (asset hasher text).wrappers = wrappers text :=
    Asset.ofVersion_one text
  have htwos : Asset.ofVersion 2 (asset hasher text).wrappers = V2.wrappers hasher text :=
    Asset.ofVersion_two text
  have hshown := @Asset.fits_shown hasher _ _ hfit
  have hnone := Asset.wrappers_shown (asset hasher text)
  have hnone1 := @Asset.ofVersion_one hasher (asset hasher text).shown
  have hnone2 := @Asset.ofVersion_two hasher (asset hasher text).shown
  rw [hnone] at hnone1 hnone2
  refine ⟨fun x hx => Asset.version_cases hx, ?_, ?_, Asset.wrappers_disjoint text,
    Asset.applyExclusions_wrappers hfit, ⟨?_, ?_, ?_⟩, ?_, ?_, ?_⟩
  · rw [hones, locateAll_eq .w64 hfit]
  · rw [htwos, V2.locateAll_eq hlong hfit]
  · rw [locateAll_eq .w64 hshown, ← hnone1]
    rfl
  · rw [V2.locateAll_eq hlong hshown, ← hnone2]
    rfl
  · exact hasCandidate_eq .w64 hshown
  · rw [hones, htwos, extract_eq .w64 hfit, verdict_eq_decide hasher]
  · rw [hones, htwos, V2.extract_eq hlong hfit, verdict2_eq_decide]
  · rw [hones, htwos, V2.extractAny_eq hlong hfit, anyVerdict_eq_decide]

theorem extractors_decided {hasher : Hasher} (hlong : V2.LongDigests hasher) {text : Text}
    (hfit : Fits .w64 text) : ∃ xs shown broken, Decides text hasher xs shown broken :=
  ⟨_, _, _, decides_asset hlong hfit⟩

theorem extractors_decided_mixed : ∃ xs shown broken,
    Decides ('a' :: carrier [7] [] ++ V2.carrier ⟨fun _ _ => [1, 2, 3, 4]⟩ [8] [])
      ⟨fun _ _ => [1, 2, 3, 4]⟩ xs shown broken :=
  @extractors_decided ⟨fun _ _ => [1, 2, 3, 4]⟩ (fun _ _ => Nat.le_refl 4) _ (by decide)

end UnstructuredText
