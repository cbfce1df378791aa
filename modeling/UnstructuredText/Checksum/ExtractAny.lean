import UnstructuredText.Checksum.Verdict

/-! `extractAny` over texts that mix the two versions. It returns a version 2 wrapper
whatever stands beside it, and several valid version 1 wrappers come out as corruption;
apart from these two kinds of text it is what each extractor is alone. -/

namespace UnstructuredText.V2
open Machine Sized MarkedRuns Lists

structure Alone (text : Text) (hasher : Hasher) (x : Wrapper) : Prop where
  run : ∃ c : Candidate text, (∀ c', c' = c) ∧ x.start = strLen c.before ∧
    x.length = strLen c.block
  located : ∃ ws ws2, UnstructuredText.locateAll .w64 text = .ok ws ∧
    locateAll .w64 text hasher = .ok ws2 ∧ ws ++ ws2 = [x]

/-- One candidate is a valid version 2 wrapper, and it stands beside others that are not. -/
def Beside (text : Text) (hasher : Hasher) : Prop :=
  ∃ c c' : Candidate text, c' ≠ c ∧ ∀ d : Candidate text, IsValid hasher d.asRun ↔ d = c

section Alone
variable {hasher : Hasher} (hlong : LongDigests hasher) {text : Text} (hfit : Fits .w64 text)

theorem valid_candidates_iff {r : Run UInt8} : valid hasher (candidates text) = [r] ↔
    ∃ c : Candidate text, r = c.asRun ∧ ∀ d : Candidate text, IsValid hasher d.asRun ↔ d = c := by
  have hmem : ∀ d : Candidate text,
      d.asRun ∈ valid hasher (candidates text) ↔ IsValid hasher d.asRun := fun d => by
    rw [valid, List.mem_filter, decide_eq_true_eq, and_iff_right d.mem]
  constructor
  · intro h
    have hr : r ∈ valid hasher (candidates text) := h ▸ List.mem_singleton_self r
    obtain ⟨c, rfl⟩ := mem_candidates_iff.mp (List.mem_filter.mp hr).1
    refine ⟨c, rfl, fun d => ?_⟩
    rw [← hmem, h, List.mem_singleton]
    exact ⟨Candidate.ext_of_asRun, fun heq => heq ▸ rfl⟩
  · rintro ⟨c, rfl, hc⟩
    refine eq_singleton_of_nodup ((candidates_nodup text).filter _) ((hmem c).mpr ((hc c).mpr rfl))
      fun r hr => ?_
    obtain ⟨d, rfl⟩ := mem_candidates_iff.mp (List.mem_filter.mp hr).1
    rw [(hc d).mp ((hmem d).mp hr)]

include hlong hfit

theorem alone_of_wrappers {c : Candidate text} (hc : ∀ c', c' = c) {x : Wrapper}
    (hstart : x.start = c.start) (hlength : x.length = strLen c.block)
    (hws : UnstructuredText.wrappers text ++ wrappers hasher text = [x]) : Alone text hasher x :=
  ⟨⟨c, hc, hstart, hlength⟩, _, _, UnstructuredText.locateAll_eq .w64 hfit,
    locateAll_eq hlong hfit, hws⟩

theorem alone_of_v1 {x : Wrapper} (h : UnstructuredText.verdict (candidates text) = .ok x) :
    Alone text hasher x := by
  obtain ⟨r, hr, hvalid, rfl⟩ := UnstructuredText.verdict_ok_iff.mp h
  obtain ⟨c, hc, rfl⟩ := candidates_eq_singleton_iff.mp hr
  refine alone_of_wrappers hlong hfit hc rfl rfl ?_
  rw [wrappers_of_candidates hr hvalid, wrappers_eq, hr, valid, List.filter_singleton,
    decide_eq_false (not_isValid_of_v1 hvalid)]
  rfl

theorem alone_of_v2 {x : Wrapper} (h : verdict hasher (candidates text) = .ok x)
    (hbeside : ¬Beside text hasher) : Alone text hasher x := by
  obtain ⟨r, hr, rfl⟩ := verdict_ok_iff.mp h
  obtain ⟨c, rfl, hvalid⟩ := valid_candidates_iff.mp hr
  have hc : ∀ c', c' = c := fun c' => not_not.mp fun hne => hbeside ⟨c, c', hne, hvalid⟩
  have hone := candidates_eq_singleton_iff.mpr ⟨c, hc, rfl⟩
  have hnot : ¬UnstructuredText.IsValid c.asRun := fun hv1 =>
    not_isValid_of_v1 hv1 ((hvalid c).mpr rfl)
  refine alone_of_wrappers hlong hfit hc rfl rfl ?_
  rw [UnstructuredText.wrappers_eq, wrappers_eq, hr, hone, List.filter_singleton,
    decide_eq_false hnot]
  rfl

theorem extractAny_alone_iff :
    (∀ x, extractAny .w64 text hasher = .ok (.ok x) → Alone text hasher x) ↔
      ¬Beside text hasher := by
  rw [extractAny_eq hlong hfit]
  simp only [Except.ok.injEq]
  constructor
  · rintro halone ⟨c, c', hne, hvalid⟩
    -- version 1 rejects the version 2 frame as corrupted, and version 2 sees only that frame
    have hbad : UnstructuredText.verdict (candidates text) = .error .corruptedWrapper :=
      UnstructuredText.verdict_corrupted
        ⟨c.asRun, c.mem, fun hv1 => not_isValid_of_v1 hv1 ((hvalid c).mpr rfl)⟩
    have hok : verdict hasher (candidates text) = .ok (toWrapper c.asRun) :=
      verdict_ok_iff.mpr ⟨_, valid_candidates_iff.mpr ⟨c, rfl, hvalid⟩, rfl⟩
    have hany := @anyVerdict_of_error hasher _ _ hbad (List.ne_nil_of_mem c.mem)
    obtain ⟨d, hd, _⟩ := (halone _ (hany.trans hok)).run
    exact hne ((hd c').trans (hd c).symm)
  · intro hbeside x hx
    rcases anyVerdict_ok hx with h | h
    · exact alone_of_v1 hlong hfit h
    · exact alone_of_v2 hlong hfit h hbeside

end Alone

theorem extractAny_alone_iff_single :
    (∀ x, extractAny .w64 (carrier [7] []) ⟨fun _ _ => [1, 2, 3, 4]⟩ = .ok (.ok x) →
      Alone (carrier [7] []) ⟨fun _ _ => [1, 2, 3, 4]⟩ x) ↔
      ¬Beside (carrier [7] []) ⟨fun _ _ => [1, 2, 3, 4]⟩ :=
  @extractAny_alone_iff ⟨fun _ _ => [1, 2, 3, 4]⟩ (fun _ _ => Nat.le_refl 4) _ (by decide)

/-- A valid version 1 wrapper and a valid version 2 wrapper: the second is returned as if
it were the only one. -/
theorem extractAny_overlooks_v1 :
    LongDigests ⟨fun _ _ => [1, 2, 3, 4]⟩ ∧
    Fits .w64 (carrier [7] [] ++ marker :: encodeRun (frame 2 [8] [1, 2, 3, 4])) ∧
    ¬∀ x, extractAny .w64 (carrier [7] [] ++ marker :: encodeRun (frame 2 [8] [1, 2, 3, 4]))
        ⟨fun _ _ => [1, 2, 3, 4]⟩ = .ok (.ok x) →
      Alone (carrier [7] [] ++ marker :: encodeRun (frame 2 [8] [1, 2, 3, 4]))
        ⟨fun _ _ => [1, 2, 3, 4]⟩ x := by
  have hany : extractAny .w64
      (carrier [7] [] ++ marker :: encodeRun (frame 2 [8] [1, 2, 3, 4]))
      ⟨fun _ _ => [1, 2, 3, 4]⟩ = .ok (.ok ⟨[8], 2, 52, 64⟩) := by decide +kernel
  have hv1 : UnstructuredText.locateAll .w64
      (carrier [7] [] ++ marker :: encodeRun (frame 2 [8] [1, 2, 3, 4])) =
      .ok [⟨[7], 1, 0, 52⟩] := by decide +kernel
  refine ⟨fun _ _ => Nat.le_refl 4, by decide, fun halone => ?_⟩
  obtain ⟨ws, ws2, hws, _, happ⟩ := (halone _ hany).located
  rw [hv1] at hws
  rw [← Except.ok.inj hws, List.cons_append, List.nil_append] at happ
  have hhead := (List.cons.inj happ).1
  exact absurd hhead (by decide)

section Conservative
variable {hasher : Hasher} (hlong : LongDigests hasher) {text : Text} (hfit : Fits .w64 text)

theorem anyVerdict_of_no_v2 {rs : List (Run UInt8)} (h : ∀ r ∈ rs, r.items[8]? ≠ some version)
    (hmany : UnstructuredText.verdict rs ≠ .error .multipleWrappers) :
    anyVerdict hasher rs = UnstructuredText.verdict rs := by
  have hnone : ∀ r ∈ rs, ¬IsValid hasher r := fun r hr hv => h r hr hv.1.2.1
  rcases UnstructuredText.verdict_cases rs with ⟨_, rfl⟩ | ⟨hv, _, hr, _⟩ | ⟨r, hv, _⟩ | ⟨hv, _⟩
  · rfl
  · -- to version 2 every other candidate is corrupted too
    have hne := List.ne_nil_of_mem hr
    rw [anyVerdict_of_error hv hne, verdict_of_none hne hnone, hv]
  · rw [anyVerdict_of_ok hv, hv]
  · exact absurd hv hmany

theorem anyVerdict_of_no_v1 {rs : List (Run UInt8)}
    (h : ∀ r ∈ rs, ¬UnstructuredText.IsValid r) : anyVerdict hasher rs = verdict hasher rs := by
  rcases rs with _ | ⟨r, rs⟩
  · rfl
  · have hbad : UnstructuredText.verdict (r :: rs) = .error .corruptedWrapper :=
      UnstructuredText.verdict_corrupted ⟨r, List.mem_cons_self, h r List.mem_cons_self⟩
    exact anyVerdict_of_error hbad (List.cons_ne_nil r rs)

theorem anyVerdict_of_accreted (h : Accreted text) :
    anyVerdict hasher (candidates text) = .error .corruptedWrapper := by
  obtain ⟨hmany, hvalid⟩ := accreted_iff.mp h
  have hne : candidates text ≠ [] := List.ne_nil_of_length_pos (Nat.lt_of_lt_of_le Nat.two_pos hmany)
  rw [anyVerdict_of_error (verdict_accreted_iff.mpr h) hne]
  exact verdict_of_none hne fun r hr => not_isValid_of_v1 (hvalid r hr)

include hlong hfit

theorem extractAny_conservative_iff :
    (((∀ c : Candidate text, c.bytes[8]? ≠ some 2) →
        extractAny .w64 text hasher = UnstructuredText.extract .w64 text) ∧
      (UnstructuredText.locateAll .w64 text = .ok [] →
        extractAny .w64 text hasher = extract .w64 text hasher)) ↔ ¬Accreted text := by
  rw [extractAny_eq hlong hfit, extract_eq hlong hfit, UnstructuredText.extract_eq .w64 hfit,
    UnstructuredText.locateAll_eq .w64 hfit]
  simp only [Except.ok.injEq]
  constructor
  · rintro ⟨hv1, _⟩ haccreted
    have hno : ∀ c : Candidate text, c.bytes[8]? ≠ some 2 := fun c hc =>
      absurd (Option.some.inj ((haccreted.2 c).2.1.symm.trans hc)) (by decide)
    have heq := hv1 hno
    rw [anyVerdict_of_accreted haccreted, verdict_accreted_iff.mpr haccreted] at heq
    cases heq
  · intro h
    constructor
    · intro hno
      refine anyVerdict_of_no_v2 ?_ fun hmany => h (verdict_accreted_iff.mp hmany)
      exact forall_candidates_iff.mpr hno
    · intro hnil
      refine anyVerdict_of_no_v1 fun r hr hvalid => ?_
      rw [UnstructuredText.wrappers_eq, List.map_eq_nil_iff, List.filter_eq_nil_iff] at hnil
      exact hnil r hr (decide_eq_true hvalid)

end Conservative

theorem extractAny_conservative_iff_single :
    (((∀ c : Candidate (carrier [7] []), c.bytes[8]? ≠ some 2) →
        extractAny .w64 (carrier [7] []) ⟨fun _ _ => [1, 2, 3, 4]⟩ =
          UnstructuredText.extract .w64 (carrier [7] [])) ∧
      (UnstructuredText.locateAll .w64 (carrier [7] []) = .ok [] →
        extractAny .w64 (carrier [7] []) ⟨fun _ _ => [1, 2, 3, 4]⟩ =
          extract .w64 (carrier [7] []) ⟨fun _ _ => [1, 2, 3, 4]⟩)) ↔
      ¬Accreted (carrier [7] []) :=
  @extractAny_conservative_iff ⟨fun _ _ => [1, 2, 3, 4]⟩ (fun _ _ => Nat.le_refl 4) _ (by decide)

/-- Two valid version 1 wrappers, reported as corruption. -/
theorem extractAny_reports_corruption :
    LongDigests ⟨fun _ _ => [1, 2, 3, 4]⟩ ∧ Fits .w64 (carrier [7] [] ++ carrier [8] []) ∧
    ¬(((∀ c : Candidate (carrier [7] [] ++ carrier [8] []), c.bytes[8]? ≠ some 2) →
        extractAny .w64 (carrier [7] [] ++ carrier [8] []) ⟨fun _ _ => [1, 2, 3, 4]⟩ =
          UnstructuredText.extract .w64 (carrier [7] [] ++ carrier [8] [])) ∧
      (UnstructuredText.locateAll .w64 (carrier [7] [] ++ carrier [8] []) = .ok [] →
        extractAny .w64 (carrier [7] [] ++ carrier [8] []) ⟨fun _ _ => [1, 2, 3, 4]⟩ =
          extract .w64 (carrier [7] [] ++ carrier [8] []) ⟨fun _ _ => [1, 2, 3, 4]⟩)) := by
  have hno : ∀ r ∈ candidates (carrier [7] [] ++ carrier [8] []), r.items[8]? ≠ some 2 := by
    decide +kernel
  have hany : extractAny .w64 (carrier [7] [] ++ carrier [8] []) ⟨fun _ _ => [1, 2, 3, 4]⟩ =
      .ok (.error .corruptedWrapper) := by decide +kernel
  have hv1 : UnstructuredText.extract .w64 (carrier [7] [] ++ carrier [8] []) =
      .ok (.error .multipleWrappers) := by decide +kernel
  refine ⟨fun _ _ => Nat.le_refl 4, by decide, fun h => ?_⟩
  have heq := h.1 (forall_candidates_iff.mp hno)
  rw [hany, hv1] at heq
  cases heq

end UnstructuredText.V2
