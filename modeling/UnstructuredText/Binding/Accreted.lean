import UnstructuredText.Binding.Transfer

/-! Accreted texts. `extract` rejects a text with more than one valid wrapper, whichever
is meant; `verifyDataHash` lets the binding choose one of them. On every other text the
two agree. -/

namespace UnstructuredText
open Machine Sized MarkedRuns

section Agreement
variable {w : PtrWidth} {text : Text} (hfit : Fits w text) (hasher : Hasher)
  (normalizer : Normalizer)

include hfit

theorem verify_ok_iff {d : DataHash} : verifyDataHash w text d hasher normalizer = .ok (.ok ()) ↔
    Known d ∧ Sound text ∧ Selects d (wrappers text) ∧ Digests text d hasher normalizer := by
  constructor
  · intro hok
    obtain ⟨outcome, hverify, hstage⟩ := verify_stage hfit d hasher normalizer
    obtain rfl := Except.ok.inj (hverify.symm.trans hok)
    cases hstage with
    | accepted halg hsound hsel hdig => exact ⟨halg, hsound, hsel, hdig⟩
  · exact fun h => verify_accepts hfit hasher normalizer h.2.1 h.2.2.1 h.2.2.2

theorem verify_binding_of_mem (hsound : Sound text) {x : Wrapper} (hx : x ∈ wrappers text) :
    ∃ d, verifyDataHash w text d hasher normalizer = .ok (.ok ()) := by
  obtain ⟨a, m, b, htext, hblock⟩ := exists_block hx
  refine ⟨binding .sha256 hasher normalizer a m b,
    verify_accepts hfit hasher normalizer hsound ⟨x, hx, ?_⟩ ?_⟩
  · rw [hblock]
    rfl
  · exact ⟨.sha256, a, m, b, rfl, htext, rfl, rfl⟩

theorem extract_of_selects (hsound : Sound text) {d : DataHash}
    (hsel : Selects d (wrappers text)) (h : ¬Accreted text) :
    ∃ x, extract w text = .ok (.ok x) ∧ d.exclusions = [x.exclusion] := by
  obtain ⟨x, hx, hd⟩ := hsel
  obtain ⟨r, hr, hvalid, rfl⟩ := mem_wrappers_iff_candidate.mp hx
  rw [accreted_iff, not_and_or, or_iff_left (not_not.mpr (sound_iff.mp hsound))] at h
  have hone : candidates text = [r] := by
    have hlen : (candidates text).length = 1 :=
      Nat.le_antisymm (Nat.le_of_not_lt h) (List.length_pos_of_mem hr)
    obtain ⟨s, hs⟩ := List.length_eq_one_iff.mp hlen
    rw [hs, List.mem_singleton] at hr
    rw [hs, hr]
  exact ⟨toWrapper r, (extract_ok_iff w hfit).mpr ⟨r, hone, hvalid, rfl⟩, hd⟩

theorem verify_within_extract_iff :
    (∀ d, verifyDataHash w text d hasher normalizer = .ok (.ok ()) →
      ∃ x, extract w text = .ok (.ok x) ∧ d.exclusions = [x.exclusion]) ↔ ¬Accreted text := by
  constructor
  · intro hagree haccreted
    obtain ⟨c, _, _⟩ := haccreted.1
    have hmem := mem_wrappers_iff_candidate.mpr
      ⟨_, c.mem, c.isValid_asRun.mpr (haccreted.2 c), rfl⟩
    -- the binding of any one of the wrappers is accepted
    obtain ⟨d, hd⟩ := verify_binding_of_mem hfit hasher normalizer haccreted.2 hmem
    obtain ⟨x, hx, _⟩ := hagree d hd
    rw [extract_eq w hfit, verdict_accreted_iff.mpr haccreted] at hx
    cases hx
  · intro h d hd
    obtain ⟨_, hsound, hsel, _⟩ := (verify_ok_iff hfit hasher normalizer).mp hd
    exact extract_of_selects hfit hsound hsel h

end Agreement

theorem verify_within_extract_iff_single :
    (∀ d, verifyDataHash .w64 (carrier [7] []) d ⟨fun _ bytes => bytes⟩ ⟨id⟩ = .ok (.ok ()) →
      ∃ x, extract .w64 (carrier [7] []) = .ok (.ok x) ∧ d.exclusions = [x.exclusion]) ↔
      ¬Accreted (carrier [7] []) :=
  verify_within_extract_iff (by decide) _ _

/-- Two wrappers, a binding of the first: accepted by the validator, rejected by the
locator. -/
theorem verify_outruns_extract :
    ¬(verifyDataHash .w64 ('a' :: carrier [7] [] ++ carrier [8] [])
        ⟨[⟨1, 52⟩], "sha256", [0x61, 0xEF, 0xBB, 0xBF], [], none⟩
        ⟨fun _ bytes => bytes.take 4⟩ ⟨id⟩ = .ok (.ok ()) →
      ∃ x, extract .w64 ('a' :: carrier [7] [] ++ carrier [8] []) = .ok (.ok x) ∧
        ([⟨1, 52⟩] : List Exclusion) = [x.exclusion]) := by
  have hverify : verifyDataHash .w64 ('a' :: carrier [7] [] ++ carrier [8] [])
      ⟨[⟨1, 52⟩], "sha256", [0x61, 0xEF, 0xBB, 0xBF], [], none⟩
      ⟨fun _ bytes => bytes.take 4⟩ ⟨id⟩ = .ok (.ok ()) := by decide +kernel
  have hextract : extract .w64 ('a' :: carrier [7] [] ++ carrier [8] []) =
      .ok (.error .multipleWrappers) := by decide +kernel
  intro h
  obtain ⟨x, hx, _⟩ := h hverify
  rw [hextract] at hx
  cases hx

end UnstructuredText
