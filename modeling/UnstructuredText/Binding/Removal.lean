import UnstructuredText.Frame.Embed
import UnstructuredText.Binding.Exclusions

/-! Removing wrappers. The range of a wrapper covers the whole selector run, so no seam
that a removal leaves can join what stood on its two sides: the wrappers that stay are
the same wrappers, moved back. -/

namespace UnstructuredText
open Machine Sized MarkedRuns Lists
variable (w : PtrWidth)

def lengthBefore (xs : List Wrapper) (n : ℕ) : ℕ :=
  ((xs.filter fun x => x.start < n).map Wrapper.length).sum

/-- Where a wrapper stands once the wrappers `removed` are gone. -/
def Wrapper.settle (removed : List Wrapper) (x : Wrapper) : Wrapper :=
  { x with start := x.start - lengthBefore removed x.start }

variable (S : Wrapper → Bool)

def picked (r : Run UInt8) : Bool := (wrapperOf r).any S

theorem span_exclusion_of_wrapperOf {r : Run UInt8} {x : Wrapper} (h : wrapperOf r = some x) :
    x.exclusion.span = r.span := by
  obtain ⟨_, _, rfl⟩ := wrapperOf_eq_some_iff.mp h
  rfl

theorem spans_picked (text : Text) :
    ((runs text).filter (picked S)).map Run.span =
      (((wrappers text).filter S).map Wrapper.exclusion).map Exclusion.span := by
  rw [List.map_map]
  exact map_filter_any wrapperOf S (fun _ _ => span_exclusion_of_wrapperOf) (runs text)

theorem lengthBefore_eq_spans (xs : List Wrapper) (n : ℕ) :
    lengthBefore xs n = ((((xs.map Wrapper.exclusion).map Exclusion.span).filter
      fun s => s.1 < n).map Prod.snd).sum := by
  rw [lengthBefore, List.map_map, List.filter_map, List.map_map]
  rfl

theorem sizeBefore_picked (text : Text) (n : ℕ) :
    Run.sizeBefore ((runs text).filter (picked S)) n =
      lengthBefore ((wrappers text).filter S) n := by
  rw [Run.sizeBefore_eq_spans, spans_picked, lengthBefore_eq_spans]

theorem wrapperOf_settle (rs : List (Run UInt8)) (r : Run UInt8) :
    wrapperOf (r.settle rs) =
      (wrapperOf r).map fun x => { x with start := x.start - Run.sizeBefore rs x.start } := by
  by_cases h : IsCandidate r ∧ IsValid r
  · have hsettled : IsCandidate (r.settle rs) ∧ IsValid (r.settle rs) := h
    rw [wrapperOf, wrapperOf, if_pos h, if_pos hsettled]
    rfl
  · have hsettled : ¬(IsCandidate (r.settle rs) ∧ IsValid (r.settle rs)) := h
    rw [wrapperOf, wrapperOf, if_neg h, if_neg hsettled]
    rfl

structure RunsRemoved (text kept : Text) : Prop where
  carved : Carved utf8 0 text
    ((((wrappers text).filter S).map Wrapper.exclusion).map Exclusion.span) kept
  runs_eq : runs kept = ((runs text).filter fun r => !picked S r).map
    (Run.settle ((runs text).filter (picked S)))

theorem exists_runsRemoved (text : Text) : ∃ kept, RunsRemoved S text kept := by
  obtain ⟨kept, hcarved, _, hruns⟩ := exists_carved selectors (picked S) 0 text
  exact ⟨kept, spans_picked S text ▸ hcarved, hruns⟩

namespace RunsRemoved
variable {S} {text kept : Text} (h : RunsRemoved S text kept)
include h

theorem fits {w : PtrWidth} (hfit : Fits w text) : Fits w kept :=
  Nat.le_trans (Nat.le_of_add_right_le (Nat.le_of_eq h.carved.total_eq.symm)) hfit

theorem wrappers_eq : wrappers kept =
    ((wrappers text).filter fun x => !S x).map (Wrapper.settle ((wrappers text).filter S)) := by
  rw [wrappers, h.runs_eq, List.filterMap_map]
  have hsettle : wrapperOf ∘ Run.settle ((runs text).filter (picked S)) =
      fun r => (wrapperOf r).map (Wrapper.settle ((wrappers text).filter S)) := by
    funext r
    rw [Function.comp_apply, wrapperOf_settle]
    simp only [sizeBefore_picked]
    rfl
  rw [hsettle, ← List.map_filterMap]
  exact congrArg (List.map _) (filterMap_filter_not_any wrapperOf S (runs text))

theorem candidates_eq : candidates kept = ((candidates text).filter fun r => !picked S r).map
    (Run.settle ((runs text).filter (picked S))) := by
  rw [candidates, h.runs_eq, List.filter_map, candidates, List.filter_filter, List.filter_filter]
  refine congrArg (List.map _) (List.filter_congr fun r _ => ?_)
  exact Bool.and_comm _ _

theorem exists_corrupted_iff :
    (∃ r ∈ candidates kept, ¬IsValid r) ↔ ∃ r ∈ candidates text, ¬IsValid r := by
  rw [h.candidates_eq]
  constructor
  · rintro ⟨r, hr, hbad⟩
    obtain ⟨s, hs, rfl⟩ := List.mem_map.mp hr
    exact ⟨s, (List.mem_filter.mp hs).1, hbad⟩
  · rintro ⟨r, hr, hbad⟩
    have hkept : picked S r = false := by rw [picked, wrapperOf, if_neg (fun hc => hbad hc.2)]; rfl
    exact ⟨_, List.mem_map_of_mem (List.mem_filter.mpr ⟨hr, by rw [hkept]; rfl⟩), hbad⟩

theorem hasCorruptedCandidate_eq {w : PtrWidth} (hfit : Fits w text) :
    hasCorruptedCandidate w kept = hasCorruptedCandidate w text := by
  rw [UnstructuredText.hasCorruptedCandidate_eq w (h.fits hfit),
    UnstructuredText.hasCorruptedCandidate_eq w hfit]
  exact congrArg Except.ok (Bool.eq_iff_iff.mpr ((any_corrupted_iff kept).trans
    (h.exists_corrupted_iff.trans (any_corrupted_iff text).symm)))

end RunsRemoved

theorem lengthBefore_le {text : Text} {x : Wrapper} (hx : x ∈ wrappers text) :
    lengthBefore ((wrappers text).filter S) x.start ≤ x.start := by
  obtain ⟨r, hr, hwrapper⟩ := List.mem_filterMap.mp hx
  obtain ⟨_, _, rfl⟩ := wrapperOf_eq_some_iff.mp hwrapper
  have hle := sizeBefore_filter_le selectors (picked S) hr
  rw [Nat.zero_add] at hle
  rw [← sizeBefore_picked]
  exact hle

structure Removes (text : Text) (ws : List Wrapper) (kept : Text) : Prop where
  applied : applyExclusions w text ((ws.filter S).map Wrapper.exclusion) = .ok (.ok kept)
  located : locateAll w kept =
    .ok ((ws.filter fun x => !S x).map (Wrapper.settle (ws.filter S)))
  room : ∀ x ∈ ws, lengthBefore (ws.filter S) x.start ≤ x.start
  corrupted : ∃ c, hasCorruptedCandidate w text = .ok c ∧ hasCorruptedCandidate w kept = .ok c

structure Restores (text : Text) (x : Wrapper) (stripped : Text) : Prop where
  strips : ∃ range, x.range w = .ok range ∧ strip text range = .ok (.ok stripped)
  unsigned : extract w stripped = .ok (.error .notFound)
  embeds : ∀ payload : List UInt8, payload.length ≤ u32Max →
    Fits w (stripped ++ carrier payload []) →
    (w = .w32 → Affords stripped (headerLen + payload.length)) →
    ∃ asset y, embed w stripped payload = .ok (.ok asset) ∧ extract w asset = .ok (.ok y) ∧
      y.payload = payload

theorem exists_removes {text : Text} (hfit : Fits w text) :
    ∃ kept, Removes w S text (wrappers text) kept := by
  obtain ⟨kept, h⟩ := exists_runsRemoved S text
  refine ⟨kept, applyExclusions_carved w hfit h.carved, ?_, fun x => lengthBefore_le S, ?_⟩
  · rw [locateAll_eq w (h.fits hfit), h.wrappers_eq]
  · exact ⟨_, hasCorruptedCandidate_eq w hfit,
      (h.hasCorruptedCandidate_eq hfit).trans (hasCorruptedCandidate_eq w hfit)⟩

theorem exists_restores {text : Text} (hfit : Fits w text) {x : Wrapper}
    (hx : extract w text = .ok (.ok x)) : ∃ stripped, Restores w text x stripped := by
  obtain ⟨r, hr, hvalid, rfl⟩ := (extract_ok_iff w hfit).mp hx
  have hws := wrappers_of_candidates hr hvalid
  obtain ⟨_, a, m, b, hcut, hstart, hlength⟩ :=
    exists_frameCut (hws ▸ List.mem_singleton_self (toWrapper r))
  obtain ⟨kept, h⟩ := exists_runsRemoved (fun _ => true) text
  -- the removal of every wrapper is the cut around the only one
  have hkept : kept = a ++ b := by
    have hcarved := h.carved
    rw [hws, List.filter_singleton, cond_true, List.map_singleton, List.map_singleton] at hcarved
    have hblock : Carved utf8 0 text [(toWrapper r).exclusion.span] (a ++ b) := by
      rw [Exclusion.span, Wrapper.exclusion, hstart, hlength, hcut.eq]
      exact carved_block a m b
    exact hcarved.unique hblock
  have hunsigned : extract w kept = .ok (.error .notFound) := by
    have hpicked : picked (fun _ => true) r = true := by
      have hcand : IsCandidate r := by
        have hmem : r ∈ candidates text := hr ▸ List.mem_singleton_self r
        exact of_decide_eq_true (List.mem_filter.mp hmem).2
      rw [picked, wrapperOf, if_pos ⟨hcand, hvalid⟩]
      rfl
    have hnil : candidates kept = [] := by
      rw [h.candidates_eq, hr, List.filter_singleton, hpicked]
      rfl
    rw [extract_eq w (h.fits hfit), hnil]
    rfl
  refine ⟨kept, ⟨⟨strLen a, strLen (a ++ m)⟩, ?_, ?_⟩, hunsigned, ?_⟩
  · have hinside := (wrappers_inside (hws ▸ List.mem_singleton_self (toWrapper r))).1
    rw [range_eq w (Nat.le_trans hinside (Nat.le_of_lt hfit.lt_usizeMax)), hstart, hlength,
      strLen_append]
  · rw [hkept, hcut.eq]
    exact strip_append a m b
  · intro payload hlen hroom hafford
    have hembed := embed_eq w kept hlen (reserves_of_affords w (framed_le hlen) hafford)
    exact ⟨_, _, hembed, (embeds_carrier w hlen [] hroom).ok.mpr hunsigned, rfl⟩

theorem removal_law {text : Text} (hfit : Fits w text) :
    ∃ ws, locateAll w text = .ok ws ∧ (∀ S, ∃ kept, Removes w S text ws kept) ∧
      ∀ x, extract w text = .ok (.ok x) → ∃ stripped, Restores w text x stripped :=
  ⟨wrappers text, locateAll_eq w hfit, fun S => exists_removes w S hfit,
    fun _ => exists_restores w hfit⟩

theorem removal_law_adjacent :
    ∃ ws, locateAll .w32 (carrier [7] [] ++ carrier [8] [0]) = .ok ws ∧
      (∀ S, ∃ kept, Removes .w32 S (carrier [7] [] ++ carrier [8] [0]) ws kept) ∧
      ∀ x, extract .w32 (carrier [7] [] ++ carrier [8] [0]) = .ok (.ok x) →
        ∃ stripped, Restores .w32 (carrier [7] [] ++ carrier [8] [0]) x stripped :=
  removal_law .w32 (by decide)

end UnstructuredText
