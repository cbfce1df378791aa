import UnstructuredText.Lib.Carving
import UnstructuredText.Binding.Exclusions
import UnstructuredText.Frame.Embed
import Mathlib.Data.List.Chain

/-! Exclusions and stripping. The exclusions of a list are removed exactly when they sit
in the text in order; what is left is what stripping them one by one leaves, from the
last to the first, since a strip moves nothing in front of it. -/

namespace UnstructuredText
open Machine Sized
variable (w : PtrWidth)

def Exclusion.range (ex : Exclusion) : ByteRange := ⟨ex.start, ex.start + ex.length⟩

def stripEach (text : Text) : List Exclusion → Exec (Except Error Text)
  | [] => .ok (.ok text)
  | ex :: exclusions => do
    match ← stripEach text exclusions with
    | .error e => return .error e
    | .ok stripped => strip stripped ex.range

/-- An exclusion that a text can lose: its end is an address, it lies in the text, and it
splits no character. -/
structure Sits (text : Text) (ex : Exclusion) : Prop where
  fits : ex.start + ex.length ≤ w.usizeMax
  inside : ex.start + ex.length ≤ strLen text
  start : isCharBoundary text ex.start = true
  stop : isCharBoundary text (ex.start + ex.length) = true

structure Admissible (text : Text) (exs : List Exclusion) : Prop where
  sits : ∀ ex ∈ exs, Sits w text ex
  ordered : exs.IsChain fun a b => a.start + a.length ≤ b.start

structure Excludes (text : Text) (exs : List Exclusion) (outcome : Except Error Text) : Prop where
  ok_iff : (∃ kept, outcome = .ok kept) ↔ Admissible w text exs
  error : ¬Admissible w text exs → outcome = .error .malformedExclusion
  bytes : ∀ kept, outcome = .ok kept → strBytes kept =
    ((strBytes text).zipIdx.filter fun p => Outside (exs.map Exclusion.span) p.2).map Prod.fst
  length : ∀ kept, outcome = .ok kept →
    strLen kept + (exs.map Exclusion.length).sum = strLen text
  stripped : ∀ kept, outcome = .ok kept → stripEach text exs = .ok (.ok kept)
  single : ∀ ex, exs = [ex] → ex.start + ex.length ≤ w.usizeMax →
    strip text ex.range = .ok outcome

def Admits (text : Text) (cursor : ℕ) (exs : List Exclusion) : Prop :=
  (∀ ex ∈ exs.head?, cursor ≤ ex.start) ∧ Admissible w text exs

theorem admits_zero_iff {text : Text} {exs : List Exclusion} :
    Admits w text 0 exs ↔ Admissible w text exs := and_iff_right fun ex _ => Nat.zero_le ex.start

theorem admits_nil (text : Text) (cursor : ℕ) : Admits w text cursor [] :=
  ⟨by simp, by simp, .nil⟩

theorem admits_cons_iff {text : Text} {cursor : ℕ} {ex : Exclusion} {exs : List Exclusion} :
    Admits w text cursor (ex :: exs) ↔
      (cursor ≤ ex.start ∧ Sits w text ex) ∧ Admits w text (ex.start + ex.length) exs := by
  constructor
  · rintro ⟨hcursor, hsits, hordered⟩
    rw [List.forall_mem_cons] at hsits
    rw [List.isChain_cons] at hordered
    exact ⟨⟨hcursor ex rfl, hsits.1⟩, hordered.1, hsits.2, hordered.2⟩
  · rintro ⟨⟨hcursor, hex⟩, hnext, hsits, hordered⟩
    refine ⟨fun ex' h => Option.some.inj h ▸ hcursor, List.forall_mem_cons.mpr ⟨hex, hsits⟩, ?_⟩
    exact List.isChain_cons.mpr ⟨hnext, hordered⟩

theorem carved_of_sits {done rest : Text} {ex : Exclusion} (hstart : strLen done ≤ ex.start)
    (h : Sits w (done ++ rest) ex) : ∃ g m b, rest = g ++ (m ++ b) ∧
      ex = ⟨strLen done + strLen g, strLen m⟩ := by
  obtain ⟨g, l, rfl, hg⟩ := exists_between h.start hstart
  have hstop := h.stop
  rw [← List.append_assoc, hg] at hstop
  have hoff : total utf8 (done ++ g) = total utf8 done + total utf8 g := total_append utf8 done g
  obtain ⟨m, b, rfl, hm⟩ := exists_between hstop (by omega)
  refine ⟨g, m, b, rfl, ?_⟩
  cases ex
  simp only [Exclusion.mk.injEq] at hg hm ⊢
  exact ⟨hg, by rw [strLen]; omega⟩

theorem boundaries_of_not {p q : Bool} (h : ¬(!p || !q) = true) : p = true ∧ q = true := by
  rwa [Bool.or_eq_true, not_or, Bool.not_eq_true', Bool.not_eq_true', Bool.not_eq_false,
    Bool.not_eq_false] at h

theorem applyExclusionsLoop_malformed {text out : Text} {cursor : ℕ} {ex : Exclusion}
    (h : ¬(cursor ≤ ex.start ∧ Sits w text ex)) (exs : List Exclusion) :
    applyExclusionsLoop w text cursor out (ex :: exs) = .ok (.error .malformedExclusion) := by
  rw [applyExclusionsLoop, Exclusion.stop]
  rcases Nat.lt_or_ge w.usizeMax (ex.start + ex.length) with hover | hfits
  · rw [checkedAdd_none hover]
    rfl
  rw [checkedAdd_some hfits]
  dsimp only
  split_ifs with hplace hcut
  · rfl
  · rfl
  · rw [not_or, Nat.not_lt, gt_iff_lt, Nat.not_lt] at hplace
    obtain ⟨hstart, hstop⟩ := boundaries_of_not hcut
    exact absurd ⟨hplace.1, hfits, hplace.2, hstart, hstop⟩ h

theorem applyExclusionsLoop_cases (exs : List Exclusion) {done rest : Text}
    (hfit : Fits w (done ++ rest)) (out : Text) :
    (Admits w (done ++ rest) (strLen done) exs ∧
      ∃ kept, Carved utf8 (strLen done) rest (exs.map Exclusion.span) kept) ∨
    (¬Admits w (done ++ rest) (strLen done) exs ∧
      applyExclusionsLoop w (done ++ rest) (strLen done) out exs =
        .ok (.error .malformedExclusion)) := by
  induction exs generalizing done rest out with
  | nil => exact .inl ⟨admits_nil w _ _, rest, .done _ rest⟩
  | cons ex exs ih =>
    rw [admits_cons_iff]
    by_cases h : strLen done ≤ ex.start ∧ Sits w (done ++ rest) ex
    swap
    · exact .inr ⟨fun hc => h hc.1, applyExclusionsLoop_malformed w h exs⟩
    obtain ⟨g, m, b, rfl, rfl⟩ := carved_of_sits w h.1 h.2
    have hbehind : done ++ (g ++ (m ++ b)) = done ++ (g ++ m) ++ b := by
      simp only [List.append_assoc]
    have hoff : strLen done + strLen g + strLen m = strLen (done ++ (g ++ m)) := by
      rw [strLen_append, strLen_append, ← Nat.add_assoc]
    have hloop := applyExclusionsLoop_span w hfit out exs
    rw [hloop, and_iff_right h]
    dsimp only
    rw [hoff, hbehind]
    rcases ih (hbehind ▸ hfit) (out ++ g) with ⟨hadmits, kept, hkept⟩ | hrefused
    · rw [← hoff] at hkept
      exact .inl ⟨hadmits, g ++ kept, .span g m hkept⟩
    · exact .inr hrefused

theorem stripEach_carved (exs : List Exclusion) {text kept : Text}
    (h : Carved utf8 0 text (exs.map Exclusion.span) kept) :
    stripEach text exs = .ok (.ok kept) := by
  induction exs generalizing text kept with
  | nil =>
    cases h
    rfl
  | cons ex exs ih =>
    obtain ⟨start, length⟩ := ex
    rcases h with _ | ⟨g, m, tail⟩
    rename_i rest kept
    -- the later exclusions leave the text up to the end of this one as it is
    have hlater : Carved utf8 0 (g ++ m ++ rest) (exs.map Exclusion.span) (g ++ m ++ kept) := by
      refine Carved.prepend (g ++ m) ?_
      rwa [total_append, ← Nat.add_assoc]
    have hrange : Exclusion.range ⟨0 + strLen g, strLen m⟩ = ⟨strLen g, strLen (g ++ m)⟩ := by
      rw [Exclusion.range, strLen_append, Nat.zero_add]
    rw [stripEach, ← List.append_assoc, ih hlater, ok_bind]
    exact (congrArg (strip _) hrange).trans (strip_append g m kept)

theorem strip_malformed {text : Text} {ex : Exclusion} (hfits : ex.start + ex.length ≤ w.usizeMax)
    (h : ¬Sits w text ex) : strip text ex.range = .ok (.error .malformedExclusion) := by
  rw [strip, Exclusion.range]
  dsimp only
  split_ifs with hplace hcut
  · rfl
  · rfl
  · rw [not_or, gt_iff_lt, Nat.not_lt] at hplace
    obtain ⟨hstart, hstop⟩ := boundaries_of_not hcut
    exact absurd ⟨hfits, hplace.1, hstart, hstop⟩ h

theorem strip_outside {text : Text} {range : ByteRange}
    (h : range.stop > strLen text ∨ range.start > range.stop) :
    strip text range = .ok (.error .malformedExclusion) := by
  rw [strip, if_pos h]
  rfl

theorem strip_ends {text : Text} (hfit : Fits w text) (ex : Exclusion) :
    Ends (strip text ex.range) := by
  by_cases hsits : Sits w text ex
  · obtain ⟨g, m, b, rfl, rfl⟩ := @carved_of_sits w [] text ex (Nat.zero_le _) hsits
    change Ends (strip (g ++ (m ++ b)) ⟨0 + strLen g, 0 + strLen g + strLen m⟩)
    rw [← List.append_assoc, Nat.zero_add, ← strLen_append]
    exact ⟨_, strip_append g m b⟩
  rcases Nat.lt_or_ge w.usizeMax (ex.start + ex.length) with hover | hfits
  · exact ⟨_, strip_outside (.inl (Nat.lt_trans hfit.lt_usizeMax hover))⟩
  · exact ⟨_, strip_malformed w hfits hsits⟩

theorem excludes_carved {text kept : Text} {exs : List Exclusion} (hadm : Admissible w text exs)
    (h : Carved utf8 0 text (exs.map Exclusion.span) kept) : Excludes w text exs (.ok kept) where
  ok_iff := iff_of_true ⟨kept, rfl⟩ hadm
  error hno := absurd hadm hno
  bytes k hk := by
    obtain rfl := Except.ok.inj hk
    exact (h.filter_zipIdx String.utf8EncodeChar String.length_utf8EncodeChar).symm
  length k hk := by
    obtain rfl := Except.ok.inj hk
    have htotal : strLen text = strLen kept + ((exs.map Exclusion.span).map Prod.snd).sum :=
      h.total_eq
    rw [List.map_map] at htotal
    exact htotal.symm
  stripped k hk := Except.ok.inj hk ▸ stripEach_carved exs h
  single ex hex _ := by
    subst hex
    exact stripEach_carved [ex] h

theorem excludes_error {text : Text} {exs : List Exclusion} (hno : ¬Admissible w text exs) :
    Excludes w text exs (.error .malformedExclusion) where
  ok_iff := iff_of_false (fun ⟨_, h⟩ => nomatch h) hno
  error _ := rfl
  bytes _ h := nomatch h
  length _ h := nomatch h
  stripped _ h := nomatch h
  single ex hex hfits := by
    subst hex
    refine strip_malformed w hfits fun hsits => hno ?_
    exact ⟨List.forall_mem_singleton.mpr hsits, .singleton ex⟩

theorem applyExclusions_excludes {text : Text} (hfit : Fits w text) (exs : List Exclusion) :
    ∃ outcome, applyExclusions w text exs = .ok outcome ∧ Excludes w text exs outcome := by
  rcases @applyExclusionsLoop_cases w exs [] text hfit [] with ⟨hadm, kept, hkept⟩ | ⟨hno, herr⟩
  · exact ⟨_, applyExclusions_carved w hfit hkept,
      excludes_carved w ((admits_zero_iff w).mp hadm) hkept⟩
  · exact ⟨_, herr, excludes_error w (mt (admits_zero_iff w).mpr hno)⟩

theorem applyExclusions_excludes_touching :
    ∃ outcome, applyExclusions .w32 ['a', 'é', 'b'] [⟨0, 1⟩, ⟨1, 2⟩] = .ok outcome ∧
      Excludes .w32 ['a', 'é', 'b'] [⟨0, 1⟩, ⟨1, 2⟩] outcome :=
  applyExclusions_excludes .w32 (by decide) _

end UnstructuredText
