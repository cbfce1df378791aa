import UnstructuredText.Source.HardBindingDefs

/-! Applying exclusions. On spans that can be carved out of a text in order, the loop
leaves what the carving leaves, and no offset it computes or cuts at is a fault. -/

namespace UnstructuredText
open Machine Sized
variable (w : PtrWidth)

def Exclusion.span (ex : Exclusion) : ℕ × ℕ := (ex.start, ex.length)

theorem applyExclusionsLoop_done (done rest out : Text) :
    applyExclusionsLoop w (done ++ rest) (strLen done) out [] = .ok (.ok (out ++ rest)) := by
  rw [applyExclusionsLoop, strFrom_append]
  rfl

theorem applyExclusionsLoop_span {done g m rest : Text}
    (hfit : Fits w (done ++ (g ++ (m ++ rest)))) (out : Text) (exs : List Exclusion) :
    applyExclusionsLoop w (done ++ (g ++ (m ++ rest))) (strLen done) out
        (⟨strLen done + strLen g, strLen m⟩ :: exs) =
      applyExclusionsLoop w (done ++ (g ++ (m ++ rest))) (strLen (done ++ (g ++ m))) (out ++ g)
        exs := by
  have hlen := hfit.lt_usizeMax
  simp only [strLen_append] at hlen
  have hstart : isCharBoundary (done ++ (g ++ (m ++ rest))) (strLen done + strLen g) = true := by
    have h := isCharBoundary_append (done ++ g) (m ++ rest)
    rwa [List.append_assoc, strLen_append] at h
  have hstop : isCharBoundary (done ++ (g ++ (m ++ rest))) (strLen done + strLen g + strLen m) =
      true := by
    have h := isCharBoundary_append (done ++ (g ++ m)) rest
    rwa [List.append_assoc, List.append_assoc, strLen_append, strLen_append,
      ← Nat.add_assoc] at h
  have hinside : ¬(strLen done + strLen g < strLen done ∨
      strLen done + strLen g + strLen m > strLen (done ++ (g ++ (m ++ rest)))) := by
    simp only [strLen_append]
    omega
  have hcursor : strLen done + strLen g + strLen m = strLen (done ++ (g ++ m)) := by
    simp only [strLen_append, Nat.add_assoc]
  have hadd : checkedAdd w (strLen done + strLen g) (strLen m) =
      some (strLen done + strLen g + strLen m) := checkedAdd_some (by omega)
  -- the gap before the span is kept, and the cursor passes over the span
  rw [applyExclusionsLoop, Exclusion.stop, hadd]
  dsimp only
  rw [if_neg hinside, hstart, hstop, strSlice_append, ok_bind, hcursor]
  rfl

theorem applyExclusionsLoop_carved (exs : List Exclusion) {done rest kept : Text}
    (h : Carved utf8 (strLen done) rest (exs.map Exclusion.span) kept)
    (hfit : Fits w (done ++ rest)) (out : Text) :
    applyExclusionsLoop w (done ++ rest) (strLen done) out exs = .ok (.ok (out ++ kept)) := by
  induction exs generalizing done rest kept out with
  | nil =>
    cases h
    exact applyExclusionsLoop_done w done rest out
  | cons ex exs ih =>
    obtain ⟨start, length⟩ := ex
    rcases h with _ | ⟨g, m, tail⟩
    rename_i rest kept
    have hbehind : done ++ (g ++ (m ++ rest)) = done ++ (g ++ m) ++ rest := by
      simp only [List.append_assoc]
    have hoff : strLen done + total utf8 g + total utf8 m = strLen (done ++ (g ++ m)) := by
      rw [strLen_append, strLen_append, ← Nat.add_assoc]
      rfl
    have hspan := applyExclusionsLoop_span w hfit out exs
    refine hspan.trans ?_
    rw [hoff] at tail
    rw [hbehind, ih tail (hbehind ▸ hfit), List.append_assoc]

theorem applyExclusions_carved {text kept : Text} {exs : List Exclusion} (hfit : Fits w text)
    (h : Carved utf8 0 text (exs.map Exclusion.span) kept) :
    applyExclusions w text exs = .ok (.ok kept) := by
  have hfrom : Carved utf8 (strLen []) text (exs.map Exclusion.span) kept := h
  exact applyExclusionsLoop_carved w exs hfrom hfit []

theorem carved_block (a m b : Text) :
    Carved utf8 0 (a ++ m ++ b) [(strLen a, strLen m)] (a ++ b) := by
  have h : Carved utf8 0 (a ++ (m ++ b)) [(0 + strLen a, strLen m)] (a ++ b) :=
    .span a m (.done _ b)
  rwa [Nat.zero_add, ← List.append_assoc] at h

theorem applyExclusions_block {a m b : Text} (hfit : Fits w (a ++ m ++ b)) :
    applyExclusions w (a ++ m ++ b) [⟨strLen a, strLen m⟩] = .ok (.ok (a ++ b)) :=
  applyExclusions_carved w hfit (carved_block a m b)

end UnstructuredText
