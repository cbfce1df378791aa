import UnstructuredText.Binding.Removal
import UnstructuredText.Binding.Transfer

/-! Tamper evidence. On any text at all, a binding that was computed on a signed text is
accepted in two cases only: the wrapper was reissued within its range and the rest is as it
was bound, or the digest of the rest collides with the bound one. -/

namespace UnstructuredText
open Machine Sized MarkedRuns Lists

def answer (d : DataHash) (alg : Algorithm) (hasher : Hasher) (normalizer : Normalizer)
    (rest : Text) : Except Error Unit :=
  if hasher.digest alg (strBytes (normalizer.nfc rest)) = d.hash then .ok ()
  else .error .hashMismatch

def StripsTo (w : PtrWidth) (text : Text) (x : Wrapper) (kept : Text) : Prop :=
  ∃ range, x.range w = .ok range ∧ strip text range = .ok (.ok kept)

theorem answer_ok_iff {d : DataHash} {alg : Algorithm} {hasher : Hasher}
    {normalizer : Normalizer} {rest : Text} : answer d alg hasher normalizer rest = .ok () ↔
      hasher.digest alg (strBytes (normalizer.nfc rest)) = d.hash := by
  unfold answer
  split_ifs with h
  · exact iff_of_true rfl h
  · exact iff_of_false (fun hok => nomatch hok) h

section Strips
variable {w : PtrWidth}

theorem StripsTo.unique {text : Text} {x : Wrapper} {kept kept' : Text}
    (h : StripsTo w text x kept) (h' : StripsTo w text x kept') : kept = kept' := by
  obtain ⟨range, hrange, hstrip⟩ := h
  obtain ⟨range', hrange', hstrip'⟩ := h'
  obtain rfl := Except.ok.inj (hrange.symm.trans hrange')
  exact ok_unique hstrip hstrip'

theorem Fits.outer {a m b : Text} (h : Fits w (a ++ m ++ b)) : Fits w (a ++ b) := by
  rw [Fits, strLen_append, strLen_append] at h
  rw [Fits, strLen_append]
  omega

theorem stripsTo_block {a m b : Text} (hfit : Fits w (a ++ m ++ b)) {x : Wrapper}
    (hx : x.exclusion = ⟨strLen a, strLen m⟩) : StripsTo w (a ++ m ++ b) x (a ++ b) := by
  obtain ⟨hstart, hlength⟩ := Exclusion.mk.inj hx
  have hstop : x.start + x.length ≤ w.usizeMax := by
    have hmax := hfit.left.lt_usizeMax
    rw [strLen_append] at hmax
    rw [hstart, hlength]
    exact Nat.le_of_lt hmax
  refine ⟨⟨strLen a, strLen (a ++ m)⟩, ?_, strip_append a m b⟩
  rw [range_eq w hstop, hstart, hlength, strLen_append]

theorem candidates_stripped {a m b : Text} (hfit : Fits w (a ++ m ++ b)) {x : Wrapper}
    (hx : extract w (a ++ m ++ b) = .ok (.ok x)) (hplace : x.exclusion = ⟨strLen a, strLen m⟩) :
    candidates (a ++ b) = [] := by
  obtain ⟨stripped, ⟨hstripped, hunsigned, _⟩⟩ := exists_restores w hfit hx
  rw [StripsTo.unique hstripped (stripsTo_block hfit hplace), extract_eq w hfit.outer,
    Except.ok.injEq, verdict_notFound_iff] at hunsigned
  exact hunsigned

end Strips

section Answer
variable {w : PtrWidth} {text : Text} (hfit : Fits w text) {d : DataHash} {alg : Algorithm}
  (halg : alg.id = d.alg) (hasher : Hasher) (normalizer : Normalizer)
include hfit halg

theorem verify_located (hsound : Sound text) {x : Wrapper} (hx : x ∈ wrappers text)
    (hd : d.exclusions = [x.exclusion]) : ∃ rest, StripsTo w text x rest ∧
      verifyDataHash w text d hasher normalizer =
        .ok (answer d alg hasher normalizer rest) := by
  obtain ⟨a, m, b, rfl, hplace⟩ := exists_block hx
  refine ⟨a ++ b, stripsTo_block hfit hplace, ?_⟩
  rw [verify_selected hfit hasher normalizer halg hsound ⟨x, hx, hd⟩ rfl (hplace ▸ hd), answer]
  split_ifs <;> rfl

theorem verify_accepted (hsound : Sound text) {x : Wrapper} (hx : x ∈ wrappers text)
    (hd : d.exclusions = [x.exclusion]) {rest : Text} (hrest : StripsTo w text x rest)
    (hdigest : hasher.digest alg (strBytes (normalizer.nfc rest)) = d.hash) :
    verifyDataHash w text d hasher normalizer = .ok (.ok ()) := by
  obtain ⟨rest', hrest', hanswer⟩ := verify_located hfit halg hasher normalizer hsound hx hd
  rw [hanswer, hrest'.unique hrest, answer_ok_iff.mpr hdigest]

end Answer

theorem extract_of_stripped {w : PtrWidth} {a m b : Text} (hfit : Fits w (a ++ m ++ b))
    {y : Wrapper} (hy : y ∈ wrappers (a ++ m ++ b)) (hplace : y.exclusion = ⟨strLen a, strLen m⟩)
    (hnone : candidates (a ++ b) = []) : extract w (a ++ m ++ b) = .ok (.ok y) := by
  obtain ⟨kept, h⟩ := exists_runsRemoved (fun z => decide (z = y)) (a ++ m ++ b)
  have hone : (wrappers (a ++ m ++ b)).filter (fun z => decide (z = y)) = [y] := by
    apply eq_singleton_of_nodup ((wrappers_nodup _).filter _)
    · exact List.mem_filter.mpr ⟨hy, decide_eq_true rfl⟩
    · exact fun z hz => of_decide_eq_true (List.mem_filter.mp hz).2
  obtain rfl : kept = a ++ b := by
    have hcarved := h.carved
    rw [hone, List.map_singleton, List.map_singleton, hplace] at hcarved
    exact hcarved.unique (carved_block a m b)
  -- every candidate is chosen, so each of them decodes to `y`
  have hall : ∀ r ∈ candidates (a ++ m ++ b), IsValid r ∧ toWrapper r = y := by
    intro r hr
    have hempty := h.candidates_eq
    rw [hnone, eq_comm, List.map_eq_nil_iff, List.filter_eq_nil_iff] at hempty
    have hpicked := hempty r hr
    rw [Bool.not_eq_true, Bool.not_eq_false', picked, Option.any_eq_true] at hpicked
    obtain ⟨z, hz, hzy⟩ := hpicked
    obtain ⟨_, hvalid, rfl⟩ := wrapperOf_eq_some_iff.mp hz
    exact ⟨hvalid, of_decide_eq_true hzy⟩
  have hwrappers : wrappers (a ++ m ++ b) = (candidates (a ++ m ++ b)).map toWrapper := by
    rw [wrappers_eq, List.filter_eq_self.mpr fun r hr => decide_eq_true (hall r hr).1]
  have hsingle : wrappers (a ++ m ++ b) = [y] := by
    apply eq_singleton_of_nodup (wrappers_nodup _) hy
    intro z hz
    rw [hwrappers] at hz
    obtain ⟨r, hr, rfl⟩ := List.mem_map.mp hz
    exact (hall r hr).2
  obtain ⟨r, hr, hry⟩ := List.map_eq_singleton_iff.mp (hwrappers.symm.trans hsingle)
  have hvalid := (hall r (hr ▸ List.mem_singleton_self r)).1
  exact (extract_ok_iff w hfit).mpr ⟨r, hr, hvalid, hry.symm⟩

def Reissued (w : PtrWidth) (text : Text) (x : Wrapper) (kept : Text) : Prop :=
  ∃ y, extract w text = .ok (.ok y) ∧ y.exclusion = x.exclusion ∧ StripsTo w text y kept

/-- Nothing in `text` is corrupted, a wrapper has the range of `x`, and what is left without
it is not `kept` but has the same digest. -/
def Collides (w : PtrWidth) (text : Text) (x : Wrapper) (kept : Text) (alg : Algorithm)
    (hasher : Hasher) (normalizer : Normalizer) : Prop :=
  ∃ ws y rest, hasCorruptedCandidate w text = .ok false ∧ locateAll w text = .ok ws ∧ y ∈ ws ∧
    y.exclusion = x.exclusion ∧ StripsTo w text y rest ∧ rest ≠ kept ∧
      hasher.digest alg (strBytes (normalizer.nfc rest)) =
        hasher.digest alg (strBytes (normalizer.nfc kept))

section Sound
variable {w : PtrWidth} {text : Text} (hfit : Fits w text)
include hfit

theorem uncorrupted_iff : hasCorruptedCandidate w text = .ok false ↔ Sound text := by
  rw [hasCorruptedCandidate_eq w hfit, Except.ok.injEq, ← Bool.not_eq_true, any_corrupted_iff,
    sound_iff]
  simp only [not_exists, not_and, not_not]

theorem sound_of_extract {y : Wrapper} (hy : extract w text = .ok (.ok y)) :
    Sound text ∧ y ∈ wrappers text := by
  obtain ⟨r, hr, hvalid, rfl⟩ := (extract_ok_iff w hfit).mp hy
  refine ⟨sound_of_candidates hr hvalid, ?_⟩
  rw [wrappers_of_candidates hr hvalid]
  exact List.mem_singleton_self _

end Sound

theorem acceptance_is_evidence {w : PtrWidth} {text : Text} (hfit : Fits w text) {x : Wrapper}
    (hx : extract w text = .ok (.ok x)) {d : DataHash} {alg : Algorithm} {hasher : Hasher}
    {normalizer : Normalizer} (hd : computeDataHash w text alg hasher normalizer = .ok (.ok d)) :
    ∃ kept, StripsTo w text x kept ∧ ∀ other, Fits w other →
      (verifyDataHash w other d hasher normalizer = .ok (.ok ()) ↔
        Reissued w other x kept ∨ Collides w other x kept alg hasher normalizer) := by
  obtain ⟨a, m, b, rfl, hplace⟩ := exists_block (sound_of_extract hfit hx).2
  have hcompute := computeDataHash_eq alg hasher normalizer ⟨hfit, x, hx, hplace⟩
  obtain rfl := ok_unique hcompute hd
  have hlisted : (binding alg hasher normalizer a m b).exclusions = [x.exclusion] := by
    rw [hplace]
    rfl
  have halg : alg.id = (binding alg hasher normalizer a m b).alg := rfl
  have hstrip := stripsTo_block hfit hplace
  have hnone := candidates_stripped hfit hx hplace
  refine ⟨a ++ b, hstrip, fun other hother => ⟨fun hok => ?_, ?_⟩⟩
  · obtain ⟨outcome, hverify, hstage⟩ :=
      verify_stage hother (binding alg hasher normalizer a m b) hasher normalizer
    obtain rfl := Except.ok.inj (hok.symm.trans hverify)
    cases hstage with
    | accepted _ hsound hsel _ =>
      obtain ⟨y, hy, hylisted⟩ := hsel
      have hrange : y.exclusion = x.exclusion :=
        List.singleton_inj.mp (hylisted.symm.trans hlisted)
      obtain ⟨rest, hrest, hanswer⟩ := verify_located hother halg hasher normalizer hsound hy hylisted
      have hdigest := answer_ok_iff.mp (Except.ok.inj (hanswer.symm.trans hok))
      by_cases hsame : rest = a ++ b
      · refine .inl ⟨y, ?_, hrange, hsame ▸ hrest⟩
        obtain ⟨a', m', b', rfl, hplace'⟩ := exists_block hy
        have hempty : candidates (a' ++ b') = [] := by
          rw [(stripsTo_block hother hplace').unique hrest, hsame]
          exact hnone
        exact extract_of_stripped hother hy hplace' hempty
      · exact .inr ⟨_, y, rest, (uncorrupted_iff hother).mpr hsound, locateAll_eq w hother, hy,
          hrange, hrest, hsame, hdigest⟩
  · rintro (⟨y, hy, hrange, hrest⟩ | ⟨ws, y, rest, hclean, hws, hy, hrange, hrest, _, hdigest⟩)
    · obtain ⟨hsound, hmem⟩ := sound_of_extract hother hy
      exact verify_accepted hother halg hasher normalizer hsound hmem (hrange ▸ hlisted) hrest rfl
    · rw [locateAll_eq w hother] at hws
      obtain rfl := Except.ok.inj hws
      have hsound := (uncorrupted_iff hother).mp hclean
      exact verify_accepted hother halg hasher normalizer hsound hy (hrange ▸ hlisted) hrest hdigest

theorem acceptance_is_evidence_signed : ∃ kept,
    StripsTo .w32 ('é' :: carrier [7] [] ++ ['b']) ⟨[7], 1, 2, 52⟩ kept ∧
      ∀ other, Fits .w32 other →
        (verifyDataHash .w32 other ⟨[⟨2, 52⟩], "sha256", [195, 169, 98], [], none⟩
            ⟨fun _ bytes => bytes⟩ ⟨id⟩ = .ok (.ok ()) ↔
          Reissued .w32 other ⟨[7], 1, 2, 52⟩ kept ∨
            Collides .w32 other ⟨[7], 1, 2, 52⟩ kept .sha256 ⟨fun _ bytes => bytes⟩ ⟨id⟩) :=
  acceptance_is_evidence (by decide) (by decide +kernel) (by decide +kernel)

end UnstructuredText
