import UnstructuredText.Frame.Codec
import UnstructuredText.Frame.Layout

/-! The scanner visits exactly the marked runs of a text, in order, and on every text a
machine can hold it ends without a fault. What is located and what counts as a candidate
is then read off the runs. -/

namespace UnstructuredText
open Machine Sized MarkedRuns
variable (w : PtrWidth)

def runs (text : Text) : List (Run UInt8) := runsFrom selectors 0 text

section Loop
variable {σ : Type} (visit : σ → List UInt8 → ℕ → ℕ → Exec σ)

theorem scanLoop_last {done rest : Text} (h : marker ∉ rest) (fuel : ℕ) (s : σ) :
    scanLoop w (done ++ rest) visit (fuel + 1) (strLen done) s = .ok s := by
  rw [scanLoop, strFrom_append, ok_bind, strFind, offsetOf_not_mem utf8 h]
  rfl

theorem scanLoop_next {done g m b : Text} (hfit : Fits w (done ++ (g ++ marker :: (m ++ b))))
    (hg : marker ∉ g) (hm : Decodable selectors m) (hb : Blunt selectors b) (fuel : ℕ) (s : σ) :
    scanLoop w (done ++ (g ++ marker :: (m ++ b))) visit (fuel + 1) (strLen done) s =
      visit s (decoded selectors m) (strLen done + strLen g) (strLen (marker :: m)) >>= fun s =>
        scanLoop w (done ++ (g ++ marker :: (m ++ b))) visit fuel
          (strLen (done ++ (g ++ marker :: m))) s := by
  have hlen := hfit.lt_usizeMax
  simp only [strLen_append, strLen_cons] at hlen
  have hfind : strFind (g ++ marker :: (m ++ b)) marker = some (strLen g) :=
    offsetOf_first utf8 hg (m ++ b)
  have hrun : strFrom (done ++ (g ++ marker :: (m ++ b)))
      (strLen done + strLen g + marker.utf8Size) = .ok (m ++ b) := by
    have h := strFrom_append (done ++ g ++ [marker]) (m ++ b)
    simpa only [List.append_assoc, List.cons_append, List.nil_append, strLen_append, strLen_cons,
      strLen_nil, Nat.add_zero, ← Nat.add_assoc] using h
  have hdecode : decodeRun (m ++ b) = (decoded selectors m, strLen m) := by
    rw [decodeRun_eq, sel_append selectors hm hb]
  have hsub : sub (strLen done + strLen g + marker.utf8Size + strLen m)
      (strLen done + strLen g) = .ok (strLen (marker :: m)) := by
    rw [Nat.add_assoc _ marker.utf8Size, sub_add_left, strLen_cons]
  have hstop : strLen done + strLen g + marker.utf8Size + strLen m =
      strLen (done ++ (g ++ marker :: m)) := by
    simp only [strLen_append, strLen_cons, Nat.add_assoc]
  rw [scanLoop, strFrom_append, ok_bind, hfind]
  simp only
  rw [add_ok (by omega), ok_bind, add_ok (by omega), ok_bind, hrun, ok_bind, hdecode]
  simp only
  rw [add_ok (by omega), ok_bind, hsub, ok_bind, Nat.max_eq_left (Nat.le_add_right _ _), hstop]

/-- The loop visits the runs of what is still to be scanned. -/
theorem scanLoop_eq (done rest : Text) (hfit : Fits w (done ++ rest)) {fuel : ℕ}
    (hfuel : rest.length < fuel) (s : σ) :
    scanLoop w (done ++ rest) visit fuel (strLen done) s =
      (runsFrom selectors (strLen done) rest).foldlM
        (fun s r => visit s r.items r.start r.length) s := by
  induction rest using runs_induction selectors generalizing done fuel s with
  | none rest h =>
    obtain ⟨fuel, rfl⟩ : ∃ k, fuel = k + 1 := ⟨fuel - 1, by omega⟩
    rw [scanLoop_last w visit h, runsFrom_eq_nil selectors _ h]
    rfl
  | run g m b hg hm hb ih =>
    obtain ⟨fuel, rfl⟩ : ∃ k, fuel = k + 1 := ⟨fuel - 1, by omega⟩
    have hbehind : done ++ (g ++ marker :: (m ++ b)) = done ++ (g ++ marker :: m) ++ b := by
      simp only [List.append_assoc, List.cons_append]
    have hlen : b.length < fuel := by
      simp only [List.length_append, List.length_cons] at hfuel
      omega
    have hoff : strLen (done ++ (g ++ marker :: m)) =
        strLen done + total utf8 g + total utf8 (marker :: m) := by
      rw [strLen_append, strLen_append, ← Nat.add_assoc]
      rfl
    -- the turn consumes a marker, which pays for the fuel it takes
    have hnext := scanLoop_next w visit hfit hg hm hb fuel s
    have hfirst := runsFrom_first selectors (strLen done) hg hm hb
    refine hnext.trans (Eq.trans ?_ (congrArg _ hfirst.symm))
    rw [List.foldlM_cons]
    refine congrArg (visit s _ _ _ >>= ·) (funext fun s' => ?_)
    rw [hbehind, ih _ (hbehind ▸ hfit) hlen s', hoff]
    rfl

theorem scan_eq {text : Text} (hfit : Fits w text) (s : σ) :
    scan w text visit s =
      (runs text).foldlM (fun s r => visit s r.items r.start r.length) s :=
  scanLoop_eq w visit [] text hfit (Nat.lt_succ_self _) s

theorem scan_found {text : Text} (hfit : Fits w text)
    {decode : List UInt8 → ℕ → ℕ → Exec (Option Wrapper)} {f : Run UInt8 → Option Wrapper}
    (h : ∀ r ∈ runs text, decode r.items r.start r.length = .ok (f r)) :
    scan w text (fun found run start length => do
      match ← decode run start length with
      | some x => return found ++ [x]
      | none => return found) [] = .ok ((runs text).filterMap f) := by
  rw [scan_eq w _ hfit, foldlM_ok _ (fun found r => found ++ (f r).toList), foldl_found]
  · rfl
  · intro found r hr
    rw [h r hr, ok_bind]
    cases f r with
    | none => exact congrArg Except.ok (List.append_nil found).symm
    | some x => rfl

theorem scan_any {text : Text} (hfit : Fits w text) {visit : Bool → List UInt8 → ℕ → ℕ → Exec Bool}
    {p : Run UInt8 → Bool}
    (h : ∀ seen, ∀ r ∈ runs text, visit seen r.items r.start r.length = .ok (seen || p r)) :
    scan w text visit false = .ok ((runs text).any p) := by
  rw [scan_eq w visit hfit, foldlM_ok _ (fun seen r => seen || p r) _ h, foldl_any, Bool.false_or]

end Loop

theorem frameBounds_header {v : UInt8} {n : UInt32} (rest : List UInt8) :
    frameBounds w (header v n rest) = .ok ((checkedAdd w headerLen n.toNat).map fun stop =>
      (stop, decide (stop ≤ headerLen + rest.length))) := by
  have hlen := header_length v n rest
  have hmagic : slice (header v n rest) 0 magic.length = .ok magic :=
    slice_zero_ok (by rw [hlen]; exact Nat.le_trans (by decide) (Nat.le_add_right headerLen _))
  have hn : fromBeBytes (UInt8.ofNat (n.toNat / 2 ^ 24)) (UInt8.ofNat (n.toNat / 2 ^ 16))
      (UInt8.ofNat (n.toNat / 2 ^ 8)) (UInt8.ofNat n.toNat) = n := fromBeBytes_toBeBytes n
  rw [frameBounds, if_neg (by omega), hmagic, ok_bind, if_neg (fun h => h rfl),
    index_ok rfl, ok_bind, index_ok rfl, ok_bind, index_ok rfl, ok_bind, index_ok rfl, ok_bind,
    hn, hlen]
  dsimp only
  cases checkedAdd w headerLen n.toNat <;> rfl

theorem frameBounds_none {run : List UInt8} (h : ¬(magic <+: run ∧ headerLen ≤ run.length)) :
    frameBounds w run = .ok none := by
  rcases Nat.lt_or_ge run.length headerLen with hlen | hlen
  · rw [frameBounds, if_pos hlen]
    rfl
  · have hmagic : run.take magic.length ≠ magic := fun he =>
      h ⟨List.prefix_iff_eq_take.mpr he.symm, hlen⟩
    rw [frameBounds, if_neg (Nat.not_lt.mpr hlen),
      slice_zero_ok (Nat.le_trans (by decide) hlen), ok_bind, if_pos hmagic]
    rfl

def IsCandidate (r : Run UInt8) : Prop := magic <+: r.items

instance (r : Run UInt8) : Decidable (IsCandidate r) :=
  inferInstanceAs (Decidable (magic <+: r.items))

def IsValid (r : Run UInt8) : Prop := Complete version 0 r.items

instance (r : Run UInt8) : Decidable (IsValid r) :=
  inferInstanceAs (Decidable (Complete version 0 r.items))

def toWrapper (r : Run UInt8) : Wrapper := ⟨body r.items, version, r.start, r.length⟩

def wrapperOf (r : Run UInt8) : Option Wrapper :=
  if IsCandidate r ∧ IsValid r then some (toWrapper r) else none

theorem wrapperOf_eq_some_iff {r : Run UInt8} {x : Wrapper} :
    wrapperOf r = some x ↔ IsCandidate r ∧ IsValid r ∧ x = toWrapper r := by
  rw [wrapperOf, Option.ite_none_right_eq_some, Option.some_inj, and_assoc, @eq_comm _ x]

theorem wrapperOf_header {v : UInt8} {n : UInt32} {rest : List UInt8} {start length : ℕ} :
    wrapperOf ⟨header v n rest, start, length⟩ =
      if v = version ∧ n.toNat ≤ rest.length then
        some ⟨rest.take n.toNat, version, start, length⟩
      else none := by
  have hcand : IsCandidate ⟨header v n rest, start, length⟩ := magic_prefix_header v n rest
  simp only [wrapperOf, toWrapper, hcand, true_and, IsValid, complete_header, Nat.add_zero,
    body_header]

theorem decodeFrame_header {v : UInt8} {n : UInt32} {rest : List UInt8}
    (hfits : headerLen + rest.length ≤ w.usizeMax) (start length : ℕ) :
    decodeFrame w (header v n rest) start length =
      .ok (wrapperOf ⟨header v n rest, start, length⟩) := by
  have hversion := index_ok (header_version v n rest)
  rw [decodeFrame, frameBounds_header, ok_bind, wrapperOf_header]
  rcases Nat.lt_or_ge rest.length n.toNat with hshort | hlong
  · -- the declared body passes the end of the run, whether or not its end is computed
    have hfalse := decide_eq_false (show ¬headerLen + n.toNat ≤ headerLen + rest.length by omega)
    rw [if_neg (fun h => Nat.not_le.mpr hshort h.2)]
    unfold checkedAdd
    split_ifs
    · simp only [Option.map_some, hversion, ok_bind, hfalse, Bool.not_false, Bool.or_true, if_true,
        pure_eq]
    · rfl
  · have htrue := decide_eq_true (show headerLen + n.toNat ≤ headerLen + rest.length by omega)
    have hslice : slice (header v n rest) headerLen (headerLen + n.toNat) =
        .ok (rest.take n.toNat) := by
      rw [slice_ok (Nat.le_add_right _ _) (by rw [header_length]; omega), header_take]
      exact congrArg Except.ok (header_drop v n _ 0)
    rw [checkedAdd_some (by omega), Option.map_some]
    simp only [hversion, ok_bind, htrue, Bool.not_true, Bool.or_false, decide_eq_true_eq, pure_eq]
    by_cases hv : v = version
    · rw [if_neg (fun hne => hne hv), if_pos ⟨hv, hlong⟩, hslice, ok_bind]
    · rw [if_pos hv, if_neg (fun hc => hv hc.1)]

theorem decodeFrame_eq {run : List UInt8} (hrun : run.length ≤ w.usizeMax) (start length : ℕ) :
    decodeFrame w run start length = .ok (wrapperOf ⟨run, start, length⟩) := by
  by_cases h : magic <+: run ∧ headerLen ≤ run.length
  · obtain ⟨v, n, rest, rfl⟩ := exists_header h.1 h.2
    rw [header_length] at hrun
    exact decodeFrame_header w hrun start length
  · rw [decodeFrame, frameBounds_none w h, ok_bind, wrapperOf,
      if_neg (fun hc => h ⟨hc.1, hc.2.1⟩)]
    rfl

theorem bearsMagic_eq (run : List UInt8) : bearsMagic run = .ok (decide (magic <+: run)) := by
  rcases Nat.lt_or_ge run.length magic.length with hlen | hlen
  · have hno : ¬magic <+: run := fun h => Nat.not_le.mpr hlen h.length_le
    rw [bearsMagic, if_pos hlen, decide_eq_false hno]
    rfl
  · rw [bearsMagic, if_neg (Nat.not_lt.mpr hlen), slice_zero_ok hlen, ok_bind, pure_eq]
    simp only [List.prefix_iff_eq_take, eq_comm]

def wrappers (text : Text) : List Wrapper := (runs text).filterMap wrapperOf

theorem runs_length_le {text : Text} {r : Run UInt8} (hfit : Fits w text) (h : r ∈ runs text) :
    r.items.length ≤ w.usizeMax := by
  obtain ⟨c, rfl⟩ := exists_cut selectors h
  have hitems : (c.toRun 0).items.length = c.run.length := decoded_length selectors c.decodable
  have htotal : total utf8 text = _ := congrArg (total utf8) c.eq_block
  have hlen : c.run.length ≤ total utf8 c.run := length_le_total utf8 c.run
  have htext : total utf8 text < w.usizeMax := hfit.lt_usizeMax
  simp only [total_append, Cut.block, total_cons] at htotal
  omega

theorem locateAll_eq {text : Text} (hfit : Fits w text) :
    locateAll w text = .ok (wrappers text) :=
  scan_found w hfit fun r hr => decodeFrame_eq w (runs_length_le w hfit hr) r.start r.length

theorem hasCandidate_eq {text : Text} (hfit : Fits w text) :
    hasCandidate w text = .ok ((runs text).any fun r => IsCandidate r) := by
  apply scan_any w hfit
  intro seen r _
  rw [bearsMagic_eq, ok_bind]
  by_cases h : magic <+: r.items
  · rw [if_pos (decide_eq_true h), decide_eq_true (show IsCandidate r from h), Bool.or_true]
    rfl
  · rw [if_neg (by simpa using h), decide_eq_false (show ¬IsCandidate r from h), Bool.or_false]
    rfl

theorem hasCorruptedCandidate_eq {text : Text} (hfit : Fits w text) :
    hasCorruptedCandidate w text =
      .ok ((runs text).any fun r => decide (IsCandidate r ∧ ¬IsValid r)) := by
  apply scan_any w hfit
  intro seen r hr
  rw [bearsMagic_eq, ok_bind]
  by_cases h : magic <+: r.items
  · rw [if_pos (decide_eq_true h), decodeFrame_eq w (runs_length_le w hfit hr), ok_bind]
    by_cases hv : IsValid r
    · have hsome : (wrapperOf ⟨r.items, r.start, r.length⟩).isNone = false := by
        rw [wrapperOf, if_pos ⟨h, hv⟩]
        rfl
      rw [hsome, if_neg Bool.false_ne_true, decide_eq_false (fun hc => hc.2 hv), Bool.or_false]
      rfl
    · have hnone : (wrapperOf ⟨r.items, r.start, r.length⟩).isNone = true := by
        rw [wrapperOf, if_neg (fun hc => hv hc.2)]
        rfl
      rw [hnone, if_pos rfl, decide_eq_true (show IsCandidate r ∧ _ from ⟨h, hv⟩), Bool.or_true]
      rfl
  · rw [if_neg (by simpa using h), decide_eq_false (fun hc => h hc.1), Bool.or_false]
    rfl

end UnstructuredText
