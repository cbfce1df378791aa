import UnstructuredText.Asset.Resigning

/-! The fate of a binding. After any one further action on a signed text, what `extract`
and `verifyDataHash` answer is told by the action: a second signature leaves two wrappers
and a changed digest, a strip leaves none, and a paste either moves the wrapper or changes
what the digest covers. -/

namespace UnstructuredText
open Machine Sized MarkedRuns

theorem perform_paste (hasher : Hasher) (a s b : Text) :
    (Action.paste (strLen a) s).perform hasher (a ++ b) = .ok (.ok (a ++ s ++ b)) := by
  rw [Action.perform, strTo_append, ok_bind, strFrom_append]
  rfl

section Paste
variable {u s v : Text}

theorem candidates_append (u : Text) {v : Text} (hv : Blunt selectors v) :
    candidates (u ++ v) = candidates u ++ (candidates v).map (Run.shift (strLen u)) := by
  unfold candidates
  rw [runs_append u hv, List.filter_append, List.filter_map]
  rfl

theorem candidates_paste (hs : Blunt selectors s) (hv : Blunt selectors v)
    (hnone : candidates s = []) : candidates (u ++ s ++ v) =
      candidates u ++ (candidates v).map (Run.shift (strLen u + strLen s)) := by
  rw [candidates_append _ hv, candidates_append u hs, hnone, List.map_nil, List.append_nil,
    strLen_append]

theorem candidates_paste_single (hs : Blunt selectors s) (hv : Blunt selectors v)
    (hnone : candidates s = []) {r : Run UInt8} (hr : candidates (u ++ v) = [r]) :
    (r.start < strLen u ∧ candidates (u ++ s ++ v) = [r]) ∨
      (strLen u ≤ r.start ∧ candidates (u ++ s ++ v) = [r.shift (strLen s)]) := by
  rw [candidates_append u hv] at hr
  rw [candidates_paste hs hv hnone]
  rcases List.append_eq_singleton_iff.mp hr with ⟨hu, hmap⟩ | ⟨hu, hmap⟩
  · refine .inr ?_
    obtain ⟨r₀, hr₀, hshift⟩ := List.map_eq_singleton_iff.mp hmap
    rw [hu, hr₀, ← hshift]
    refine ⟨Nat.le_add_left _ _, ?_⟩
    rw [List.nil_append, List.map_singleton]
    simp only [Run.shift, Nat.add_assoc]
  · refine .inl ?_
    have hmem : r ∈ candidates u := hu ▸ List.mem_singleton_self r
    have hbounds := runsFrom_bounds selectors (List.mem_filter.mp hmem).1
    have hpos := runsFrom_length_pos selectors (List.mem_filter.mp hmem).1
    rw [List.map_eq_nil_iff.mp hmap, hu]
    refine ⟨?_, rfl⟩
    have hstop : r.start + r.length ≤ 0 + strLen u := hbounds.2
    omega

end Paste

theorem sound_append_carrier {t : Text} (h : Sound t) {payload : List UInt8} (pad : List UInt8)
    (hlen : payload.length ≤ u32Max) : Sound (t ++ carrier payload pad) := by
  rw [sound_iff, candidates_append_carrier, forall_append_valid (isValid_carrierRun pad _ hlen)]
  exact sound_iff.mp h

section Fate
variable {a m b : Text} {x : Wrapper} (hfit : Fits .w64 (a ++ m ++ b))
  (hx : extract .w64 (a ++ m ++ b) = .ok (.ok x)) (hplace : x.exclusion = ⟨strLen a, strLen m⟩)
  {d : DataHash} {alg : Algorithm} (halg : alg.id = d.alg) (binder : Hasher)
  (normalizer : Normalizer)
include hfit hx hplace halg

theorem fate_signed (hd : d.exclusions = [x.exclusion]) {payload pad : List UInt8}
    (hlen : payload.length ≤ u32Max) (hroom : Fits .w64 (a ++ m ++ b ++ carrier payload pad)) :
    extract .w64 (a ++ m ++ b ++ carrier payload pad) = .ok (.error .multipleWrappers) ∧
      verifyDataHash .w64 (a ++ m ++ b ++ carrier payload pad) d binder normalizer =
        .ok (answer d alg binder normalizer (a ++ b ++ carrier payload pad)) := by
  refine ⟨(embeds_carrier .w64 hlen pad hroom).multiple.mpr (.inl ⟨x, hx⟩), ?_⟩
  obtain ⟨hsound, hmem⟩ := sound_of_extract hfit hx
  have hsound' := sound_append_carrier hsound pad hlen
  have hmem' : x ∈ wrappers (a ++ m ++ b ++ carrier payload pad) := by
    rw [wrappers_append_carrier _ pad hlen]
    exact List.mem_append_left _ hmem
  obtain ⟨rest, hrest, hanswer⟩ := verify_located hroom halg binder normalizer hsound' hmem' hd
  -- the wrapper stands where it stood, with the carrier behind what follows it
  have hstrip : StripsTo .w64 (a ++ m ++ b ++ carrier payload pad) x
      (a ++ b ++ carrier payload pad) := by
    rw [List.append_assoc (a ++ m)] at hroom ⊢
    rw [List.append_assoc a b]
    exact stripsTo_block hroom hplace
  rw [hanswer, hrest.unique hstrip]

theorem fate_stripped : extract .w64 (a ++ b) = .ok (.error .notFound) ∧
    verifyDataHash .w64 (a ++ b) d binder normalizer = .ok (.error .malformedExclusion) := by
  have hnone := candidates_stripped hfit hx hplace
  have hwrappers : wrappers (a ++ b) = [] := by
    rw [wrappers_eq, hnone]
    rfl
  have hsound : Sound (a ++ b) := by
    rw [sound_iff, hnone]
    exact fun r hr => absurd hr List.not_mem_nil
  constructor
  · rw [extract_eq .w64 hfit.outer, hnone]
    rfl
  · refine verify_malformed hfit.outer binder normalizer ⟨alg, halg⟩ hsound ?_ ?_
    · rw [hwrappers]
      exact Nat.two_pos
    · rintro ⟨y, hy, _⟩
      rw [hwrappers] at hy
      exact List.not_mem_nil hy

end Fate

section Broken
variable {hasher : Hasher} (hlong : V2.LongDigests hasher) (t : Text) {payload : List UInt8}
  (hlen : payload.length ≤ u32Max) (hfit : Fits .w64 (t ++ V2.carrier hasher payload []))
include hlong hlen hfit

theorem fate_signedV2 {d : DataHash} (halg : Known d) (binder : Hasher) (normalizer : Normalizer) :
    extract .w64 (t ++ V2.carrier hasher payload []) = .ok (.error .corruptedWrapper) ∧
      verifyDataHash .w64 (t ++ V2.carrier hasher payload []) d binder normalizer =
        .ok (.error .corruptedWrapper) := by
  obtain ⟨hmagic, hvalid, _⟩ := (@V2.valid_iff_frame hasher hlong _ payload (strLen t)
    (strLen (V2.carrier hasher payload []))).mpr ⟨hlen, [], rfl⟩
  have hbad : ∃ r ∈ candidates (t ++ V2.carrier hasher payload []), ¬IsValid r := by
    refine ⟨_, ?_, fun hv => V2.not_isValid_of_v1 hv hvalid⟩
    rw [V2.carrier, candidates_append_encoded _ hmagic]
    exact List.mem_append_right _ (List.mem_singleton_self _)
  refine ⟨?_, verify_corrupted hfit binder normalizer halg fun hsound => ?_⟩
  · rw [extract_eq .w64 hfit, verdict_corrupted hbad]
  · obtain ⟨r, hr, hr'⟩ := hbad
    exact hr' (sound_iff.mp hsound r hr)

end Broken

section Pasted
variable {u s v : Text} (hs : Blunt selectors s) (hv : Blunt selectors v)
  {x : Wrapper} (hfit : Fits .w64 (u ++ v)) (hx : extract .w64 (u ++ v) = .ok (.ok x))
  (hfit' : Fits .w64 (u ++ s ++ v)) (hnone : extract .w64 s = .ok (.error .notFound))
include hs hv hfit hx hfit' hnone

theorem extract_paste : Sound (u ++ s ++ v) ∧
    (x.start < strLen u ∧ wrappers (u ++ s ++ v) = [x] ∧
        extract .w64 (u ++ s ++ v) = .ok (.ok x) ∨
      strLen u ≤ x.start ∧ wrappers (u ++ s ++ v) = [x.shift (strLen s)] ∧
        extract .w64 (u ++ s ++ v) = .ok (.ok (x.shift (strLen s)))) := by
  obtain ⟨r, hr, hvalid, rfl⟩ := (extract_ok_iff .w64 hfit).mp hx
  rw [extract_eq .w64 hfit'.left.right, Except.ok.injEq, verdict_notFound_iff] at hnone
  rcases candidates_paste_single hs hv hnone hr with ⟨hbehind, hc⟩ | ⟨hfront, hc⟩
  · refine ⟨sound_of_candidates hc hvalid, .inl ⟨hbehind, wrappers_of_candidates hc hvalid, ?_⟩⟩
    exact (extract_ok_iff .w64 hfit').mpr ⟨r, hc, hvalid, rfl⟩
  · have hvalid' : IsValid (r.shift (strLen s)) := hvalid
    refine ⟨sound_of_candidates hc hvalid', .inr ⟨hfront, wrappers_of_candidates hc hvalid', ?_⟩⟩
    exact (extract_ok_iff .w64 hfit').mpr ⟨_, hc, hvalid', rfl⟩

theorem fate_pasted {d : DataHash} {alg : Algorithm} (halg : alg.id = d.alg)
    (hd : d.exclusions = [x.exclusion]) (binder : Hasher) (normalizer : Normalizer) :
    x.start < strLen u ∧ extract .w64 (u ++ s ++ v) = .ok (.ok x) ∧
        (∃ rest, StripsTo .w64 (u ++ s ++ v) x rest ∧
          verifyDataHash .w64 (u ++ s ++ v) d binder normalizer =
            .ok (answer d alg binder normalizer rest)) ∨
      strLen u ≤ x.start ∧ extract .w64 (u ++ s ++ v) = .ok (.ok (x.shift (strLen s))) ∧
        (s ≠ [] → verifyDataHash .w64 (u ++ s ++ v) d binder normalizer =
          .ok (.error .malformedExclusion)) := by
  obtain ⟨hsound, ⟨hplace, hws, hok⟩ | ⟨hplace, hws, hok⟩⟩ :=
    extract_paste hs hv hfit hx hfit' hnone
  · refine .inl ⟨hplace, hok, ?_⟩
    have hmem : x ∈ wrappers (u ++ s ++ v) := hws ▸ List.mem_singleton_self x
    exact verify_located hfit' halg binder normalizer hsound hmem hd
  · refine .inr ⟨hplace, hok, fun hs => ?_⟩
    refine verify_malformed hfit' binder normalizer ⟨alg, halg⟩ hsound ?_ ?_
    · rw [hws]
      exact Nat.lt_succ_of_le (List.length_filter_le _ _)
    · rintro ⟨y, hy, hy'⟩
      rw [hws, List.mem_singleton] at hy
      rw [hd, hy, List.singleton_inj] at hy'
      -- the paste is not empty, so the wrapper has moved
      have hmoved : x.start = x.start + strLen s := congrArg Exclusion.start hy'
      exact hs ((total_eq_zero utf8).mp (Nat.left_eq_add.mp hmoved))

end Pasted

/-- What one further action does to a text signed by `x`, to its wrapper and to its binding
`d`. `kept` is the text without the wrapper. -/
structure Fates (hasher : Hasher) (t : Text) (x : Wrapper) (kept : Text) (d : DataHash)
    (alg : Algorithm) (binder : Hasher) (normalizer : Normalizer) : Prop where
  signed : ∀ payload a, a = .embed payload ∨ a = .embedPadded payload → Applies hasher t a →
    ∃ c, a.perform hasher t = .ok (.ok (t ++ c)) ∧ (Fits .w64 (t ++ c) →
      extract .w64 (t ++ c) = .ok (.error .multipleWrappers) ∧
        verifyDataHash .w64 (t ++ c) d binder normalizer =
          .ok (answer d alg binder normalizer (kept ++ c)))
  signedV2 : ∀ payload, Applies hasher t (.embedV2 payload) →
    ∃ c, (Action.embedV2 payload).perform hasher t = .ok (.ok (t ++ c)) ∧ (Fits .w64 (t ++ c) →
      extract .w64 (t ++ c) = .ok (.error .corruptedWrapper) ∧
        verifyDataHash .w64 (t ++ c) d binder normalizer = .ok (.error .corruptedWrapper))
  stripped : StripsTo .w64 t x kept ∧ extract .w64 kept = .ok (.error .notFound) ∧
    verifyDataHash .w64 kept d binder normalizer = .ok (.error .malformedExclusion)
  pasted : ∀ n s, Applies hasher t (.paste n s) →
    ∃ t', (Action.paste n s).perform hasher t = .ok (.ok t') ∧ (Fits .w64 t' →
      extract .w64 s = .ok (.error .notFound) →
      (x.start < n ∧ extract .w64 t' = .ok (.ok x) ∧
        ∃ rest, StripsTo .w64 t' x rest ∧
          verifyDataHash .w64 t' d binder normalizer =
            .ok (answer d alg binder normalizer rest)) ∨
      (n ≤ x.start ∧ extract .w64 t' = .ok (.ok (x.shift (strLen s))) ∧
        (s ≠ [] → verifyDataHash .w64 t' d binder normalizer =
          .ok (.error .malformedExclusion))))

theorem binding_fates {hasher : Hasher} (hlong : V2.LongDigests hasher) {t : Text}
    (hfit : Fits .w64 t) {x : Wrapper} (hx : extract .w64 t = .ok (.ok x)) {d : DataHash}
    {alg : Algorithm} {binder : Hasher} {normalizer : Normalizer}
    (hd : computeDataHash .w64 t alg binder normalizer = .ok (.ok d)) :
    ∃ kept, Fates hasher t x kept d alg binder normalizer := by
  obtain ⟨a, m, b, rfl, hsigned, hplace, _⟩ := exists_signed hlong hfit hx
  have hcompute := computeDataHash_eq alg binder normalizer hsigned
  obtain rfl := ok_unique hcompute hd
  have hlisted : (binding alg binder normalizer a m b).exclusions = [x.exclusion] := by
    rw [hplace]
    rfl
  have halg : alg.id = (binding alg binder normalizer a m b).alg := rfl
  refine ⟨a ++ b, ⟨?_, ?_, ⟨stripsTo_block hfit hplace, ?_⟩, ?_⟩⟩
  · rintro payload a' (rfl | rfl) happlies
    · cases happlies with
      | embed hlen =>
        exact ⟨_, perform_embed hasher hlen _,
          fate_signed hfit hx hplace halg binder normalizer hlisted hlen⟩
    · cases happlies with
      | embedPadded hlen =>
        obtain ⟨pad, _, hperform⟩ := perform_embedPadded hasher hlen (a ++ m ++ b)
        exact ⟨_, hperform, fate_signed hfit hx hplace halg binder normalizer hlisted hlen⟩
  · intro payload happlies
    cases happlies with
    | embedV2 hlen =>
      refine ⟨_, perform_embedV2 hasher hlen _ hlong, fun hfit' => ?_⟩
      exact fate_signedV2 hlong _ hlen hfit' ⟨alg, halg⟩ binder normalizer
  · exact fate_stripped hfit hx hplace halg binder normalizer
  · intro n s happlies
    generalize a ++ m ++ b = text at *
    cases happlies with
    | @paste u _ v ht hs hv =>
      subst ht
      refine ⟨_, perform_paste hasher u s v, fun hfit' hnone => ?_⟩
      exact fate_pasted hs hv hfit hx hfit' hnone halg hlisted binder normalizer

theorem binding_fates_front : ∃ kept, Fates ⟨fun _ _ => [1, 2, 3, 4]⟩
    ('a' :: carrier [7] [] ++ ['b']) ⟨[7], 1, 1, 52⟩ kept
      ⟨[⟨1, 52⟩], "sha256", [97, 98], [], none⟩ .sha256 ⟨fun _ bytes => bytes⟩ ⟨id⟩ :=
  @binding_fates ⟨fun _ _ => [1, 2, 3, 4]⟩ (fun _ _ => Nat.le_refl 4) _ (by decide) _
    (by decide +kernel) _ _ _ _ (by decide +kernel)

end UnstructuredText
