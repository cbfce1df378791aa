import UnstructuredText.Lib.Shedding
import UnstructuredText.Asset.Cleaning

/-! Selections. The wrappers to be removed are chosen once, and excluded all at the ranges
they were located at, or they are stripped one at a time, each where it is located by then.
The texts that can be reached are the same, and the order does not matter. -/

namespace UnstructuredText
open Machine Sized MarkedRuns
variable {hasher : Hasher} {t : Text}

def wrapperAt (pre : List (Token Char)) (m : Text) : Wrapper :=
  asWrapper (runAt selectors (total (tokens selectors) pre) m)

theorem mem_asset_wrappers_iff {x : Wrapper} : x ∈ (asset hasher t).wrappers ↔
    ∃ pre m post, (asset hasher t).tokens = pre ++ .run m :: post ∧ x = wrapperAt pre m := by
  rw [Asset.wrappers, List.mem_map]
  constructor
  · rintro ⟨r, hr, rfl⟩
    obtain ⟨pre, m, post, htokens, rfl⟩ := (mem_located_iff selectors).mp hr
    rw [Nat.zero_add]
    exact ⟨pre, m, post, htokens, rfl⟩
  · rintro ⟨pre, m, post, htokens, rfl⟩
    refine ⟨_, (mem_located_iff selectors).mpr ⟨pre, m, post, htokens, ?_⟩, rfl⟩
    rw [Nat.zero_add]

theorem strip_tokens (hfit : Fits .w64 t) {pre post : List (Token Char)} {m : Text}
    (htokens : (asset hasher t).tokens = pre ++ .run m :: post) :
    ∃ t', (Action.strip (wrapperAt pre m)).perform hasher t = .ok (.ok t') ∧ Fits .w64 t' ∧
      (asset hasher t').tokens = pre ++ post := by
  have htext : t = render selectors pre ++ marker :: m ++ render selectors post := by
    have hrender := @Asset.text_asset hasher t
    rw [Doc.text, htokens, render_append] at hrender
    rw [List.append_assoc]
    exact hrender.symm
  have hlexed : Lexed selectors (reads hasher) (pre ++ post) :=
    (htokens ▸ (asset hasher t).lexed).remove
  rw [htext] at hfit ⊢
  refine ⟨_, perform_strip hasher hfit ?_, hfit.outer, ?_⟩
  · rw [← show total (tokens selectors) pre = strLen (render selectors pre) from
      total_tokens selectors pre]
    rfl
  · rw [← render_append]
    exact hlexed

def wrapperOfRun (p : ℕ × Text) : Wrapper := asWrapper (runAt selectors p.1 p.2)

theorem settle_wrapperOfRun {ps : List (ℕ × Text)} {p : ℕ × Text} {pre post ts : List (Token Char)}
    (h : Parts selectors 0 ts ps p pre post) :
    (wrapperOfRun p).settle (ps.map wrapperOfRun) = wrapperAt pre p.2 := by
  have hbefore : lengthBefore (ps.map wrapperOfRun) p.1 = totalBefore selectors ps p.1 := by
    rw [lengthBefore, totalBefore, List.filter_map, List.map_map]
    rfl
  have hstart : p.1 - lengthBefore (ps.map wrapperOfRun) p.1 = total (tokens selectors) pre := by
    have hplace := h.place
    omega
  rw [Wrapper.settle, wrapperAt, ← hstart]
  rfl

/-- The strips of the wrappers `zs` in turn, once `removed` are gone: each is stripped where
it stands by then. -/
def inTurn (removed : List Wrapper) : List Wrapper → List Action
  | [] => []
  | z :: zs => .strip (z.settle removed) :: inTurn (z :: removed) zs

theorem settle_perm {xs ys : List Wrapper} (h : xs.Perm ys) (z : Wrapper) :
    z.settle xs = z.settle ys := by
  unfold Wrapper.settle lengthBefore
  rw [((h.filter _).map Wrapper.length).sum_nat]

theorem inTurn_perm {xs ys : List Wrapper} (h : xs.Perm ys) (zs : List Wrapper) :
    inTurn xs zs = inTurn ys zs := by
  induction zs generalizing xs ys with
  | nil => rfl
  | cons z zs ih => rw [inTurn, inTurn, settle_perm h, ih (h.cons z)]

theorem strips_inTurn (removed zs : List Wrapper) : Strips (inTurn removed zs) := by
  induction zs generalizing removed with
  | nil => exact fun _ ha => absurd ha List.not_mem_nil
  | cons z zs ih => exact List.forall_mem_cons.mpr ⟨⟨_, rfl⟩, ih _⟩

def runsOf (hasher : Hasher) (t : Text) : List (ℕ × Text) :=
  placed selectors 0 (asset hasher t).tokens

theorem wrappers_eq_runsOf : (asset hasher t).wrappers = (runsOf hasher t).map wrapperOfRun := by
  rw [Asset.wrappers, located_eq_placed, List.map_map]
  rfl

def Leaves (hasher : Hasher) (t : Text) (ps : List (ℕ × Text)) (t' : Text) : Prop :=
  Sheds selectors 0 (asset hasher t).tokens ps (asset hasher t').tokens

theorem Leaves.applied {ps : List (ℕ × Text)} {t' : Text} (h : Leaves hasher t ps t')
    (hfit : Fits .w64 t) :
    applyExclusions .w64 t ((ps.map wrapperOfRun).map Wrapper.exclusion) = .ok (.ok t') := by
  have hcarved := h.carved
  rw [show render selectors (asset hasher t).tokens = t from Asset.text_asset t,
    show render selectors (asset hasher t').tokens = t' from Asset.text_asset t'] at hcarved
  apply applyExclusions_carved .w64 hfit
  rw [List.map_map, List.map_map]
  exact hcarved

theorem runsOf_nodup (hasher : Hasher) (t : Text) : (runsOf hasher t).Nodup :=
  (placed_pairwise selectors 0 _).imp fun hlt he => Nat.ne_of_lt hlt (congrArg Prod.fst he)

theorem eq_of_sublists {ps rs : List (ℕ × Text)} (hps : ps.Sublist (runsOf hasher t))
    (hrs : rs.Sublist (runsOf hasher t)) (hperm : rs.Perm ps) : rs = ps := by
  have hsorted := placed_pairwise selectors 0 (asset hasher t).tokens
  apply hperm.eq_of_pairwise ?_ (hsorted.sublist hrs) (hsorted.sublist hps)
  exact fun a b _ _ hab hba => absurd hba (Nat.lt_asymm hab)

variable (hlong : V2.LongDigests hasher)
include hlong

theorem strip_parts {ps : List (ℕ × Text)} {t₁ : Text} (hfit : Fits .w64 t₁) {p : ℕ × Text}
    {pre post : List (Token Char)}
    (htokens : (asset hasher t₁).tokens = pre ++ .run p.2 :: post)
    (hparts : Parts selectors 0 (asset hasher t).tokens ps p pre post) :
    Applies hasher t₁ (.strip ((wrapperOfRun p).settle (ps.map wrapperOfRun))) ∧
      ∃ t₂ qs, (Action.strip ((wrapperOfRun p).settle (ps.map wrapperOfRun))).perform hasher t₁ =
        .ok (.ok t₂) ∧ Fits .w64 t₂ ∧ Leaves hasher t qs t₂ ∧ qs.Perm (p :: ps) := by
  rw [settle_wrapperOfRun hparts]
  constructor
  · apply (applies_strip_iff hlong hfit).mpr
    exact mem_asset_wrappers_iff.mpr ⟨pre, _, post, htokens, rfl⟩
  · obtain ⟨t₂, hok, hfit₂, htokens₂⟩ := strip_tokens hfit htokens
    obtain ⟨qs, hperm, hqs⟩ := hparts.sheds
    rw [← htokens₂] at hqs
    exact ⟨t₂, qs, hok, hfit₂, hqs, hperm⟩

theorem Leaves.exists_inTurn {ps : List (ℕ × Text)} {t₁ t' : Text} {as : List Action}
    (h : History hasher t₁ as t') (hstrips : Strips as) (hleaves : Leaves hasher t ps t₁) :
    ∃ qs rs, as = inTurn (ps.map wrapperOfRun) (qs.map wrapperOfRun) ∧ Leaves hasher t rs t' ∧
      rs.Perm (ps ++ qs) := by
  induction h generalizing ps with
  | done hfit => exact ⟨[], ps, rfl, hleaves, by rw [List.append_nil]⟩
  | @step t₁ t₂ t' a as hfit happlies hok later ih =>
    obtain ⟨x, rfl⟩ := hstrips a List.mem_cons_self
    obtain ⟨pre, m, post, htokens, rfl⟩ :=
      mem_asset_wrappers_iff.mp ((applies_strip_iff hlong hfit).mp happlies)
    obtain ⟨p, rfl, hparts⟩ := Sheds.parts_of_left hleaves htokens
    obtain ⟨_, t₃, qs, hok₃, _, hleaves₃, hperm⟩ := strip_parts hlong hfit htokens hparts
    rw [← settle_wrapperOfRun hparts] at hok ⊢
    obtain rfl := ok_unique hok₃ hok
    obtain ⟨rest, rs, rfl, hrs, hperm'⟩ :=
      ih (fun b hb => hstrips b (List.mem_cons_of_mem _ hb)) hleaves₃
    refine ⟨p :: rest, rs, ?_, hrs, ?_⟩
    · rw [inTurn_perm (hperm.map wrapperOfRun)]
      rfl
    · exact hperm'.trans ((hperm.append_right rest).trans List.perm_middle.symm)

theorem Leaves.exists_history {ps qs : List (ℕ × Text)} {t₁ : Text}
    (hleaves : Leaves hasher t ps t₁) (hfit : Fits .w64 t₁)
    (hplaced : ∀ q ∈ qs, q ∈ runsOf hasher t) (hnodup : (ps ++ qs).Nodup) :
    ∃ t' rs, History hasher t₁ (inTurn (ps.map wrapperOfRun) (qs.map wrapperOfRun)) t' ∧
      Leaves hasher t rs t' ∧ rs.Perm (ps ++ qs) := by
  induction qs generalizing ps t₁ with
  | nil => exact ⟨t₁, ps, .done hfit, hleaves, by rw [List.append_nil]⟩
  | cons q qs ih =>
    obtain ⟨hq, hplaced⟩ := List.forall_mem_cons.mp hplaced
    have hnot : q ∉ ps := fun h => (List.nodup_append.mp hnodup).2.2 q h q List.mem_cons_self rfl
    obtain ⟨pre, post, htokens, hparts⟩ := Sheds.parts_of_placed hleaves hq hnot
    obtain ⟨happlies, t₂, ps', hok, hfit₂, hleaves₂, hperm⟩ :=
      strip_parts hlong hfit htokens hparts
    have hrest : (ps' ++ qs).Perm (ps ++ q :: qs) :=
      (hperm.append_right qs).trans List.perm_middle.symm
    obtain ⟨t', rs, hhistory, hrs, hperm'⟩ := ih hleaves₂ hfit₂ hplaced (hrest.nodup_iff.mpr hnodup)
    rw [inTurn_perm (hperm.map wrapperOfRun)] at hhistory
    exact ⟨t', rs, .step hfit happlies hok hhistory, hrs, hperm'.trans hrest⟩

omit hlong

structure Batches (hasher : Hasher) (t : Text) (xs : List Wrapper) : Prop where
  batched : ∀ as t', History hasher t as t' → Strips as → ∃ ys zs : List Wrapper,
    ys.Sublist xs ∧ zs.Perm ys ∧ as = inTurn [] zs ∧
      applyExclusions .w64 t (ys.map Wrapper.exclusion) = .ok (.ok t')
  ordered : ∀ ys zs : List Wrapper, ys.Sublist xs → zs.Perm ys → Strips (inTurn [] zs) ∧
    ∃ t', History hasher t (inTurn [] zs) t' ∧
      applyExclusions .w64 t (ys.map Wrapper.exclusion) = .ok (.ok t')

/-- The texts that strips reach are those that selections of the wrappers leave, and every
order of stripping a selection ends in the text it leaves. -/
theorem strips_batched (hlong : V2.LongDigests hasher) (hfit : Fits .w64 t) :
    ∃ xs shown broken, Decides t hasher xs shown broken ∧ Batches hasher t xs := by
  have hstart : Leaves hasher t [] t := .refl 0 _
  refine ⟨_, _, _, decides_asset hlong hfit, ?_, ?_⟩
  · intro as t' h hstrips
    obtain ⟨qs, rs, has, hleaves, hperm⟩ := hstart.exists_inTurn hlong h hstrips
    rw [wrappers_eq_runsOf]
    exact ⟨_, _, hleaves.sublist.map _, (hperm.symm.map wrapperOfRun), has, hleaves.applied hfit⟩
  · intro ys zs hsub hperm
    rw [wrappers_eq_runsOf] at hsub
    obtain ⟨ps, hps, rfl⟩ := List.sublist_map_iff.mp hsub
    obtain ⟨qs, rfl, hqs⟩ :=
      (congrFun (congrFun (List.eq_map_comp_perm wrapperOfRun) zs) ps).mpr hperm
    have hplaced : ∀ q ∈ qs, q ∈ runsOf hasher t := fun q hq => hps.subset (hqs.mem_iff.mp hq)
    have hnodup : qs.Nodup := hqs.nodup_iff.mpr ((runsOf_nodup hasher t).sublist hps)
    obtain ⟨t', rs, hhistory, hleaves, hrs⟩ := hstart.exists_history hlong hfit hplaced hnodup
    refine ⟨strips_inTurn _ _, t', hhistory, ?_⟩
    rw [← eq_of_sublists hps hleaves.sublist (hrs.trans hqs)]
    exact hleaves.applied hfit

theorem strips_batched_three : ∃ xs shown broken,
    Decides ('a' :: carrier [7] [] ++ V2.carrier ⟨fun _ _ => [1, 2, 3, 4]⟩ [8] [] ++ carrier [9] [])
      ⟨fun _ _ => [1, 2, 3, 4]⟩ xs shown broken ∧
    Batches ⟨fun _ _ => [1, 2, 3, 4]⟩
      ('a' :: carrier [7] [] ++ V2.carrier ⟨fun _ _ => [1, 2, 3, 4]⟩ [8] [] ++ carrier [9] []) xs :=
  @strips_batched ⟨fun _ _ => [1, 2, 3, 4]⟩ _ (fun _ _ => Nat.le_refl 4) (by decide)

end UnstructuredText
