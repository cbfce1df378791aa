import UnstructuredText.Lib.Editing
import UnstructuredText.Asset.Outcomes
import UnstructuredText.Frame.Padding
import UnstructuredText.Binding.Placeholder
import UnstructuredText.Binding.Evidence

/-! Histories. A text is signed, stripped and edited over and over; each call changes the
document by inserting or removing one piece of it. So over any history every wrapper is
accounted for, and what is shown is what was shown plus what was pasted. -/

namespace UnstructuredText
open Machine Sized MarkedRuns

/-- What happens to a text: one of the encoders puts a wrapper behind it, a located wrapper
is stripped, or the host is edited and `s` is pasted at offset `n`. -/
inductive Action
  | embed (payload : List UInt8)
  | embedPadded (payload : List UInt8)
  | embedV2 (payload : List UInt8)
  | strip (x : Wrapper)
  | paste (n : ℕ) (s : Text)

structure Content where
  payload : List UInt8
  version : UInt8
  length : ℕ
  deriving DecidableEq, Repr

def Wrapper.content (x : Wrapper) : Content := ⟨x.payload, x.version, x.length⟩

def contentOf (m : Text) : Content := (asWrapper (runAt selectors 0 m)).content

namespace Action
variable (hasher : Hasher)

def perform (t : Text) : Action → Exec (Except Error Text)
  | embed payload => UnstructuredText.embed .w64 t payload
  | embedPadded payload => do
    match ← encodePadded .w64 payload with
    | .error e => return .error e
    | .ok carrier => return .ok (t ++ carrier)
  | embedV2 payload => V2.embed .w64 t payload hasher
  | strip x => do UnstructuredText.strip t (← x.range .w64)
  | paste n s => do return .ok ((← strTo t n) ++ s ++ (← strFrom t n))

def gained : Action → List Content
  | embed payload => [⟨payload, 1, strLen (carrier payload [])⟩]
  | embedPadded payload => [⟨payload, 1, paddedLen payload.length⟩]
  | embedV2 payload => [⟨payload, 2, strLen (V2.carrier hasher payload [])⟩]
  | strip _ => []
  | paste _ s => (asset hasher s).wrappers.map Wrapper.content

def lost : Action → List Content
  | strip x => [x.content]
  | _ => []

def shown : Action → Text
  | paste _ s => (asset hasher s).shown
  | _ => []

end Action

/-- The actions that apply to a text. Payloads have a length the header can declare, what is
stripped is located, and a paste neither splits a selector run nor continues one. -/
inductive Applies (hasher : Hasher) (t : Text) : Action → Prop
  | embed {payload : List UInt8} (hlen : payload.length ≤ u32Max) :
      Applies hasher t (.embed payload)
  | embedPadded {payload : List UInt8} (hlen : payload.length ≤ u32Max) :
      Applies hasher t (.embedPadded payload)
  | embedV2 {payload : List UInt8} (hlen : payload.length ≤ u32Max) :
      Applies hasher t (.embedV2 payload)
  | strip {ws : List Wrapper} {x : Wrapper} (hws : locateAll .w64 t = .ok ws) (hx : x ∈ ws) :
      Applies hasher t (.strip x)
  | stripV2 {ws : List Wrapper} {x : Wrapper} (hws : V2.locateAll .w64 t hasher = .ok ws)
      (hx : x ∈ ws) : Applies hasher t (.strip x)
  | paste {a s b : Text} (ht : t = a ++ b) (hs : Blunt selectors s) (hb : Blunt selectors b) :
      Applies hasher t (.paste (strLen a) s)

inductive History (hasher : Hasher) : Text → List Action → Text → Prop
  | done {t : Text} (hfit : Fits .w64 t) : History hasher t [] t
  | step {t t' t'' : Text} {a : Action} {as : List Action} (hfit : Fits .w64 t)
      (happlies : Applies hasher t a) (hok : a.perform hasher t = .ok (.ok t'))
      (later : History hasher t' as t'') : History hasher t (a :: as) t''

section Carriers
variable {hasher : Hasher} {payload : List UInt8} (hlen : payload.length ≤ u32Max)
include hlen

theorem readable_frame (pad : List UInt8) : Readable hasher (frame version payload pad) := by
  obtain ⟨hmagic, hcomplete, _⟩ :=
    complete_iff_frame.mpr ⟨hlen, pad, Nat.zero_le _, rfl⟩
  exact ⟨hmagic, .inl hcomplete⟩

theorem readable_checked (hlong : V2.LongDigests hasher) (extra : List UInt8) :
    Readable hasher (V2.checked payload ++ V2.checksum hasher (V2.checked payload) ++ extra) := by
  obtain ⟨hmagic, hvalid, _⟩ :=
    (@V2.valid_iff_frame hasher hlong _ payload 0 0).mpr ⟨hlen, extra, rfl⟩
  exact ⟨hmagic, .inr hvalid⟩

variable (hasher) (t : Text)

theorem perform_embed :
    (Action.embed payload).perform hasher t = .ok (.ok (t ++ carrier payload [])) :=
  embed_eq .w64 t hlen (reserves_w64 (framed_le hlen))

theorem perform_embedPadded : ∃ pad, strLen (carrier payload pad) = paddedLen payload.length ∧
    (Action.embedPadded payload).perform hasher t = .ok (.ok (t ++ carrier payload pad)) := by
  obtain ⟨pad, hok, hpadded⟩ := encodePadded_eq .w64 hlen (paddedLen_le hlen)
  refine ⟨pad, hpadded, ?_⟩
  rw [Action.perform, hok]
  rfl

theorem perform_embedV2 (hlong : V2.LongDigests hasher) :
    (Action.embedV2 payload).perform hasher t =
      .ok (.ok (t ++ V2.carrier hasher payload [])) :=
  V2.embed_eq hlong .w64 t hlen (reserves_w64 (V2.framed_le hlen))

end Carriers

theorem contents_asset {hasher : Hasher} (d : Asset hasher) :
    d.wrappers.map Wrapper.content = (carried d.tokens).map contentOf := by
  have hlocated : ∀ (off : ℕ) (ts : List (Token Char)),
      (located selectors off ts).map (fun r => (asWrapper r).content) =
        (carried ts).map contentOf := by
    intro off ts
    induction ts generalizing off with
    | nil => rfl
    | cons t ts ih =>
      cases t with
      | item a => exact ih _
      | run m => exact congrArg (_ :: ·) (ih _)
  rw [Asset.wrappers, List.map_map]
  apply hlocated

theorem contentOf_encodeRun (bytes : List UInt8) : contentOf (encodeRun bytes) =
    ⟨body bytes, bytes.getD 8 0, strLen (marker :: encodeRun bytes)⟩ := by
  unfold contentOf runAt
  rw [decoded_encodeRun]
  rfl

section Edits
variable {hasher : Hasher} {t : Text} {bytes : List UInt8}

theorem tokens_encoded (h : Readable hasher bytes) :
    (asset hasher (marker :: encodeRun bytes)).tokens = [.run (encodeRun bytes)] := by
  have hread : reads hasher (decoded selectors (encodeRun bytes)) = true := by
    rw [decoded_encodeRun]
    exact decide_eq_true h
  have hlex := lex_marker selectors (reads hasher) (decodable_encodeRun bytes)
    (blunt_nil selectors)
  rwa [List.append_nil, block, if_pos hread] at hlex

theorem edit_attach (t : Text) (h : Readable hasher bytes) :
    Edit (asset hasher t) (.inserted [.run (encodeRun bytes)])
      (asset hasher (t ++ marker :: encodeRun bytes)) := by
  have hinsert := @edit_insert _ _ selectors _ (reads hasher) t (marker :: encodeRun bytes) []
    (blunt_marker selectors _) (blunt_nil selectors)
  have htokens := tokens_encoded h
  rw [List.append_nil, List.append_nil] at hinsert
  rw [← htokens]
  exact hinsert

theorem exists_block_of_mem {x : Wrapper} (hx : x ∈ (asset hasher t).wrappers) :
    ∃ a bytes b, t = a ++ marker :: encodeRun bytes ++ b ∧ Readable hasher bytes ∧
      Blunt selectors b ∧
        x = asWrapper ⟨bytes, strLen a, strLen (marker :: encodeRun bytes)⟩ := by
  rw [Asset.wrappers, Asset.located_eq] at hx
  obtain ⟨r, hr, rfl⟩ := List.mem_map.mp hx
  obtain ⟨hrun, hread⟩ := List.mem_filter.mp hr
  obtain ⟨c, rfl⟩ := mem_runs_iff.mp hrun
  refine ⟨c.before, cutBytes c, c.after, ?_, of_decide_eq_true hread, c.blunt, ?_⟩
  · rw [← block_eq]
    exact c.eq_block
  · rw [← block_eq]
    rfl

theorem perform_strip (hasher : Hasher) {a m b : Text} (hfit : Fits .w64 (a ++ m ++ b))
    {x : Wrapper} (hx : x.exclusion = ⟨strLen a, strLen m⟩) :
    (Action.strip x).perform hasher (a ++ m ++ b) = .ok (.ok (a ++ b)) := by
  obtain ⟨range, hrange, hstrip⟩ := stripsTo_block hfit hx
  rw [Action.perform, hrange, ok_bind, hstrip]

theorem strip_edit (hfit : Fits .w64 t) {x : Wrapper} (hx : x ∈ (asset hasher t).wrappers) :
    ∃ m t', (Action.strip x).perform hasher t = .ok (.ok t') ∧
      Edit (asset hasher t) (.removed m) (asset hasher t') ∧ contentOf m = x.content := by
  obtain ⟨a, bytes, b, rfl, hread, hb, rfl⟩ := exists_block_of_mem hx
  refine ⟨encodeRun bytes, a ++ b, perform_strip hasher hfit rfl, ?_, contentOf_encodeRun bytes⟩
  have hreads : reads hasher (decoded selectors (encodeRun bytes)) = true := by
    rw [decoded_encodeRun]
    exact decide_eq_true hread
  have hremove := edit_remove a (decodable_encodeRun bytes) hb hreads
  rw [List.append_assoc]
  exact hremove

end Edits

theorem perform_edit {hasher : Hasher} (hlong : V2.LongDigests hasher) {t : Text}
    (hfit : Fits .w64 t) {a : Action} (ha : Applies hasher t a) :
    ∃ t' c, a.perform hasher t = .ok (.ok t') ∧ Edit (asset hasher t) c (asset hasher t') ∧
      c.gains.map contentOf = a.gained hasher ∧ c.loses.map contentOf = a.lost ∧
        c.shows = a.shown hasher := by
  cases ha with
  | @embed payload hlen =>
    refine ⟨_, _, perform_embed hasher hlen t, edit_attach t (readable_frame hlen []), ?_, rfl, rfl⟩
    change [contentOf _] = _
    rw [contentOf_encodeRun, body_frame version [] hlen]
    rfl
  | @embedPadded payload hlen =>
    obtain ⟨pad, hpadded, hok⟩ := perform_embedPadded hasher hlen t
    refine ⟨_, _, hok, edit_attach t (readable_frame hlen pad), ?_, rfl, rfl⟩
    change [contentOf _] = [⟨payload, 1, paddedLen payload.length⟩]
    rw [contentOf_encodeRun, body_frame version pad hlen, ← hpadded]
    rfl
  | @embedV2 payload hlen =>
    obtain ⟨_, _, hbody⟩ := (@V2.valid_iff_frame hasher hlong _ payload 0 0).mpr
      ⟨hlen, [], rfl⟩
    refine ⟨_, _, perform_embedV2 hasher hlen t hlong,
      edit_attach t (readable_checked hlen hlong []), ?_, rfl, rfl⟩
    change [contentOf _] = _
    rw [contentOf_encodeRun, hbody]
    rfl
  | strip hws hx =>
    rw [locateAll_eq .w64 hfit] at hws
    obtain rfl := Except.ok.inj hws
    rw [← @Asset.ofVersion_one hasher] at hx
    obtain ⟨m, t', hok, hedit, hcontent⟩ := strip_edit hfit (List.mem_filter.mp hx).1
    exact ⟨t', _, hok, hedit, rfl, congrArg (fun c => [c]) hcontent, rfl⟩
  | stripV2 hws hx =>
    rw [V2.locateAll_eq hlong hfit] at hws
    obtain rfl := Except.ok.inj hws
    rw [← @Asset.ofVersion_two hasher] at hx
    obtain ⟨m, t', hok, hedit, hcontent⟩ := strip_edit hfit (List.mem_filter.mp hx).1
    exact ⟨t', _, hok, hedit, rfl, congrArg (fun c => [c]) hcontent, rfl⟩
  | @paste a s b ht hs hb =>
    subst ht
    refine ⟨a ++ s ++ b, _, ?_, edit_insert a hs hb, ?_, rfl, rfl⟩
    · change (strTo (a ++ b) (strLen a) >>= _) = _
      rw [strTo_append, ok_bind, strFrom_append]
      rfl
    · exact (contents_asset (asset hasher s)).symm

section Whole
variable {hasher : Hasher} {t t' : Text} {as : List Action}

theorem History.fits (h : History hasher t as t') : Fits .w64 t ∧ Fits .w64 t' := by
  induction h with
  | done hfit => exact ⟨hfit, hfit⟩
  | step hfit _ _ _ ih => exact ⟨hfit, ih.2⟩

variable (hlong : V2.LongDigests hasher)
include hlong

theorem History.edits (h : History hasher t as t') :
    ∃ cs, Edits (asset hasher t) cs (asset hasher t') ∧
      (cs.flatMap Change.gains).map contentOf = as.flatMap (Action.gained hasher) ∧
      (cs.flatMap Change.loses).map contentOf = as.flatMap Action.lost ∧
      cs.flatMap Change.shows = as.flatMap (Action.shown hasher) := by
  induction h with
  | done hfit => exact ⟨[], .done _, rfl, rfl, rfl⟩
  | step hfit happlies hok later ih =>
    obtain ⟨t₁, c, hok', hedit, hgains, hloses, hshows⟩ := perform_edit hlong hfit happlies
    obtain rfl := ok_unique hok' hok
    obtain ⟨cs, hedits, hgain, hlose, hshow⟩ := ih
    refine ⟨c :: cs, .step hedit hedits, ?_, ?_, ?_⟩
    · rw [List.flatMap_cons, List.flatMap_cons, List.map_append, hgains, hgain]
    · rw [List.flatMap_cons, List.flatMap_cons, List.map_append, hloses, hlose]
    · rw [List.flatMap_cons, List.flatMap_cons, hshows, hshow]

theorem History.contents_perm (h : History hasher t as t') :
    ((asset hasher t).wrappers.map Wrapper.content ++ as.flatMap (Action.gained hasher)).Perm
      ((asset hasher t').wrappers.map Wrapper.content ++ as.flatMap Action.lost) := by
  obtain ⟨cs, hedits, hgain, hlose, _⟩ := h.edits hlong
  rw [contents_asset, contents_asset, ← hgain, ← hlose, ← List.map_append, ← List.map_append]
  exact hedits.carried_perm.map contentOf

theorem History.shown_eq (h : History hasher t as t')
    (hnone : as.flatMap (Action.shown hasher) = []) :
    (asset hasher t').shown = (asset hasher t).shown := by
  obtain ⟨cs, hedits, _, _, hshow⟩ := h.edits hlong
  apply hedits.visible_eq
  rwa [← hshow, List.flatMap_eq_nil_iff] at hnone

end Whole

structure Accounts (hasher : Hasher) (as : List Action) (xs xs' : List Wrapper)
    (shown shown' : Text) (broken broken' : Bool) : Prop where
  wrappers : (xs.map Wrapper.content ++ as.flatMap (Action.gained hasher)).Perm
    (xs'.map Wrapper.content ++ as.flatMap Action.lost)
  kept : shown.Sublist shown'
  length : shown'.length = shown.length + (as.flatMap (Action.shown hasher)).length
  unchanged : as.flatMap (Action.shown hasher) = [] → shown' = shown ∧ broken' = broken

/-- Over any history no wrapper of either version is lost, duplicated or altered, nothing
shown is taken away, and no action that applies can fail. -/
theorem history_accounts {hasher : Hasher} (hlong : V2.LongDigests hasher) {t t' : Text}
    {as : List Action} (h : History hasher t as t') :
    ∃ xs shown broken xs' shown' broken', Decides t hasher xs shown broken ∧
      Decides t' hasher xs' shown' broken' ∧
      Accounts hasher as xs xs' shown shown' broken broken' ∧
      ∀ a, Applies hasher t' a → ∃ t'', a.perform hasher t' = .ok (.ok t'') := by
  obtain ⟨hfit, hfit'⟩ := h.fits
  obtain ⟨cs, hedits, _, _, hshow⟩ := h.edits hlong
  refine ⟨_, _, _, _, _, _, decides_asset hlong hfit, decides_asset hlong hfit', ?_, ?_⟩
  · refine ⟨h.contents_perm hlong, hedits.visible_sublist, ?_, fun hnone => ?_⟩
    · rw [← hshow]
      exact hedits.visible_length
    · have hshown := h.shown_eq hlong hnone
      refine ⟨hshown, ?_⟩
      unfold broken
      rw [hshown]
  · intro a ha
    obtain ⟨t'', _, hok, _⟩ := perform_edit hlong hfit' ha
    exact ⟨t'', hok⟩

theorem history_accounts_resigned : ∃ xs shown broken xs' shown' broken',
    Decides ['a'] ⟨fun _ _ => [1, 2, 3, 4]⟩ xs shown broken ∧
      Decides (['a'] ++ ['b'] ++ V2.carrier ⟨fun _ _ => [1, 2, 3, 4]⟩ [8] [])
        ⟨fun _ _ => [1, 2, 3, 4]⟩ xs' shown' broken' ∧
      Accounts ⟨fun _ _ => [1, 2, 3, 4]⟩
        [.embed [7], .embedV2 [8], .strip ⟨[7], 1, 1, 52⟩, .paste (strLen ['a']) ['b']]
        xs xs' shown shown' broken broken' ∧
      ∀ a, Applies ⟨fun _ _ => [1, 2, 3, 4]⟩
        (['a'] ++ ['b'] ++ V2.carrier ⟨fun _ _ => [1, 2, 3, 4]⟩ [8] []) a →
        ∃ t'', a.perform ⟨fun _ _ => [1, 2, 3, 4]⟩
          (['a'] ++ ['b'] ++ V2.carrier ⟨fun _ _ => [1, 2, 3, 4]⟩ [8] []) = .ok (.ok t'') :=
  @history_accounts ⟨fun _ _ => [1, 2, 3, 4]⟩ (fun _ _ => Nat.le_refl 4) ['a'] _
    [.embed [7], .embedV2 [8], .strip ⟨[7], 1, 1, 52⟩, .paste (strLen ['a']) ['b']]
    (.step (by decide) (.embed (by decide)) (by decide +kernel)
    (.step (show Fits .w64 ('a' :: carrier [7] []) by decide) (.embedV2 (by decide))
      (by decide +kernel)
    (.step (show Fits .w64 ('a' :: carrier [7] [] ++
        V2.carrier ⟨fun _ _ => [1, 2, 3, 4]⟩ [8] []) by decide)
      (.strip (show locateAll .w64 _ = .ok [⟨[7], 1, 1, 52⟩] by decide +kernel) (by decide))
      (by decide +kernel)
    (.step (show Fits .w64 ('a' :: V2.carrier ⟨fun _ _ => [1, 2, 3, 4]⟩ [8] []) by decide)
      (.paste (a := ['a']) (s := ['b']) (b := V2.carrier ⟨fun _ _ => [1, 2, 3, 4]⟩ [8] []) rfl
        (blunt_cons selectors (by decide) []) (blunt_marker selectors _)) (by decide +kernel)
    (.done (by decide))))))

end UnstructuredText
