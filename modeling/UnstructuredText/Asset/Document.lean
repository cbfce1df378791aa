import UnstructuredText.Lib.Docs
import UnstructuredText.Binding.Exclusions
import UnstructuredText.Checksum.Grammar

/-! Assets as documents. A text is a sequence of characters and carriers, a carrier being
a marker with a run that decodes under one of the two frame versions. What both scans
locate, and what is left when all of it is excluded, are read off that sequence. -/

namespace UnstructuredText
open Machine Sized MarkedRuns Lists

section Readable
variable (hasher : Hasher)

def Readable (bytes : List UInt8) : Prop :=
  magic <+: bytes ∧ (Complete version 0 bytes ∨
    Complete V2.version V2.checksumLen bytes ∧ V2.Checks hasher bytes)

instance (bytes : List UInt8) : Decidable (Readable hasher bytes) :=
  inferInstanceAs (Decidable (_ ∧ (_ ∨ _ ∧ _)))

def reads (bytes : List UInt8) : Bool := decide (Readable hasher bytes)

def asWrapper (r : Run UInt8) : Wrapper := ⟨body r.items, r.items.getD 8 0, r.start, r.length⟩

variable {hasher}

theorem Complete.version_eq {v : UInt8} {extra : ℕ} {bytes : List UInt8}
    (h : Complete v extra bytes) : bytes.getD 8 0 = v := by
  rw [List.getD_eq_getElem?_getD, h.2.1]
  rfl

theorem readable_cases {bytes : List UInt8} (h : Readable hasher bytes) :
    bytes.getD 8 0 = version ∧ Complete version 0 bytes ∨
      bytes.getD 8 0 = V2.version ∧
        Complete V2.version V2.checksumLen bytes ∧ V2.Checks hasher bytes :=
  h.2.imp (fun h1 => ⟨h1.version_eq, h1⟩) fun h2 => ⟨h2.1.version_eq, h2⟩

theorem wrapperOf_eq (r : Run UInt8) : wrapperOf r =
    if Readable hasher r.items ∧ (asWrapper r).version = version then some (asWrapper r)
    else none := by
  have hiff : IsCandidate r ∧ IsValid r ↔
      Readable hasher r.items ∧ (asWrapper r).version = version := by
    constructor
    · rintro ⟨hmagic, hvalid⟩
      exact ⟨⟨hmagic, .inl hvalid⟩, hvalid.version_eq⟩
    · rintro ⟨hread, hversion⟩
      rcases readable_cases hread with ⟨_, hvalid⟩ | ⟨hother, _⟩
      · exact ⟨hread.1, hvalid⟩
      · exact absurd (hversion.symm.trans hother) (by decide)
  unfold wrapperOf
  by_cases h : IsCandidate r ∧ IsValid r
  · have hsame : toWrapper r = asWrapper r := by rw [toWrapper, asWrapper, h.2.version_eq]
    rw [if_pos h, if_pos (hiff.mp h), hsame]
  · rw [if_neg h, if_neg (mt hiff.mpr h)]

theorem wrapperOf2_eq (r : Run UInt8) : V2.wrapperOf hasher r =
    if Readable hasher r.items ∧ (asWrapper r).version = V2.version then some (asWrapper r)
    else none := by
  have hiff : IsCandidate r ∧ V2.IsValid hasher r ↔
      Readable hasher r.items ∧ (asWrapper r).version = V2.version := by
    constructor
    · rintro ⟨hmagic, hvalid⟩
      exact ⟨⟨hmagic, .inr hvalid⟩, hvalid.1.version_eq⟩
    · rintro ⟨hread, hversion⟩
      rcases readable_cases hread with ⟨hother, _⟩ | ⟨_, hvalid⟩
      · exact absurd (hversion.symm.trans hother) (by decide)
      · exact ⟨hread.1, hvalid⟩
  unfold V2.wrapperOf
  by_cases h : IsCandidate r ∧ V2.IsValid hasher r
  · have hsame : V2.toWrapper r = asWrapper r := by
      rw [V2.toWrapper, asWrapper, h.2.1.version_eq]
    rw [if_pos h, if_pos (hiff.mp h), hsame]
  · rw [if_neg h, if_neg (mt hiff.mpr h)]

end Readable

abbrev Asset (hasher : Hasher) := Doc selectors (reads hasher)

def asset (hasher : Hasher) (text : Text) : Asset hasher := Doc.ofList selectors (reads hasher) text

namespace Asset
variable {hasher : Hasher}

def wrappers (d : Asset hasher) : List Wrapper := (located selectors 0 d.tokens).map asWrapper

/-- What a reader sees, and anything invisible that is no wrapper. -/
def shown (d : Asset hasher) : Text := visible d.tokens

def ofVersion (v : UInt8) (xs : List Wrapper) : List Wrapper := xs.filter fun x => x.version = v

theorem text_asset (text : Text) : (asset hasher text).text = text :=
  render_lex selectors (reads hasher) text

theorem located_eq (text : Text) : located selectors 0 (asset hasher text).tokens =
    (runs text).filter fun r => Readable hasher r.items :=
  located_lex selectors (reads hasher) 0 text

theorem ofVersion_one (text : Text) :
    ofVersion version (asset hasher text).wrappers = UnstructuredText.wrappers text := by
  have hguard := filterMap_guard (fun r : Run UInt8 => Readable hasher r.items)
    (fun r => (asWrapper r).version = version) asWrapper (runs text)
  rw [ofVersion, wrappers, located_eq, List.filter_map, UnstructuredText.wrappers]
  refine hguard.symm.trans (List.filterMap_congr fun r _ => ?_)
  exact (wrapperOf_eq r).symm

theorem ofVersion_two (text : Text) :
    ofVersion V2.version (asset hasher text).wrappers = V2.wrappers hasher text := by
  have hguard := filterMap_guard (fun r : Run UInt8 => Readable hasher r.items)
    (fun r => (asWrapper r).version = V2.version) asWrapper (runs text)
  rw [ofVersion, wrappers, located_eq, List.filter_map, V2.wrappers]
  refine hguard.symm.trans (List.filterMap_congr fun r _ => ?_)
  exact (wrapperOf2_eq r).symm

theorem version_cases {text : Text} {x : Wrapper} (hx : x ∈ (asset hasher text).wrappers) :
    x.version = version ∨ x.version = V2.version := by
  rw [wrappers, located_eq] at hx
  obtain ⟨r, hr, rfl⟩ := List.mem_map.mp hx
  have hread := of_decide_eq_true (List.mem_filter.mp hr).2
  exact (readable_cases hread).imp And.left And.left

theorem spans_wrappers (d : Asset hasher) :
    (d.wrappers.map Wrapper.exclusion).map Exclusion.span =
      (located selectors 0 d.tokens).map Run.span := by
  rw [wrappers, List.map_map, List.map_map]
  rfl

theorem applyExclusions_wrappers {w : PtrWidth} {text : Text} (hfit : Fits w text) :
    applyExclusions w text ((asset hasher text).wrappers.map Wrapper.exclusion) =
      .ok (.ok (asset hasher text).shown) := by
  have hcarved := carved_visible selectors 0 (asset hasher text).tokens
  apply applyExclusions_carved w hfit
  rw [spans_wrappers]
  rwa [show render selectors (asset hasher text).tokens = text from text_asset text] at hcarved

theorem fits_shown {w : PtrWidth} {text : Text} (hfit : Fits w text) :
    Fits w (asset hasher text).shown := by
  have hcarved := carved_visible selectors 0 (asset hasher text).tokens
  have htotal : strLen (asset hasher text).text = strLen (asset hasher text).shown + _ :=
    hcarved.total_eq
  rw [text_asset] at htotal
  exact Nat.le_trans (Nat.le_of_add_right_le (Nat.le_of_eq htotal.symm)) hfit

theorem wrappers_disjoint (text : Text) :
    (asset hasher text).wrappers.Pairwise fun x y => x.start + x.length ≤ y.start := by
  rw [wrappers, located_eq]
  apply List.Pairwise.map asWrapper _ ((runsFrom_pairwise selectors 0 text).filter _)
  exact fun _ _ h => h

theorem wrappers_shown (d : Asset hasher) : (asset hasher d.shown).wrappers = [] := by
  have hlex := lex_visible selectors (reads hasher) d.text
  have htokens : lex selectors (reads hasher) d.text = d.tokens := d.lexed
  rw [htokens] at hlex
  have hitems : (asset hasher d.shown).tokens = d.shown.map .item := hlex
  rw [wrappers, hitems, located_items]
  rfl

end Asset

end UnstructuredText
