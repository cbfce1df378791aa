import UnstructuredText.Frame.Scan
import Mathlib.Data.List.Nodup

/-! What `locateAll` reports is exactly the grammar of version 1 wrappers: a marker, the
selectors of a frame, and then no further selector. -/

namespace UnstructuredText
open Machine Sized MarkedRuns

def carrier (payload pad : List UInt8) : Text :=
  marker :: encodeRun (frame version payload pad)

/-- `text` cut as `a ++ m ++ b` around a wrapper `m` of the payload `p`: `m` is a carrier
of `p` with any padding, and `b` is empty or begins with a character that is not a
selector. -/
structure FrameCut (text : Text) (p : List UInt8) (a m b : Text) : Prop where
  eq : text = a ++ m ++ b
  length_le : p.length ≤ u32Max
  carries : ∃ pad, m = carrier p pad
  blunt : Blunt selectors b

structure Reports (text : Text) (ws : List Wrapper) : Prop where
  version_eq : ∀ x ∈ ws, x.version = 1
  mem_iff : ∀ p start length, (⟨p, 1, start, length⟩ : Wrapper) ∈ ws ↔
    ∃ a m b, FrameCut text p a m b ∧ start = strLen a ∧ length = strLen m
  once : ∀ p a m b, FrameCut text p a m b → ws.count ⟨p, 1, strLen a, strLen m⟩ = 1
  increasing : ws.Pairwise fun x y => x.start < y.start
  disjoint : ws.Pairwise fun x y => x.start + x.length ≤ y.start
  inside : ∀ x ∈ ws, x.start + x.length ≤ strLen text
  boundaries : ∀ x ∈ ws, isCharBoundary text x.start = true ∧
    isCharBoundary text (x.start + x.length) = true

variable {text : Text}

def cutBytes (c : Cut selectors text) : List UInt8 := decoded selectors c.run

theorem encodeRun_cutBytes (c : Cut selectors text) : encodeRun (cutBytes c) = c.run :=
  encodeRun_decoded c.decodable

theorem toRun_zero (c : Cut selectors text) :
    c.toRun 0 = ⟨cutBytes c, c.start, strLen c.block⟩ := by
  rw [Cut.toRun, Nat.zero_add]
  rfl

theorem mem_runs_iff {r : Run UInt8} :
    r ∈ runs text ↔ ∃ c : Cut selectors text, r = ⟨cutBytes c, c.start, strLen c.block⟩ := by
  simp only [runs, mem_runsFrom_iff, toRun_zero]

def Placed (f : Run UInt8 → Option Wrapper) : Prop :=
  ∀ r x, f r = some x → x.start = r.start ∧ x.length = r.length

theorem placed_wrapperOf : Placed wrapperOf := by
  intro r x h
  obtain ⟨_, _, rfl⟩ := wrapperOf_eq_some_iff.mp h
  exact ⟨rfl, rfl⟩

theorem mem_filterMap_runs_iff {f : Run UInt8 → Option Wrapper} {x : Wrapper} :
    x ∈ (runs text).filterMap f ↔
      ∃ c : Cut selectors text, f ⟨cutBytes c, c.start, strLen c.block⟩ = some x := by
  rw [List.mem_filterMap]
  constructor
  · rintro ⟨r, hr, hx⟩
    obtain ⟨c, rfl⟩ := mem_runs_iff.mp hr
    exact ⟨c, hx⟩
  · rintro ⟨c, hx⟩
    exact ⟨_, mem_runs_iff.mpr ⟨c, rfl⟩, hx⟩

theorem mem_wrappers_iff {x : Wrapper} :
    x ∈ wrappers text ↔ ∃ c : Cut selectors text, magic <+: cutBytes c ∧
      Complete version 0 (cutBytes c) ∧ x = ⟨body (cutBytes c), version, c.start, strLen c.block⟩ := by
  rw [wrappers, mem_filterMap_runs_iff]
  exact exists_congr fun c => wrapperOf_eq_some_iff

theorem exists_cut_of_eq {a b : Text} {bytes : List UInt8}
    (h : text = a ++ marker :: encodeRun bytes ++ b) (hb : Blunt selectors b) :
    ∃ c : Cut selectors text, cutBytes c = bytes ∧ c.before = a ∧
      c.block = marker :: encodeRun bytes := by
  refine ⟨⟨a, encodeRun bytes, b, ?_, decodable_encodeRun _, hb⟩, decoded_encodeRun _, rfl, rfl⟩
  rw [h, List.append_assoc]
  rfl

theorem block_eq (c : Cut selectors text) : c.block = marker :: encodeRun (cutBytes c) := by
  rw [encodeRun_cutBytes]
  rfl

theorem FrameCut.mem_wrappers {p : List UInt8} {a m b : Text} (h : FrameCut text p a m b) :
    ⟨p, version, strLen a, strLen m⟩ ∈ wrappers text := by
  obtain ⟨pad, rfl⟩ := h.carries
  obtain ⟨c, hbytes, rfl, hblock⟩ := exists_cut_of_eq h.eq h.blunt
  obtain ⟨hmagic, hcomplete, hbody⟩ :=
    complete_iff_frame.mpr ⟨h.length_le, pad, Nat.zero_le _, hbytes⟩
  exact mem_wrappers_iff.mpr ⟨c, hmagic, hcomplete, by rw [hbody, hblock]; rfl⟩

theorem exists_frameCut {x : Wrapper} (h : x ∈ wrappers text) :
    x.version = version ∧
      ∃ a m b, FrameCut text x.payload a m b ∧ x.start = strLen a ∧ x.length = strLen m := by
  obtain ⟨c, hmagic, hcomplete, rfl⟩ := mem_wrappers_iff.mp h
  obtain ⟨hlen, pad, _, hframe⟩ := complete_iff_frame.mp ⟨hmagic, hcomplete, rfl⟩
  have hblock : c.block = carrier (body (cutBytes c)) pad := by
    rw [carrier, ← hframe, block_eq]
  exact ⟨rfl, c.before, c.block, c.after, ⟨c.eq_block, hlen, ⟨pad, hblock⟩, c.blunt⟩, rfl, rfl⟩

namespace Placed
variable {f : Run UInt8 → Option Wrapper} (hf : Placed f) (text : Text)
include hf

theorem disjoint : ((runs text).filterMap f).Pairwise fun x y => x.start + x.length ≤ y.start := by
  refine (runsFrom_pairwise selectors 0 text).filterMap f fun r s hrs x hx y hy => ?_
  rw [(hf r x hx).1, (hf r x hx).2, (hf s y hy).1]
  exact hrs

theorem increasing : ((runs text).filterMap f).Pairwise fun x y => x.start < y.start := by
  refine (runsFrom_starts selectors 0 text).filterMap f fun r s hrs x hx y hy => ?_
  rw [(hf r x hx).1, (hf s y hy).1]
  exact hrs

theorem nodup : ((runs text).filterMap f).Nodup := by
  apply (hf.increasing text).imp
  intro x y hlt heq
  subst heq
  exact Nat.lt_irrefl x.start hlt

end Placed

theorem wrappers_nodup (text : Text) : (wrappers text).Nodup := placed_wrapperOf.nodup text

theorem wrappers_inside {x : Wrapper} (h : x ∈ wrappers text) :
    x.start + x.length ≤ strLen text ∧ isCharBoundary text x.start = true ∧
      isCharBoundary text (x.start + x.length) = true := by
  obtain ⟨_, a, m, b, hcut, hstart, hlength⟩ := exists_frameCut h
  rw [hstart, hlength, hcut.eq, ← strLen_append]
  refine ⟨?_, ?_, isCharBoundary_append (a ++ m) b⟩
  · rw [strLen_append (a ++ m) b]
    exact Nat.le_add_right _ _
  · rw [List.append_assoc]
    exact isCharBoundary_append a (m ++ b)

theorem wrappers_reports (text : Text) : Reports text (wrappers text) where
  version_eq _ hx := (exists_frameCut hx).1
  mem_iff p start length := by
    constructor
    · intro h
      obtain ⟨_, a, m, b, hcut, hstart, hlength⟩ := exists_frameCut h
      exact ⟨a, m, b, hcut, hstart, hlength⟩
    · rintro ⟨a, m, b, hcut, rfl, rfl⟩
      exact hcut.mem_wrappers
  once _ _ _ _ h := List.count_eq_one_of_mem (wrappers_nodup text) h.mem_wrappers
  increasing := placed_wrapperOf.increasing text
  disjoint := placed_wrapperOf.disjoint text
  inside _ hx := (wrappers_inside hx).1
  boundaries _ hx := (wrappers_inside hx).2

/-- The scanner accepts exactly the frame grammar, without a fault, on a machine of either
pointer width and on every text it can hold. -/
theorem locateAll_reports (w : PtrWidth) {text : Text} (hfit : Fits w text) :
    ∃ ws, locateAll w text = .ok ws ∧ Reports text ws :=
  ⟨wrappers text, locateAll_eq w hfit, wrappers_reports text⟩

theorem locateAll_reports_carrier :
    ∃ ws, locateAll .w32 ('é' :: carrier [7] [0] ++ ['b']) = .ok ws ∧
      Reports ('é' :: carrier [7] [0] ++ ['b']) ws :=
  locateAll_reports .w32 (by decide)

end UnstructuredText
