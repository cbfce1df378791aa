import UnstructuredText.Lib.MarkedRuns

/-! The places of a list where its runs stand. A run is reported exactly at the cuts of
the list around a marker and its longest decodable block, once each and in order. -/

namespace MarkedRuns
open Sized
variable {α β : Type*} (A : Alphabet α β)

/-- A list cut into what precedes a marker, the run of the marker and what follows. -/
structure Cut (l : List α) where
  before : List α
  run : List α
  after : List α
  eq : l = before ++ A.marker :: (run ++ after)
  decodable : Decodable A run
  blunt : Blunt A after

namespace Cut
variable {A} {l : List α}

def block (c : Cut A l) : List α := A.marker :: c.run

def start (c : Cut A l) : ℕ := total A.toSizing c.before

theorem eq_block (c : Cut A l) : l = c.before ++ c.block ++ c.after :=
  c.eq.trans (by rw [block, List.append_assoc, List.cons_append])

theorem ext_of_start {c c' : Cut A l} (h : c.start = c'.start) : c = c' := by
  obtain ⟨hbefore, htail⟩ := append_inj_of_total A.toSizing (c.eq.symm.trans c'.eq) h
  have htail := List.tail_eq_of_cons_eq htail
  -- the run is the longest one at its marker, so what follows the marker fixes it
  have hrun : c.run = c'.run := by
    rw [← sel_append A c.decodable c.blunt, htail, sel_append A c'.decodable c'.blunt]
  have hafter : c.after = c'.after := by
    rw [← rest_append A c.decodable c.blunt, htail, rest_append A c'.decodable c'.blunt]
  cases c
  cases c'
  simp_all only

def prepend (a : α) (c : Cut A l) : Cut A (a :: l) :=
  { c with before := a :: c.before, eq := congrArg (a :: ·) c.eq }

def toRun (off : ℕ) (c : Cut A l) : Run β := runAt A (off + c.start) c.run

theorem toRun_stop (off : ℕ) (c : Cut A l) :
    (c.toRun off).stop + total A.toSizing c.after = off + total A.toSizing l := by
  have htotal := congrArg (total A.toSizing) c.eq_block
  rw [total_append, total_append] at htotal
  rw [htotal, toRun, runAt_stop, start, block]
  omega

end Cut

variable [DecidableEq α]

theorem runsFrom_first (off : ℕ) {g m b : List α} (hg : A.marker ∉ g) (hm : Decodable A m)
    (hb : Blunt A b) :
    runsFrom A off (g ++ A.marker :: (m ++ b)) =
      runAt A (off + total A.toSizing g) m ::
        runsFrom A (off + total A.toSizing g + total A.toSizing (A.marker :: m)) b := by
  rw [runsFrom_skip A off hg, runsFrom_run A _ hm hb]

theorem runsFrom_cut (off : ℕ) {l : List α} (c : Cut A l) :
    runsFrom A off l = runsFrom A off c.before ++
      c.toRun off :: runsFrom A (off + c.start + total A.toSizing c.block) c.after := by
  conv_lhs => rw [c.eq]
  rw [runsFrom_append A off _ (blunt_marker A _), runsFrom_run A _ c.decodable c.blunt]
  rfl

theorem exists_cut {off : ℕ} {l : List α} {r : Run β} (h : r ∈ runsFrom A off l) :
    ∃ c : Cut A l, r = c.toRun off := by
  induction l generalizing off with
  | nil => exact absurd h List.not_mem_nil
  | cons a l ih =>
    have lift : r ∈ runsFrom A (off + A.size a) l → ∃ c : Cut A (a :: l), r = c.toRun off := by
      intro hr
      obtain ⟨c, rfl⟩ := ih hr
      exact ⟨c.prepend a, by simp only [Cut.toRun, Cut.start, Cut.prepend, total_cons,
        Nat.add_assoc]⟩
    by_cases ha : a = A.marker
    · subst ha
      rw [runsFrom_marker, List.mem_cons] at h
      obtain rfl | h := h
      · exact ⟨⟨[], sel A l, rest A l, by rw [sel_append_rest]; rfl, decodable_sel A l,
          blunt_rest A l⟩, rfl⟩
      · exact lift h
    · rw [runsFrom_of_ne A ha] at h
      exact lift h

theorem mem_runsFrom_iff {off : ℕ} {l : List α} {r : Run β} :
    r ∈ runsFrom A off l ↔ ∃ c : Cut A l, r = c.toRun off := by
  refine ⟨exists_cut A, ?_⟩
  rintro ⟨c, rfl⟩
  rw [runsFrom_cut A off c]
  exact List.mem_append_right _ List.mem_cons_self

theorem runsFrom_bounds {off : ℕ} {l : List α} {r : Run β} (h : r ∈ runsFrom A off l) :
    off ≤ r.start ∧ r.stop ≤ off + total A.toSizing l := by
  obtain ⟨c, rfl⟩ := exists_cut A h
  have hstop := c.toRun_stop off
  exact ⟨Nat.le_add_right off _, by omega⟩

theorem runsFrom_length_pos {off : ℕ} {l : List α} {r : Run β} (h : r ∈ runsFrom A off l) :
    0 < r.length := by
  obtain ⟨c, rfl⟩ := exists_cut A h
  exact Nat.add_pos_left (A.pos A.marker) _

theorem runsFrom_pairwise (off : ℕ) (l : List α) :
    (runsFrom A off l).Pairwise fun r s => r.stop ≤ s.start := by
  induction l using runs_induction A generalizing off with
  | none l h =>
    rw [runsFrom_eq_nil A off h]
    exact List.Pairwise.nil
  | run g m b hg hm hb ih =>
    rw [runsFrom_first A off hg hm hb, List.pairwise_cons]
    exact ⟨fun s hs => (runsFrom_bounds A hs).1, ih _⟩

theorem runsFrom_starts (off : ℕ) (l : List α) :
    (runsFrom A off l).Pairwise fun r s => r.start < s.start :=
  (runsFrom_pairwise A off l).imp_of_mem fun hr _ h =>
    Nat.lt_of_lt_of_le (Nat.lt_add_of_pos_right (runsFrom_length_pos A hr)) h

end MarkedRuns
