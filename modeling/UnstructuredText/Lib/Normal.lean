import UnstructuredText.Lib.Docs

/-! Normal forms. A function that rewrites lists, but leaves the marker and the decodable
items where they are, keeps every run and only moves it. When it is a normal form for
concatenation too, lists that are equivalent leave equivalent visible parts. -/

namespace MarkedRuns
open Sized
variable {α β : Type*}

def Run.unplaced (r : Run β) : Run β := { r with start := 0 }

variable (A : Alphabet α β)

def Carries (a : α) : Prop := a = A.marker ∨ decodes A a = true

instance [DecidableEq α] (a : α) : Decidable (Carries A a) := inferInstanceAs (Decidable (_ ∨ _))

structure Inert (nf : List α → List α) : Prop where
  split : ∀ a c b, Carries A c → nf (a ++ c :: b) = nf a ++ c :: nf b
  fresh : ∀ l, ∀ c ∈ nf l, Carries A c → c ∈ l
  empty : ∀ l, nf l = [] ↔ l = []

namespace Inert
variable {A} {nf : List α → List α} (h : Inert A nf)
include h

theorem nil : nf [] = [] := (h.empty []).mpr rfl

theorem cons {c : α} (hc : Carries A c) (b : List α) : nf (c :: b) = c :: nf b := by
  have hsplit := h.split [] c b hc
  rwa [List.nil_append, h.nil, List.nil_append] at hsplit

theorem decodable {m : List α} (hm : Decodable A m) (b : List α) : nf (m ++ b) = m ++ nf b := by
  induction m with
  | nil => rfl
  | cons c m ih =>
    rw [List.cons_append, h.cons (.inr (hm c List.mem_cons_self)),
      ih fun d hd => hm d (List.mem_cons_of_mem c hd), List.cons_append]

theorem run (g : List α) {m : List α} (hm : Decodable A m) (b : List α) :
    nf (g ++ A.marker :: (m ++ b)) = nf g ++ A.marker :: (m ++ nf b) := by
  rw [h.split g A.marker _ (.inl rfl), h.decodable hm]

theorem marker_not_mem {g : List α} (hg : A.marker ∉ g) : A.marker ∉ nf g :=
  fun hmem => hg (h.fresh g _ hmem (.inl rfl))

theorem blunt_of_forall {l : List α} (hl : ∀ a ∈ l, ¬decodes A a = true) : Blunt A (nf l) := by
  intro a ha
  refine Option.not_isSome_iff_eq_none.mp fun hdec => ?_
  exact hl a (h.fresh l a (List.mem_of_mem_head? ha) (.inr hdec)) hdec

theorem blunt {b : List α} (hb : Blunt A b) : Blunt A (nf b) := by
  cases hfind : b.find? (decodes A) with
  | none => exact h.blunt_of_forall (List.find?_eq_none.mp hfind)
  | some z =>
    obtain ⟨hz, p, q, rfl, hp⟩ := List.find?_eq_some_iff_append.mp hfind
    have hplain : ∀ a ∈ p, ¬decodes A a = true := by
      intro a ha
      rw [Bool.not_eq_true, ← Bool.not_eq_true']
      exact hp a ha
    have hne : p ≠ [] := by
      rintro rfl
      rw [decodes, hb z rfl] at hz
      cases hz
    -- so the first item of the normal form is one of those before `z`
    have hfirst := h.blunt_of_forall hplain
    rw [h.split p z q (.inr hz)]
    cases hnf : nf p with
    | nil => exact absurd ((h.empty p).mp hnf) hne
    | cons x l => exact blunt_cons A (hfirst x (by rw [hnf]; rfl)) _

theorem map_unplaced_runs [DecidableEq α] (off off' : ℕ) (l : List α) :
    (runsFrom A off (nf l)).map Run.unplaced = (runsFrom A off' l).map Run.unplaced := by
  induction l using runs_induction A generalizing off off' with
  | none l hl =>
    rw [runsFrom_eq_nil A off (h.marker_not_mem hl), runsFrom_eq_nil A off' hl]
  | run g m b hg hm hb ih =>
    rw [h.run g hm, runsFrom_first A off (h.marker_not_mem hg) hm (h.blunt hb),
      runsFrom_first A off' hg hm hb, List.map_cons, List.map_cons]
    exact congrArg (_ :: ·) (ih _ _)

theorem map_unplaced_congr [DecidableEq α] (off off' : ℕ) {l l' : List α} (hl : nf l' = nf l) :
    (runsFrom A off' l').map Run.unplaced = (runsFrom A off l).map Run.unplaced := by
  rw [← h.map_unplaced_runs 0 off' l', hl, h.map_unplaced_runs 0 off l]

end Inert

/-- `nf` is a normal form, and that of a concatenation depends on those of its two sides. -/
structure Normalizes (nf : List α → List α) : Prop extends Inert A nf where
  joined : ∀ a b, nf (a ++ b) = nf (nf a ++ nf b)

namespace Normalizes
variable {A} {nf : List α → List α} (h : Normalizes A nf)
include h

theorem idem (a : List α) : nf (nf a) = nf a := by
  have hjoined := h.joined a []
  rw [List.append_nil, h.nil, List.append_nil] at hjoined
  exact hjoined.symm

theorem append_congr {a a' b b' : List α} (ha : nf a' = nf a) (hb : nf b' = nf b) :
    nf (a' ++ b') = nf (a ++ b) := by
  rw [h.joined a' b', ha, hb, ← h.joined a b]

theorem visible_normal [DecidableEq α] (read : List β → Bool) (l : List α) :
    nf (visible (lex A read (nf l))) = nf (visible (lex A read l)) := by
  induction l using runs_induction A with
  | none l hl =>
    rw [lex_of_not_mem A read hl, lex_of_not_mem A read (h.marker_not_mem hl), visible_items,
      visible_items, h.idem]
  | run g m b hg hm hb ih =>
    rw [h.run g hm, lex_first A read (h.marker_not_mem hg) hm (h.blunt hb),
      lex_first A read hg hm hb]
    simp only [visible_append, visible_items]
    exact h.append_congr (h.idem g) (h.append_congr rfl ih)

theorem visible_congr [DecidableEq α] (read : List β → Bool) {l l' : List α} (hl : nf l' = nf l) :
    nf (visible (lex A read l')) = nf (visible (lex A read l)) := by
  rw [← h.visible_normal read l', hl, h.visible_normal read l]

end Normalizes

end MarkedRuns
