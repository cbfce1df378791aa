import UnstructuredText.Lib.RunCuts

/-! Tokens. A list is a sequence of tokens: a marker whose run is read, taken as one with
its run, or a single item. Taking a list apart loses nothing, is local to the two sides
of any seam before an undecodable item, and shows where the runs that are read stand. -/

namespace MarkedRuns
open Sized

inductive Token (α : Type*)
  | item (a : α)
  | run (m : List α)
  deriving DecidableEq, Repr

variable {α β : Type*} (A : Alphabet α β)

namespace Token

def spell : Token α → List α
  | item a => [a]
  | run m => A.marker :: m

def decodes : Token α → Bool
  | item a => MarkedRuns.decodes A a
  | run _ => false

def item? : Token α → Option α
  | item a => some a
  | run _ => none

def run? : Token α → Option (List α)
  | item _ => none
  | run m => some m

end Token

def render (ts : List (Token α)) : List α := ts.flatMap (Token.spell A)

def visible (ts : List (Token α)) : List α := ts.filterMap Token.item?

def carried (ts : List (Token α)) : List (List α) := ts.filterMap Token.run?

theorem spell_total_pos (t : Token α) : 0 < total A.toSizing (t.spell A) := by
  cases t with
  | item a => exact Nat.add_pos_left (A.pos a) _
  | run m => exact Nat.add_pos_left (A.pos A.marker) _

def tokens : Sizing (Token α) := ⟨fun t => total A.toSizing (t.spell A), spell_total_pos A⟩

def located : ℕ → List (Token α) → List (Run β)
  | _, [] => []
  | off, .item a :: ts => located (off + total A.toSizing [a]) ts
  | off, .run m :: ts => runAt A off m :: located (off + total A.toSizing (A.marker :: m)) ts

theorem render_append (ts us : List (Token α)) : render A (ts ++ us) = render A ts ++ render A us :=
  List.flatMap_append

theorem render_items (l : List α) : render A (l.map Token.item) = l := by
  induction l with
  | nil => rfl
  | cons a l ih => exact congrArg (a :: ·) ih

theorem visible_append (ts us : List (Token α)) : visible (ts ++ us) = visible ts ++ visible us :=
  List.filterMap_append

theorem visible_items (l : List α) : visible (l.map Token.item) = l := by
  rw [visible, List.filterMap_map]
  exact List.filterMap_some

theorem carried_append (ts us : List (Token α)) : carried (ts ++ us) = carried ts ++ carried us :=
  List.filterMap_append

theorem total_tokens (ts : List (Token α)) :
    total (tokens A) ts = total A.toSizing (render A ts) := by
  induction ts with
  | nil => rfl
  | cons t ts ih =>
    rw [total_cons, ih]
    exact (total_append A.toSizing (t.spell A) (render A ts)).symm

theorem located_append (off : ℕ) (ts us : List (Token α)) :
    located A off (ts ++ us) = located A off ts ++ located A (off + total (tokens A) ts) us := by
  induction ts generalizing off with
  | nil => rfl
  | cons t ts ih =>
    rw [total_cons, ← Nat.add_assoc]
    cases t with
    | item a => exact ih _
    | run m => exact congrArg (_ :: ·) (ih _)

theorem located_items (off : ℕ) (l : List α) : located A off (l.map Token.item) = [] := by
  induction l generalizing off with
  | nil => rfl
  | cons a l ih => exact ih _

theorem located_length (off : ℕ) (ts : List (Token α)) :
    (located A off ts).length = (carried ts).length := by
  induction ts generalizing off with
  | nil => rfl
  | cons t ts ih =>
    cases t with
    | item a => exact ih _
    | run m => exact congrArg (· + 1) (ih _)

section Lex
variable [DecidableEq α] (read : List β → Bool)

/-- One more item in front. A marker takes the decodable items behind it along when the
run they make is read. -/
def push (a : α) (ts : List (Token α)) : List (Token α) :=
  if a = A.marker ∧ read (decoded A (visible (ts.takeWhile (Token.decodes A)))) then
    .run (visible (ts.takeWhile (Token.decodes A))) :: ts.dropWhile (Token.decodes A)
  else .item a :: ts

def lex (l : List α) : List (Token α) := l.foldr (push A read) []

def block (m : List α) : List (Token α) :=
  if read (decoded A m) then [.run m] else (A.marker :: m).map .item

theorem lex_nil : lex A read [] = [] := rfl

theorem lex_cons_of_ne {a : α} (h : a ≠ A.marker) (l : List α) :
    lex A read (a :: l) = .item a :: lex A read l := if_neg fun hc => h hc.1

theorem lex_skip {g : List α} (hg : A.marker ∉ g) (l : List α) :
    lex A read (g ++ l) = g.map .item ++ lex A read l := by
  induction g with
  | nil => rfl
  | cons a g ih =>
    rw [List.mem_cons, not_or] at hg
    rw [List.cons_append, lex_cons_of_ne A read (Ne.symm hg.1), ih hg.2]
    rfl

theorem lex_of_not_mem {l : List α} (h : A.marker ∉ l) : lex A read l = l.map .item := by
  have hskip := lex_skip A read h []
  rwa [List.append_nil, lex_nil, List.append_nil] at hskip

theorem takeWhile_lex {b : List α} (hb : Blunt A b) :
    (lex A read b).takeWhile (Token.decodes A) = [] := by
  cases b with
  | nil => rfl
  | cons x b =>
    have hx : Token.decodes A (.item x) = false := by
      rw [Token.decodes, decodes, hb x rfl]
      rfl
    change (push A read x (lex A read b)).takeWhile _ = []
    rw [push]
    split_ifs
    · rfl
    · exact List.takeWhile_cons_of_neg (Bool.eq_false_iff.mp hx)

theorem lex_marker {m b : List α} (hm : Decodable A m) (hb : Blunt A b) :
    lex A read (A.marker :: (m ++ b)) = block A read m ++ lex A read b := by
  have hitems : ∀ t ∈ m.map Token.item, Token.decodes A t = true := by
    intro t ht
    obtain ⟨a, ha, rfl⟩ := List.mem_map.mp ht
    exact hm a ha
  have hnone := takeWhile_lex A read hb
  have hdrop := @List.takeWhile_append_dropWhile _ (Token.decodes A) (lex A read b)
  rw [hnone, List.nil_append] at hdrop
  -- the selected items are exactly those of the run
  have htake : (lex A read (m ++ b)).takeWhile (Token.decodes A) = m.map .item := by
    rw [lex_skip A read (marker_not_mem A hm), List.takeWhile_append_of_pos hitems, hnone,
      List.append_nil]
  have hrest : (lex A read (m ++ b)).dropWhile (Token.decodes A) = lex A read b := by
    rw [lex_skip A read (marker_not_mem A hm), List.dropWhile_append_of_pos hitems, hdrop]
  change push A read A.marker (lex A read (m ++ b)) = _
  rw [push, htake, hrest, visible_items, block]
  by_cases hread : read (decoded A m) = true
  · rw [if_pos ⟨rfl, hread⟩, if_pos hread]
    rfl
  · rw [if_neg fun hc => hread hc.2, if_neg hread, lex_skip A read (marker_not_mem A hm)]
    rfl

theorem lex_first {g m b : List α} (hg : A.marker ∉ g) (hm : Decodable A m) (hb : Blunt A b) :
    lex A read (g ++ A.marker :: (m ++ b)) =
      g.map .item ++ (block A read m ++ lex A read b) := by
  rw [lex_skip A read hg, lex_marker A read hm hb]

omit [DecidableEq α] in
theorem render_block (m : List α) : render A (block A read m) = A.marker :: m := by
  rw [block]
  split_ifs
  · exact List.append_nil _
  · exact render_items A _

theorem render_lex (l : List α) : render A (lex A read l) = l := by
  induction l using runs_induction A with
  | none l h => rw [lex_of_not_mem A read h, render_items]
  | run g m b hg hm hb ih =>
    rw [lex_first A read hg hm hb, render_append, render_append, render_items, render_block, ih,
      List.cons_append]

theorem lex_append (a : List α) {b : List α} (hb : Blunt A b) :
    lex A read (a ++ b) = lex A read a ++ lex A read b := by
  induction a using runs_induction A with
  | none a h => rw [lex_skip A read h, lex_of_not_mem A read h]
  | run g m c hg hm hc ih =>
    have hassoc : g ++ A.marker :: (m ++ c) ++ b = g ++ A.marker :: (m ++ (c ++ b)) := by
      simp only [List.append_assoc, List.cons_append]
    rw [hassoc, lex_first A read hg hm (hc.append A hb), ih, lex_first A read hg hm hc]
    simp only [List.append_assoc]

theorem located_lex (off : ℕ) (l : List α) :
    located A off (lex A read l) = (runsFrom A off l).filter fun r => read r.items := by
  induction l using runs_induction A generalizing off with
  | none l h =>
    rw [lex_of_not_mem A read h, located_items, runsFrom_eq_nil A off h]
    rfl
  | run g m b hg hm hb ih =>
    rw [lex_first A read hg hm hb, runsFrom_first A off hg hm hb, located_append, located_append,
      located_items, List.nil_append, total_tokens, total_tokens, render_items, render_block, ih,
      block, List.filter_cons]
    change _ = if read (decoded A m) = true then _ else _
    split_ifs
    · rfl
    · rw [located_items, List.nil_append]

end Lex

end MarkedRuns
