import UnstructuredText.Lib.Docs
import Mathlib.Data.List.Perm.Basic

/-! Editing documents. A document changes when another one is inserted at a seam or when
one of its runs is removed. Over any sequence of changes no run is lost, duplicated or
altered on the way, and what is visible is only ever added to. -/

namespace MarkedRuns
variable {α β : Type*} {A : Alphabet α β} [DecidableEq α] {read : List β → Bool}

inductive Change (α : Type*)
  | inserted (us : List (Token α))
  | removed (m : List α)

namespace Change

def gains : Change α → List (List α)
  | inserted us => carried us
  | removed _ => []

def loses : Change α → List (List α)
  | inserted _ => []
  | removed m => [m]

def shows : Change α → List α
  | inserted us => visible us
  | removed _ => []

end Change

inductive Edit : Doc A read → Change α → Doc A read → Prop
  | insert {d : Doc A read} (s : d.Seam) (e : Doc A read) (he : Blunt A e.text) :
      Edit d (.inserted e.tokens) (d.insert s e he)
  | remove {d : Doc A read} (p : d.Place) : Edit d (.removed p.run) (d.remove p)

inductive Edits : Doc A read → List (Change α) → Doc A read → Prop
  | done (d : Doc A read) : Edits d [] d
  | step {d d' d'' : Doc A read} {c : Change α} {cs : List (Change α)} (first : Edit d c d')
      (later : Edits d' cs d'') : Edits d (c :: cs) d''

theorem edit_insert (a : List α) {u b : List α} (hu : Blunt A u) (hb : Blunt A b) :
    Edit (Doc.ofList A read (a ++ b)) (.inserted (lex A read u))
      (Doc.ofList A read (a ++ u ++ b)) := by
  have htext : render A (lex A read b) = b := render_lex A read b
  have hinsert : Doc.ofList A read (a ++ u ++ b) =
      (Doc.ofList A read (a ++ b)).insert
        ⟨lex A read a, lex A read b, lex_append A read a hb, by rwa [htext]⟩ (Doc.ofList A read u)
        ((congrArg (Blunt A) (render_lex A read u)).mpr hu) := by
    apply Doc.ext_tokens
    change lex A read (a ++ u ++ b) = lex A read a ++ (lex A read u ++ lex A read b)
    rw [List.append_assoc, lex_append A read a (hu.append A hb), lex_append A read u hb]
  rw [hinsert]
  exact Edit.insert _ (Doc.ofList A read u) _

theorem edit_remove (a : List α) {m b : List α} (hm : Decodable A m) (hb : Blunt A b)
    (hread : read (decoded A m) = true) :
    Edit (Doc.ofList A read (a ++ A.marker :: (m ++ b))) (.removed m)
      (Doc.ofList A read (a ++ b)) := by
  have htokens : lex A read (a ++ A.marker :: (m ++ b)) = lex A read a ++ .run m :: lex A read b := by
    rw [lex_append A read a (blunt_marker A _), lex_marker A read hm hb, block, if_pos hread]
    rfl
  have hremove : Doc.ofList A read (a ++ b) =
      (Doc.ofList A read (a ++ A.marker :: (m ++ b))).remove
        ⟨lex A read a, m, lex A read b, htokens⟩ :=
    Doc.ext_tokens (lex_append A read a hb)
  rw [hremove]
  exact Edit.remove ⟨lex A read a, m, lex A read b, htokens⟩

theorem append_perm_right_comm {γ : Type*} (a b c : List γ) :
    (a ++ b ++ c).Perm (a ++ c ++ b) := by
  rw [List.append_assoc, List.append_assoc]
  exact List.perm_append_comm.append_left a

namespace Edit
variable {d d' : Doc A read} {c : Change α} (h : Edit d c d')
include h

theorem carried_perm :
    (carried d.tokens ++ c.gains).Perm (carried d'.tokens ++ c.loses) := by
  cases h with
  | insert s e he =>
    have hd : carried d.tokens = carried s.pre ++ carried s.post := by rw [s.eq, carried_append]
    change (carried d.tokens ++ carried e.tokens).Perm
      (carried (s.pre ++ (e.tokens ++ s.post)) ++ [])
    rw [hd, carried_append, carried_append, List.append_nil, List.append_assoc]
    exact List.perm_append_comm.append_left _
  | remove p =>
    have hd : carried d.tokens = carried p.pre ++ p.run :: carried p.post := by
      rw [p.eq, carried_append]
      rfl
    change (carried d.tokens ++ []).Perm (carried (p.pre ++ p.post) ++ [p.run])
    rw [hd, carried_append, List.append_nil]
    exact List.perm_middle.trans (List.perm_append_singleton _ _).symm

theorem visible_sublist : (visible d.tokens).Sublist (visible d'.tokens) := by
  cases h with
  | insert s e he =>
    change (visible d.tokens).Sublist (visible (s.pre ++ (e.tokens ++ s.post)))
    rw [s.eq, visible_append, visible_append, visible_append]
    exact (List.sublist_append_right _ _).append_left _
  | remove p =>
    change (visible d.tokens).Sublist (visible (p.pre ++ p.post))
    rw [p.eq, visible_append, visible_append]
    exact List.Sublist.refl _

theorem visible_length :
    (visible d'.tokens).length = (visible d.tokens).length + c.shows.length := by
  cases h with
  | insert s e he =>
    change (visible (s.pre ++ (e.tokens ++ s.post))).length = _ + (visible e.tokens).length
    rw [s.eq, visible_append, visible_append, visible_append]
    simp only [List.length_append]
    ring
  | remove p =>
    change (visible (p.pre ++ p.post)).length = _
    rw [p.eq, visible_append, visible_append]
    rfl

end Edit

namespace Edits
variable {d d' : Doc A read} {cs : List (Change α)} (h : Edits d cs d')
include h

theorem carried_perm : (carried d.tokens ++ cs.flatMap Change.gains).Perm
    (carried d'.tokens ++ cs.flatMap Change.loses) := by
  induction h with
  | done d => exact List.Perm.refl _
  | @step d d' d'' c cs first later ih =>
    rw [List.flatMap_cons, List.flatMap_cons, ← List.append_assoc]
    calc List.Perm (carried d.tokens ++ c.gains ++ cs.flatMap Change.gains)
          (carried d'.tokens ++ c.loses ++ cs.flatMap Change.gains) :=
            first.carried_perm.append_right _
      List.Perm _ (carried d'.tokens ++ cs.flatMap Change.gains ++ c.loses) :=
        append_perm_right_comm _ _ _
      List.Perm _ (carried d''.tokens ++ cs.flatMap Change.loses ++ c.loses) := ih.append_right _
      List.Perm _ (carried d''.tokens ++ c.loses ++ cs.flatMap Change.loses) :=
        append_perm_right_comm _ _ _
      _ = carried d''.tokens ++ (c.loses ++ cs.flatMap Change.loses) := List.append_assoc _ _ _

theorem visible_sublist : (visible d.tokens).Sublist (visible d'.tokens) := by
  induction h with
  | done d => exact List.Sublist.refl _
  | step first later ih => exact first.visible_sublist.trans ih

theorem visible_length : (visible d'.tokens).length =
    (visible d.tokens).length + (cs.flatMap Change.shows).length := by
  induction h with
  | done d => rfl
  | step first later ih =>
    rw [ih, first.visible_length, List.flatMap_cons, List.length_append, Nat.add_assoc]

theorem visible_eq (hnone : ∀ c ∈ cs, c.shows = []) : visible d'.tokens = visible d.tokens := by
  have hlen := h.visible_length
  rw [List.flatMap_eq_nil_iff.mpr hnone, List.length_nil, Nat.add_zero] at hlen
  exact (h.visible_sublist.eq_of_length hlen.symm).symm

end Edits

end MarkedRuns
