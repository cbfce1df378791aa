import UnstructuredText.Lib.Tokens
import UnstructuredText.Lib.RunRemoval

/-! Documents. The token lists that lists are taken apart into are a type of their own.
Documents are joined at blunt seams and lose runs one by one; neither touches another
token, and what is left without any run is the visible part. -/

namespace MarkedRuns
open Sized
variable {α β : Type*} (A : Alphabet α β)

theorem eq_items_of_carried {ts : List (Token α)} (h : carried ts = []) :
    ts = (visible ts).map .item := by
  induction ts with
  | nil => rfl
  | cons t ts ih =>
    cases t with
    | item a => exact congrArg (_ :: ·) (ih h)
    | run m => cases h

theorem mem_located_iff {off : ℕ} {ts : List (Token α)} {r : Run β} : r ∈ located A off ts ↔
    ∃ pre m post, ts = pre ++ .run m :: post ∧ r = runAt A (off + total (tokens A) pre) m := by
  constructor
  · intro h
    induction ts generalizing off with
    | nil => exact absurd h List.not_mem_nil
    | cons t ts ih =>
      have lift : r ∈ located A (off + (tokens A).size t) ts → ∃ pre m post,
          t :: ts = pre ++ .run m :: post ∧ r = runAt A (off + total (tokens A) pre) m := by
        intro hr
        obtain ⟨pre, m, post, rfl, rfl⟩ := ih hr
        exact ⟨t :: pre, m, post, rfl, by rw [total_cons, Nat.add_assoc]⟩
      cases t with
      | item a => exact lift h
      | run m =>
        rcases List.mem_cons.mp h with rfl | h
        · exact ⟨[], m, ts, rfl, rfl⟩
        · exact lift h
  · rintro ⟨pre, m, post, rfl, rfl⟩
    rw [located_append]
    exact List.mem_append_right _ List.mem_cons_self

section Lexed
variable [DecidableEq α] (read : List β → Bool)

def Lexed (ts : List (Token α)) : Prop := lex A read (render A ts) = ts

variable {A read} {ts us : List (Token α)}

theorem lexed_lex (l : List α) : Lexed A read (lex A read l) :=
  congrArg (lex A read) (render_lex A read l)

theorem Lexed.append (hts : Lexed A read ts) (hus : Lexed A read us)
    (hb : Blunt A (render A us)) : Lexed A read (ts ++ us) := by
  rw [Lexed, render_append, lex_append A read _ hb, hts, hus]

theorem Lexed.of_append (h : Lexed A read (ts ++ us)) (hb : Blunt A (render A us)) :
    Lexed A read ts ∧ Lexed A read us := by
  rw [Lexed, render_append, lex_append A read _ hb] at h
  refine append_inj_of_total (tokens A) h ?_
  rw [total_tokens, total_tokens, render_lex]

theorem lexed_run_cons_iff {m : List α} : Lexed A read (.run m :: ts) ↔
    (Decodable A m ∧ read (decoded A m) = true) ∧ Blunt A (render A ts) ∧ Lexed A read ts := by
  have hrender : render A (.run m :: ts) = A.marker :: (m ++ render A ts) := rfl
  constructor
  · intro h
    have hcut := sel_append_rest A (m ++ render A ts)
    rw [Lexed, hrender, ← hcut, lex_marker A read (decodable_sel A _) (blunt_rest A _), block] at h
    split_ifs at h with hread
    · obtain ⟨hrun, hlex⟩ := List.cons.inj h
      have hts : lex A read (rest A (m ++ render A ts)) = ts := hlex
      -- the run that is taken is the one that was there, and the rest follows it
      have hm : sel A (m ++ render A ts) = m := Token.run.inj hrun
      rw [hm] at hcut hread
      have hrest : rest A (m ++ render A ts) = render A ts := List.append_cancel_left hcut
      have hdecodable := decodable_sel A (m ++ render A ts)
      have hblunt := blunt_rest A (m ++ render A ts)
      rw [hm] at hdecodable
      rw [hrest] at hblunt
      rw [hrest] at hts
      exact ⟨⟨hdecodable, hread⟩, hblunt, hts⟩
    · cases (List.cons.inj h).1
  · rintro ⟨⟨hm, hread⟩, hb, hts⟩
    rw [Lexed, hrender, lex_marker A read hm hb, block, if_pos hread, hts]
    rfl

theorem Lexed.remove {m : List α} (h : Lexed A read (ts ++ .run m :: us)) :
    Lexed A read (ts ++ us) := by
  obtain ⟨hts, hrun⟩ := h.of_append (blunt_marker A (m ++ render A us))
  obtain ⟨_, hb, hus⟩ := lexed_run_cons_iff.mp hrun
  exact hts.append hus hb

variable (A read)

theorem blunt_visible {b : List α} (hb : Blunt A b) : Blunt A (visible (lex A read b)) := by
  induction b using runs_induction A with
  | none b h => rwa [lex_of_not_mem A read h, visible_items]
  | run g m c hg hm hc ih =>
    rw [lex_first A read hg hm hc, visible_append, visible_append, visible_items, block]
    split_ifs
    · refine Blunt.seam A (fun _ => ?_) hb
      exact ih hc
    · refine Blunt.seam A (fun _ => ?_) hb
      rw [visible_items]
      exact blunt_marker A _

theorem lex_visible (l : List α) :
    lex A read (visible (lex A read l)) = (visible (lex A read l)).map .item := by
  induction l using runs_induction A with
  | none l h => rw [lex_of_not_mem A read h, visible_items, lex_of_not_mem A read h]
  | run g m b hg hm hb ih =>
    rw [lex_first A read hg hm hb, visible_append, visible_append, visible_items,
      lex_skip A read hg, List.map_append]
    refine congrArg (_ ++ ·) ?_
    by_cases hread : read (decoded A m) = true
    · rw [block, if_pos hread]
      exact ih
    · have hblock : block A read m = (A.marker :: m).map .item := if_neg hread
      rw [hblock, visible_items, List.cons_append, lex_marker A read hm (blunt_visible A read hb),
        hblock, ih, ← List.map_append, List.cons_append]

theorem map_items_unread (off off' : ℕ) (l : List α) :
    ((runsFrom A off l).filter fun r => !read r.items).map Run.items =
      (runsFrom A off' (visible (lex A read l))).map Run.items := by
  induction l using runs_induction A generalizing off off' with
  | none l h =>
    rw [lex_of_not_mem A read h, visible_items, runsFrom_eq_nil A off h, runsFrom_eq_nil A off' h]
    rfl
  | run g m b hg hm hb ih =>
    rw [lex_first A read hg hm hb, visible_append, visible_append, visible_items,
      runsFrom_first A off hg hm hb, runsFrom_skip A off' hg, block, List.filter_cons]
    change (if (!read (decoded A m)) = true then _ else _ : List (Run β)).map Run.items = _
    by_cases hread : read (decoded A m) = true
    · rw [hread, if_neg (by decide), if_pos rfl]
      exact ih _ _
    · rw [Bool.not_eq_true] at hread
      rw [hread, if_pos (by decide), if_neg Bool.false_ne_true, visible_items, List.cons_append,
        runsFrom_run A _ hm (blunt_visible A read hb), List.map_cons, List.map_cons, ih]
      rfl

end Lexed

theorem carved_visible (off : ℕ) (ts : List (Token α)) :
    Carved A.toSizing off (render A ts) ((located A off ts).map Run.span) (visible ts) := by
  induction ts generalizing off with
  | nil => exact .done off []
  | cons t ts ih =>
    cases t with
    | item a => exact Carved.prepend [a] (ih _)
    | run m => exact .span [] (A.marker :: m) (ih _)

section Docs
variable [DecidableEq α] (read : List β → Bool)

structure Doc where
  tokens : List (Token α)
  lexed : Lexed A read tokens

namespace Doc
variable {A read}

theorem ext_tokens {d e : Doc A read} (h : d.tokens = e.tokens) : d = e := by
  cases d
  cases e
  subst h
  rfl

variable (A read) in
def ofList (l : List α) : Doc A read := ⟨lex A read l, lexed_lex l⟩

def text (d : Doc A read) : List α := render A d.tokens

structure Seam (d : Doc A read) where
  pre : List (Token α)
  post : List (Token α)
  eq : d.tokens = pre ++ post
  blunt : Blunt A (render A post)

structure Place (d : Doc A read) where
  pre : List (Token α)
  run : List α
  post : List (Token α)
  eq : d.tokens = pre ++ .run run :: post

def insert (d : Doc A read) (s : Seam d) (e : Doc A read) (he : Blunt A e.text) : Doc A read where
  tokens := s.pre ++ (e.tokens ++ s.post)
  lexed := by
    obtain ⟨hpre, hpost⟩ := (s.eq ▸ d.lexed).of_append s.blunt
    refine hpre.append (e.lexed.append hpost s.blunt) ?_
    rw [render_append]
    exact he.append A s.blunt

def remove (d : Doc A read) (p : Place d) : Doc A read := ⟨p.pre ++ p.post, (p.eq ▸ d.lexed).remove⟩

end Doc
end Docs

end MarkedRuns
