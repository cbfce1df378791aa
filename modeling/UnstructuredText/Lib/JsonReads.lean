import UnstructuredText.Lib.Json

/-! What a text reads as. A string spelled out without escapes reads back as itself
exactly when nothing in it calls for an escape: an escape shortens what is read, and a
quotation mark ends it or appears in it too early. Sequences of texts read item by item. -/

namespace Json

def Plain (s : List Char) : Prop := ∀ c ∈ s, c ≠ '"' ∧ c ≠ '\\' ∧ 0x20 ≤ c.toNat

instance (s : List Char) : Decidable (Plain s) := List.decidableBAll _ s

theorem plain_cons {c : Char} {s : List Char} :
    Plain (c :: s) ↔ (c ≠ '"' ∧ c ≠ '\\' ∧ 0x20 ≤ c.toNat) ∧ Plain s := List.forall_mem_cons

theorem Plain.not_mem {s : List Char} (h : Plain s) : '"' ∉ s := fun hmem => (h _ hmem).1 rfl

theorem skip_cons {c : Char} (h : isSpace c = false) (s : List Char) : skip (c :: s) = c :: s :=
  List.dropWhile_cons_of_neg (by rw [h]; exact Bool.false_ne_true)

theorem codeUnit_cases {s left : List Char} {n : ℕ} (h : codeUnit s = some (n, left)) :
    ∃ x, '"' ∉ x ∧ s = x ++ left := by
  have hquote : hexDigit '"' = none := by decide
  have hne : ∀ {c k}, hexDigit c = some k → '"' ≠ c := by
    rintro c k hc rfl
    rw [hquote] at hc
    cases hc
  match s, h with
  | a :: b :: c :: d :: s, h =>
    simp only [codeUnit, Option.bind_eq_bind, Option.bind_eq_some_iff, Option.pure_def,
      Option.some.injEq, Prod.mk.injEq] at h
    obtain ⟨_, ha, _, hb, _, hc, _, hd, _, rfl⟩ := h
    refine ⟨[a, b, c, d], ?_, rfl⟩
    simp only [List.mem_cons, List.not_mem_nil, or_false, not_or]
    exact ⟨hne ha, hne hb, hne hc, hne hd⟩

theorem unicode_cases {s left : List Char} {c : Char} (h : unicode s = some (c, left)) :
    ∃ x, '"' ∉ x ∧ s = x ++ left := by
  simp only [unicode, Option.bind_eq_bind, Option.bind_eq_some_iff] at h
  obtain ⟨⟨n, s'⟩, hunit, h⟩ := h
  obtain ⟨x, hx, rfl⟩ := codeUnit_cases hunit
  dsimp only at h
  split_ifs at h
  · split at h
    · simp only [Option.bind_eq_some_iff] at h
      obtain ⟨⟨m, s''⟩, hunit', h⟩ := h
      obtain ⟨y, hy, rfl⟩ := codeUnit_cases hunit'
      dsimp only at h
      split_ifs at h
      obtain ⟨_, rfl⟩ := Prod.mk.inj (Option.some.inj h)
      exact ⟨x ++ '\\' :: 'u' :: y, by simp [hx, hy], by simp⟩
    · cases h
  · obtain ⟨_, rfl⟩ := Prod.mk.inj (Option.some.inj h)
    exact ⟨x, hx, rfl⟩

theorem escape_cases {s left : List Char} {c : Char} (h : escape s = some (c, left)) :
    (c = '"' ∧ s = '"' :: left) ∨ ∃ x, x ≠ [] ∧ '"' ∉ x ∧ s = x ++ left := by
  cases s with
  | nil => cases h
  | cons d s =>
    rw [escape] at h
    split_ifs at h with hu
    · obtain ⟨x, hx, rfl⟩ := unicode_cases h
      exact .inr ⟨d :: x, List.cons_ne_nil d x, by simp [hx, hu], rfl⟩
    · obtain ⟨e, he, heq⟩ := Option.map_eq_some_iff.mp h
      obtain ⟨rfl, rfl⟩ := Prod.mk.inj heq
      by_cases hd : d = '"'
      · subst hd
        exact .inl ⟨(Option.some.inj he).symm, rfl⟩
      · exact .inr ⟨[d], List.cons_ne_nil d [], by simpa using Ne.symm hd, rfl⟩

theorem exists_of_append_eq {x y g rest : List Char} (hx : '"' ∉ x)
    (h : g ++ '"' :: rest = x ++ y) : ∃ t, g = x ++ t ∧ y = t ++ '"' :: rest := by
  rcases List.append_eq_append_iff.mp h with ⟨t, rfl, ht⟩ | ⟨t, rfl, rfl⟩
  · cases t with
    | nil => exact ⟨[], by simp, by simpa using ht.symm⟩
    | cons c t =>
      obtain ⟨rfl, _⟩ := List.cons.inj ht
      simp at hx
  · exact ⟨t, rfl, rfl⟩

theorem string_plain {g : List Char} (hg : Plain g) {n : ℕ} (hn : g.length < n)
    (rest : List Char) : string n (g ++ '"' :: rest) = some (g, rest) := by
  induction g generalizing n with
  | nil =>
    obtain ⟨n, rfl⟩ := Nat.exists_eq_succ_of_ne_zero (Nat.ne_of_gt hn)
    rfl
  | cons c g ih =>
    obtain ⟨n, rfl⟩ := Nat.exists_eq_succ_of_ne_zero (Nat.ne_of_gt (Nat.zero_lt_of_lt hn))
    obtain ⟨⟨hquote, hslash, hcontrol⟩, hg⟩ := plain_cons.mp hg
    rw [List.cons_append, string, if_neg hquote, if_neg hslash, if_neg (Nat.not_lt.mpr hcontrol),
      ih hg (Nat.lt_of_succ_lt_succ hn)]
    rfl

theorem string_cons_cases {n : ℕ} {c : Char} {s v left : List Char} (hc : c ≠ '"')
    (h : string (n + 1) (c :: s) = some (v, left)) :
    ∃ e s' cs, v = e :: cs ∧ string n s' = some (cs, left) ∧
      ((c = '\\' ∧ escape s = some (e, s')) ∨ (Plain [c] ∧ e = c ∧ s' = s)) := by
  rw [string, if_neg hc] at h
  split_ifs at h with hslash hcontrol
  · simp only [Option.bind_eq_bind, Option.bind_eq_some_iff, Option.pure_def, Option.some.injEq,
      Prod.mk.injEq] at h
    obtain ⟨⟨e, s'⟩, hescape, ⟨cs, left'⟩, hstring, rfl, rfl⟩ := h
    exact ⟨e, s', cs, rfl, hstring, .inl ⟨hslash, hescape⟩⟩
  · simp only [Option.bind_eq_bind, Option.bind_eq_some_iff, Option.pure_def, Option.some.injEq,
      Prod.mk.injEq] at h
    obtain ⟨⟨cs, left'⟩, hstring, rfl, rfl⟩ := h
    have hplain : Plain [c] := List.forall_mem_singleton.mpr ⟨hc, hslash, Nat.not_lt.mp hcontrol⟩
    exact ⟨c, s, cs, rfl, hstring, .inr ⟨hplain, rfl, rfl⟩⟩

theorem exists_mark_cons {e : Char} {l k : ℕ} {cs : List Char} (hle : l ≤ k)
    (h : ∃ j < l, cs[j]? = some '"') : ∃ j < k + 1, (e :: cs)[j]? = some '"' := by
  obtain ⟨j, hj, hmark⟩ := h
  exact ⟨j + 1, Nat.succ_lt_succ (Nat.lt_of_lt_of_le hj hle), hmark⟩

/-- Read up to a quotation mark, a string is no longer than its text, and as long only if
the text is plain; or it holds a quotation mark before the one in the text. -/
theorem string_cases (n : ℕ) {g rest v left : List Char} (hg : '"' ∉ g)
    (h : string n (g ++ '"' :: rest) = some (v, left)) :
    (left = rest ∧ v.length ≤ g.length ∧ (v.length = g.length → Plain g)) ∨
      ∃ j < g.length, v[j]? = some '"' := by
  induction n generalizing g v with
  | zero => cases h
  | succ n ih =>
    rcases g with _ | ⟨c, g⟩
    · obtain ⟨rfl, rfl⟩ := Prod.mk.inj (Option.some.inj h)
      exact .inl ⟨rfl, Nat.le_refl 0, fun _ _ hc => absurd hc List.not_mem_nil⟩
    rw [List.mem_cons, not_or] at hg
    obtain ⟨e, s', cs, rfl, hstring, ⟨rfl, hescape⟩ | ⟨hc, rfl, rfl⟩⟩ :=
      string_cons_cases (Ne.symm hg.1) h
    · rcases escape_cases hescape with ⟨rfl, _⟩ | ⟨x, hne, hx, hs⟩
      · exact .inr ⟨0, Nat.succ_pos _, rfl⟩
      · -- the escape lies in front of the quotation mark and gives one character for several
        obtain ⟨t, rfl, rfl⟩ := exists_of_append_eq hx hs
        have hpos := List.length_pos_iff.mpr hne
        have ht : '"' ∉ t := fun hmem => hg.2 (List.mem_append_right x hmem)
        rcases ih ht hstring with ⟨rfl, hle, _⟩ | hmark
        · refine .inl ⟨rfl, ?_, fun heq => ?_⟩ <;>
          · simp only [List.length_cons, List.length_append] at *
            omega
        · refine .inr (exists_mark_cons ?_ hmark)
          rw [List.length_append]
          exact Nat.le_add_left _ _
    · rcases ih hg.2 hstring with ⟨rfl, hle, hplain⟩ | hmark
      · refine .inl ⟨rfl, Nat.succ_le_succ hle, fun heq => plain_cons.mpr ⟨?_, ?_⟩⟩
        · exact (plain_cons.mp hc).1
        · exact hplain (Nat.succ.inj heq)
      · exact .inr (exists_mark_cons (Nat.le_refl _) hmark)

theorem string_self {n : ℕ} {a rest left : List Char}
    (h : string n (a ++ '"' :: rest) = some (a, left)) : Plain a ∧ left = rest := by
  by_cases hquote : '"' ∈ a
  · obtain ⟨g, t, rfl, hg⟩ := List.eq_append_cons_of_mem hquote
    rw [List.append_assoc, List.cons_append] at h
    rcases string_cases n hg h with ⟨_, hle, _⟩ | ⟨j, hj, hget⟩
    · simp only [List.length_append, List.length_cons] at hle
      omega
    · rw [List.getElem?_append_left hj] at hget
      exact absurd (List.mem_of_getElem? hget) hg
  · rcases string_cases n hquote h with ⟨rfl, _, hplain⟩ | ⟨j, _, hget⟩
    · exact ⟨hplain rfl, rfl⟩
    · exact absurd (List.mem_of_getElem? hget) hquote

def Stops (s : List Char) : Prop := ∀ c ∈ s.head?, c = ',' ∨ c = ']' ∨ c = '}'

theorem stops_nil : Stops [] := by simp [Stops]

theorem stops_cons {c : Char} (h : c = ',' ∨ c = ']' ∨ c = '}') (s : List Char) :
    Stops (c :: s) := by
  intro d hd
  obtain rfl := Option.some.inj hd
  exact h

/-- With fuel for its length, `text` reads as `a` exactly when `good` holds, and then all
of it and no more is taken. -/
structure Reads {α : Type} (read : ℕ → Reader α) (text : List Char) (a : α) (good : Prop) :
    Prop where
  opens : ∃ c s, text = c :: s ∧ isSpace c = false ∧ c ≠ ']' ∧ c ≠ '}'
  exact : ∀ n, text.length ≤ n → ∀ rest, Stops rest → ∀ left,
    read n (text ++ rest) = some (a, left) ↔ good ∧ left = rest

theorem Reads.of_iff {α : Type} {read : ℕ → Reader α} {text : List Char} {a : α}
    {good good' : Prop} (h : Reads read text a good) (hiff : good ↔ good') :
    Reads read text a good' := propext hiff ▸ h

theorem parse_eq_some_iff {text : List Char} {v : Value} {good : Prop}
    (h : Reads value text v good) : parse text = some v ↔ good := by
  have hexact := h.exact (text.length + 1) (Nat.le_succ _) [] stops_nil
  rw [List.append_nil] at hexact
  simp only [parse, Option.bind_eq_bind, Option.bind_eq_some_iff, Option.pure_def]
  constructor
  · rintro ⟨⟨v', left⟩, hread, hend⟩
    dsimp only at hend
    split_ifs at hend
    obtain rfl := Option.some.inj hend
    exact ((hexact left).mp hread).1
  · intro hgood
    exact ⟨(v, []), (hexact []).mpr ⟨hgood, rfl⟩, rfl⟩

theorem map_wrap_eq_some_iff {α γ : Type} {wrap : α → γ} (hwrap : Function.Injective wrap)
    {o : Option (α × List Char)} {a : α} {left : List Char} :
    (o.map fun p => (wrap p.1, p.2)) = some (wrap a, left) ↔ o = some (a, left) := by
  rw [Option.map_eq_some_iff]
  constructor
  · rintro ⟨⟨a', left'⟩, ho, heq⟩
    simp only [Prod.mk.injEq, hwrap.eq_iff] at heq
    rw [ho, heq.1, heq.2]
  · exact fun ho => ⟨_, ho, rfl⟩

theorem value_string (n : ℕ) (s : List Char) :
    value (n + 1) ('"' :: s) = (string n s).map fun p => (.str p.1, p.2) := rfl

theorem reads_string (a : List Char) :
    Reads value ('"' :: (a ++ ['"'])) (.str a) (Plain a) where
  opens := ⟨'"', _, rfl, by decide, by decide, by decide⟩
  exact n hn rest _ left := by
    simp only [List.length_cons, List.length_append, List.length_nil] at hn
    obtain ⟨n, rfl⟩ : ∃ m, n = m + 1 := ⟨n - 1, by omega⟩
    rw [List.cons_append, List.append_assoc, value_string,
      map_wrap_eq_some_iff fun _ _ => Value.str.inj]
    constructor
    · exact string_self
    · rintro ⟨hplain, rfl⟩
      exact string_plain hplain (show a.length < n by omega) left

theorem toDigits_head : ∀ n : ℕ, (Nat.toDigits 10 n).head? = some '0' → n = 0 := by
  intro n
  induction n using Nat.strongRecOn with
  | _ n ih =>
    intro hhead
    rcases Nat.lt_or_ge n 10 with hn | hn
    · rw [Nat.toDigits_of_lt_base hn, List.head?_cons, Option.some_inj] at hhead
      have h : ∀ m < 10, Nat.digitChar m = '0' → m = 0 := by decide
      exact h n hn hhead
    · rw [Nat.toDigits_of_base_le (by decide) hn, List.head?_append_of_ne_nil _ Nat.toDigits_ne_nil]
        at hhead
      have h := ih (n / 10) (by omega) hhead
      omega

theorem digits_toDigits (n : ℕ) {rest : List Char} (hrest : Stops rest) :
    digits (Nat.toDigits 10 n ++ rest) = some (Nat.toDigits 10 n, rest) := by
  have hall : ∀ c ∈ Nat.toDigits 10 n, c.isDigit = true := fun c hc =>
    Nat.isDigit_of_mem_toDigits (by decide) (by decide) hc
  have hstop : ∀ c ∈ rest.head?, c.isDigit = false := by
    intro c hc
    rcases hrest c hc with rfl | rfl | rfl <;> decide
  have htake : (Nat.toDigits 10 n ++ rest).takeWhile Char.isDigit = Nat.toDigits 10 n := by
    rw [List.takeWhile_append_of_pos hall]
    cases rest with
    | nil => exact List.append_nil _
    | cons c rest => rw [List.takeWhile_cons_of_neg (by simp [hstop c rfl]), List.append_nil]
  have hdrop : (Nat.toDigits 10 n ++ rest).dropWhile Char.isDigit = rest := by
    rw [List.dropWhile_append_of_pos hall]
    cases rest with
    | nil => rfl
    | cons c rest => rw [List.dropWhile_cons_of_neg (by simp [hstop c rfl])]
  rw [digits, htake, hdrop]
  cases h : Nat.toDigits 10 n with
  | nil => exact absurd h Nat.toDigits_ne_nil
  | cons d ds => rfl

theorem unsigned_toDigits (n : ℕ) {rest : List Char} (hrest : Stops rest) :
    unsigned false (Nat.toDigits 10 n ++ rest) = some (⟨false, n, [], 0⟩, rest) := by
  have hlead : ¬((Nat.toDigits 10 n).head? = some '0' ∧ Nat.toDigits 10 n ≠ ['0']) := by
    rintro ⟨hhead, hne⟩
    rw [toDigits_head n hhead] at hne
    exact hne rfl
  have hwhole : whole (Nat.toDigits 10 n ++ rest) = some (n, rest) := by
    simp only [whole, digits_toDigits n hrest, Option.bind_eq_bind, Option.bind_some]
    rw [if_neg hlead]
    simp only [Nat.ofDigitChars_ten_toDigits]
    rfl
  have hfraction : fraction rest = some ([], rest) := by
    cases rest with
    | nil => rfl
    | cons c rest => rcases hrest c rfl with rfl | rfl | rfl <;> rfl
  have hexponent : exponent rest = some (0, rest) := by
    cases rest with
    | nil => rfl
    | cons c rest => rcases hrest c rfl with rfl | rfl | rfl <;> rfl
  simp only [unsigned, hwhole, hfraction, hexponent, Option.bind_eq_bind, Option.bind_some,
    Option.pure_def]

theorem ne_of_isDigit {c d : Char} (hc : c.isDigit = true) (hd : d.isDigit = false) : c ≠ d := by
  rintro rfl
  rw [hc] at hd
  cases hd

theorem isSpace_of_isDigit {c : Char} (hc : c.isDigit = true) : isSpace c = false := by
  simp only [isSpace, Bool.or_eq_false_iff, beq_eq_false_iff_ne]
  exact ⟨⟨⟨ne_of_isDigit hc rfl, ne_of_isDigit hc rfl⟩, ne_of_isDigit hc rfl⟩,
    ne_of_isDigit hc rfl⟩

theorem value_digit {c : Char} (hc : c.isDigit = true) (n : ℕ) (s : List Char) :
    value (n + 1) (c :: s) = (unsigned false (c :: s)).map fun p => (.num p.1, p.2) := by
  have hnumber : number (c :: s) = unsigned false (c :: s) := by
    rw [number]
    intro t ht
    exact ne_of_isDigit hc rfl (List.cons.inj ht).1
  rw [value, skip_cons (isSpace_of_isDigit hc)]
  dsimp only
  rw [if_neg (ne_of_isDigit hc rfl), if_neg (ne_of_isDigit hc rfl), if_neg (ne_of_isDigit hc rfl),
    if_neg (ne_of_isDigit hc rfl), if_neg (ne_of_isDigit hc rfl), if_neg (ne_of_isDigit hc rfl),
    hnumber]

theorem reads_nat (m : ℕ) : Reads value (Nat.toDigits 10 m) (.nat m) True := by
  obtain ⟨c, s, htext⟩ := List.exists_cons_of_ne_nil (@Nat.toDigits_ne_nil m 10)
  have hc : c.isDigit = true := Nat.isDigit_of_mem_toDigits (by decide) (by decide)
    (htext ▸ List.mem_cons_self)
  constructor
  · exact ⟨c, s, htext, isSpace_of_isDigit hc, ne_of_isDigit hc rfl, ne_of_isDigit hc rfl⟩
  · intro n hn rest hrest left
    have hpos : 0 < n := Nat.lt_of_lt_of_le (by rw [htext]; exact Nat.succ_pos _) hn
    obtain ⟨n, rfl⟩ := Nat.exists_eq_succ_of_ne_zero (Nat.ne_of_gt hpos)
    have hread := unsigned_toDigits m hrest
    rw [htext, List.cons_append] at hread ⊢
    rw [value_digit hc, hread, Option.map_some, Option.some_inj, Prod.mk.injEq, true_and]
    exact (and_iff_right rfl).trans eq_comm

section Sequences
variable {α β : Type} {item : Reader α} {close : Char}

theorem items_ne_nil {n : ℕ} {s left : List Char} {as : List α}
    (h : items close item n s = some (as, left)) : as ≠ [] := by
  cases n with
  | zero => cases h
  | succ n =>
    simp only [items, Option.bind_eq_bind, Option.bind_eq_some_iff] at h
    obtain ⟨⟨a, s'⟩, _, h⟩ := h
    dsimp only at h
    split at h
    · cases h
    · split_ifs at h
      · obtain ⟨rfl, _⟩ := Prod.mk.inj (Option.some.inj h)
        exact List.cons_ne_nil a []
      · obtain ⟨⟨as', _⟩, _, h⟩ := Option.bind_eq_some_iff.mp h
        obtain ⟨rfl, _⟩ := Prod.mk.inj (Option.some.inj h)
        exact List.cons_ne_nil a as'

theorem items_cons_iff (hcomma : close ≠ ',') {n : ℕ} {s left : List Char} {a : α} {as : List α} :
    items close item (n + 1) s = some (a :: as, left) ↔ ∃ s', item s = some (a, s') ∧
      ((skip s' = close :: left ∧ as = []) ∨
        ∃ t, skip s' = ',' :: t ∧ items close item n t = some (as, left)) := by
  simp only [items, Option.bind_eq_bind, Option.bind_eq_some_iff, Prod.exists]
  constructor
  · rintro ⟨a', s', hitem, h⟩
    split at h
    · cases h
    · rename_i c t hskip
      split_ifs at h with hclose hc
      · obtain ⟨heq, rfl⟩ := Prod.mk.inj (Option.some.inj h)
        obtain ⟨rfl, rfl⟩ := List.cons.inj heq
        exact ⟨s', hitem, .inl ⟨by rw [hskip, hclose], rfl⟩⟩
      · obtain ⟨⟨as', left'⟩, hitems, h⟩ := Option.bind_eq_some_iff.mp h
        obtain ⟨heq, rfl⟩ := Prod.mk.inj (Option.some.inj h)
        obtain ⟨rfl, rfl⟩ := List.cons.inj heq
        exact ⟨s', hitem, .inr ⟨t, by rw [hskip, hc], hitems⟩⟩
  · rintro ⟨s', hitem, ⟨hskip, rfl⟩ | ⟨t, hskip, hitems⟩⟩
    · refine ⟨a, s', hitem, ?_⟩
      rw [hskip]
      exact if_pos rfl
    · refine ⟨a, s', hitem, ?_⟩
      rw [hskip]
      dsimp only
      rw [if_neg (Ne.symm hcomma), if_pos rfl, hitems]
      rfl

variable {text : β → List Char} {val : β → α} {good : β → Prop} {bs : List β}

theorem join_cons (t t' : List Char) (ts : List (List Char)) (s : List Char) :
    [','].intercalate (t :: t' :: ts) ++ s = t ++ ',' :: ([','].intercalate (t' :: ts) ++ s) := by
  rw [List.intercalate_cons_of_ne_nil (List.cons_ne_nil t' ts)]
  simp only [List.append_assoc, List.cons_append, List.nil_append]

theorem items_exact (hclose : close = ']' ∨ close = '\x7d') (hne : bs ≠ [])
    (h : ∀ b ∈ bs, ∀ rest, Stops rest → ∀ left,
      item (text b ++ rest) = some (val b, left) ↔ good b ∧ left = rest)
    {n : ℕ} (hn : bs.length ≤ n) (rest left : List Char) :
    items close item n ([','].intercalate (bs.map text) ++ close :: rest) =
      some (bs.map val, left) ↔ (∀ b ∈ bs, good b) ∧ left = rest := by
  have hcomma : close ≠ ',' := by rcases hclose with rfl | rfl <;> decide
  have hspace : isSpace close = false := by rcases hclose with rfl | rfl <;> decide
  induction bs generalizing n with
  | nil => exact absurd rfl hne
  | cons b bs ih =>
    obtain ⟨n, rfl⟩ := Nat.exists_eq_succ_of_ne_zero (Nat.ne_of_gt (Nat.lt_of_lt_of_le
      (Nat.succ_pos _) hn))
    rw [List.map_cons, List.map_cons, items_cons_iff hcomma, List.forall_mem_cons]
    rcases bs with _ | ⟨b', bs⟩
    · -- the last item, in front of the closing character
      have hlast := h b List.mem_cons_self (close :: rest) (stops_cons (.inr hclose) rest)
      simp only [List.map_nil, List.intercalate_singleton, hlast]
      constructor
      · rintro ⟨_, ⟨hgood, rfl⟩, ⟨hskip, _⟩ | ⟨_, _, hitems⟩⟩
        · rw [skip_cons hspace] at hskip
          exact ⟨⟨hgood, by simp⟩, (List.cons.inj hskip).2.symm⟩
        · exact absurd rfl (items_ne_nil hitems)
      · rintro ⟨⟨hgood, _⟩, rfl⟩
        exact ⟨_, ⟨hgood, rfl⟩, .inl ⟨skip_cons hspace _, trivial⟩⟩
    · -- an item in front of a comma and the others
      have ih := @ih (List.cons_ne_nil b' bs) (fun c hc => h c (List.mem_cons_of_mem b hc)) n
        (Nat.le_of_succ_le_succ hn)
      have hnext := h b List.mem_cons_self
        (',' :: ([','].intercalate ((b' :: bs).map text) ++ close :: rest))
        (stops_cons (.inl rfl) _)
      rw [List.map_cons, join_cons, ← List.map_cons]
      simp only [hnext]
      constructor
      · rintro ⟨_, ⟨hgood, rfl⟩, ⟨_, hnil⟩ | ⟨t, hskip, hitems⟩⟩
        · cases hnil
        · rw [skip_cons (by decide)] at hskip
          obtain ⟨_, rfl⟩ := List.cons.inj hskip
          exact ⟨⟨hgood, (ih.mp hitems).1⟩, (ih.mp hitems).2⟩
      · rintro ⟨⟨hgood, hgoods⟩, rfl⟩
        exact ⟨_, ⟨hgood, rfl⟩, .inr ⟨_, skip_cons (by decide) _, ih.mpr ⟨hgoods, rfl⟩⟩⟩

theorem length_le_intercalate {l : List (List Char)} {s : List Char} (hs : s ∈ l) :
    s.length ≤ ([','].intercalate l).length := by
  induction l with
  | nil => exact absurd hs List.not_mem_nil
  | cons t l ih =>
    rcases l with _ | ⟨u, l⟩
    · obtain rfl := List.mem_singleton.mp hs
      exact Nat.le_of_eq (congrArg List.length List.intercalate_singleton.symm)
    · rw [List.intercalate_cons_of_ne_nil (List.cons_ne_nil u l), List.length_append,
        List.length_append]
      rcases List.mem_cons.mp hs with rfl | hmem
      · omega
      · have := ih hmem
        omega

theorem count_le_intercalate (l : List (List Char)) :
    l.length ≤ ([','].intercalate l).length + 1 := by
  induction l with
  | nil => exact Nat.zero_le _
  | cons t l ih =>
    rcases l with _ | ⟨u, l⟩
    · exact Nat.le_add_left _ _
    · rw [List.intercalate_cons_of_ne_nil (List.cons_ne_nil u l), List.length_append,
        List.length_append, List.length_cons, List.length_singleton]
      omega

theorem enclosed_exact {read : ℕ → Reader α} (hclose : close = ']' ∨ close = '\x7d')
    (h : ∀ b ∈ bs, Reads read (text b) (val b) (good b)) {n : ℕ}
    (hn : ([','].intercalate (bs.map text)).length < n) (rest left : List Char) :
    enclosed close (read n) n ([','].intercalate (bs.map text) ++ close :: rest) =
      some (bs.map val, left) ↔ (∀ b ∈ bs, good b) ∧ left = rest := by
  rcases bs with _ | ⟨b, bs⟩
  · have hspace : isSpace close = false := by rcases hclose with rfl | rfl <;> decide
    have hempty : enclosed close (read n) n (close :: rest) = some ([], rest) := by
      rw [enclosed, skip_cons hspace]
      exact if_pos rfl
    simp only [List.map_nil, List.intercalate_nil, List.nil_append, hempty, Option.some_inj,
      Prod.mk.injEq, true_and]
    exact ⟨fun h => ⟨by simp, h.symm⟩, fun h => h.2.symm⟩
  · have hitems := @items_exact α β (read n) close text val good (b :: bs) hclose
      (List.cons_ne_nil b bs) (fun c hc => (h c hc).exact n ?_) n ?_ rest left
    · rw [← hitems]
      obtain ⟨c, s, htext, hspace, hbracket, hbrace⟩ := (h b List.mem_cons_self).opens
      have hhead : ∃ t, [','].intercalate ((b :: bs).map text) ++ close :: rest = c :: t := by
        rw [List.map_cons]
        rcases bs with _ | ⟨b', bs⟩
        · exact ⟨_, by rw [List.map_nil, List.intercalate_singleton, htext, List.cons_append]⟩
        · exact ⟨_, by rw [List.map_cons, join_cons, htext, List.cons_append]⟩
      obtain ⟨t, ht⟩ := hhead
      have hne : c ≠ close := by rcases hclose with rfl | rfl <;> assumption
      rw [ht, enclosed, skip_cons hspace]
      dsimp only
      rw [if_neg hne]
    · have hmem := length_le_intercalate (List.mem_map_of_mem (f := text) hc)
      omega
    · have hcount := count_le_intercalate ((b :: bs).map text)
      rw [List.length_map] at hcount
      omega

end Sequences

section Composite
variable {β : Type} {text : β → List Char} {val : β → Value} {good : β → Prop} {bs : List β}

theorem reads_array (h : ∀ b ∈ bs, Reads value (text b) (val b) (good b)) :
    Reads value ('[' :: ([','].intercalate (bs.map text) ++ [']'])) (.arr (bs.map val))
      (∀ b ∈ bs, good b) where
  opens := ⟨'[', _, rfl, by decide, by decide, by decide⟩
  exact n hn rest _ left := by
    simp only [List.length_cons, List.length_append, List.length_nil] at hn
    obtain ⟨n, rfl⟩ : ∃ m, n = m + 1 := ⟨n - 1, by omega⟩
    have hexact := @enclosed_exact _ _ ']' text val good bs value (.inl rfl) h n (by omega) rest
    have hvalue : ∀ s, value (n + 1) ('[' :: s) =
        (enclosed ']' (value n) n s).map fun p => (.arr p.1, p.2) := fun _ => rfl
    rw [List.cons_append, List.append_assoc, hvalue,
      map_wrap_eq_some_iff fun _ _ => Value.arr.inj]
    exact hexact left

theorem reads_member {k : List Char} (hk : Plain k) {t : List Char} {v : Value} {good : Prop}
    (h : Reads value t v good) :
    Reads (fun n => member n (value n)) ('"' :: (k ++ '"' :: ':' :: t)) (k, v) good where
  opens := ⟨'"', _, rfl, by decide, by decide, by decide⟩
  exact n hn rest hrest left := by
    simp only [List.length_cons, List.length_append] at hn
    have hkey := string_plain hk (show k.length < n by omega) (':' :: (t ++ rest))
    have hquote := skip_cons (show isSpace '"' = false by decide)
      (k ++ '"' :: ':' :: (t ++ rest))
    have hcolon := skip_cons (show isSpace ':' = false by decide) (t ++ rest)
    have hmember : member n (value n) ('"' :: (k ++ '"' :: ':' :: (t ++ rest))) =
        (value n (t ++ rest)).map fun q => ((k, q.1), q.2) := by
      simp only [member, hquote, hkey, Option.bind_eq_bind, Option.bind_some, hcolon,
        Option.pure_def, Option.map_eq_bind]
      rfl
    rw [List.cons_append, List.append_assoc, List.cons_append, List.cons_append, hmember,
      @map_wrap_eq_some_iff _ _ (Prod.mk k) fun _ _ heq => (Prod.mk.inj heq).2]
    exact h.exact n (by omega) rest hrest left

variable {key : β → List Char}

theorem reads_object (hkey : ∀ b ∈ bs, Plain (key b))
    (h : ∀ b ∈ bs, Reads value (text b) (val b) (good b)) :
    Reads value ('\x7b' :: ([','].intercalate
        (bs.map fun b => '"' :: (key b ++ '"' :: ':' :: text b)) ++ ['\x7d']))
      (.obj (bs.map fun b => (key b, val b))) (∀ b ∈ bs, good b) where
  opens := ⟨'\x7b', _, rfl, by decide, by decide, by decide⟩
  exact n hn rest _ left := by
    simp only [List.length_cons, List.length_append, List.length_nil] at hn
    obtain ⟨n, rfl⟩ : ∃ m, n = m + 1 := ⟨n - 1, by omega⟩
    have hmembers : ∀ b ∈ bs, Reads (fun n => member n (value n))
        ('"' :: (key b ++ '"' :: ':' :: text b)) (key b, val b) (good b) :=
      fun b hb => reads_member (hkey b hb) (h b hb)
    have hexact := enclosed_exact (.inr rfl) hmembers (show _ < n by omega) rest
    have hvalue : ∀ s, value (n + 1) ('\x7b' :: s) =
        (enclosed '\x7d' (member n (value n)) n s).map fun p => (.obj p.1, p.2) := fun _ => rfl
    rw [List.cons_append, List.append_assoc, hvalue,
      map_wrap_eq_some_iff fun _ _ => Value.obj.inj]
    exact hexact left

end Composite

end Json
