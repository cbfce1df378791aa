import Mathlib.Data.List.Basic
import Mathlib.Data.Int.Notation

/-! JSON texts. A strict reader of the grammar: white space around the structural
characters, numbers without leading zeros, escapes in strings, and no control character
unescaped. A reader returns what it read and what is left of the text. -/

namespace Json

structure Number where
  negative : Bool
  whole : ℕ
  fraction : List Char
  exponent : ℤ
  deriving DecidableEq, Repr

/-- The members of an object are kept in their order, repeated names included. -/
inductive Value
  | null
  | bool (b : Bool)
  | num (n : Number)
  | str (s : List Char)
  | arr (items : List Value)
  | obj (members : List (List Char × Value))

def Value.nat (n : ℕ) : Value := .num ⟨false, n, [], 0⟩

abbrev Reader (α : Type) := List Char → Option (α × List Char)

def isSpace (c : Char) : Bool := c == ' ' || c == '\t' || c == '\n' || c == '\r'

def skip (s : List Char) : List Char := s.dropWhile isSpace

def digits : Reader (List Char) := fun s =>
  match s.takeWhile Char.isDigit with
  | [] => none
  | d :: ds => some (d :: ds, s.dropWhile Char.isDigit)

def whole : Reader ℕ := fun s => do
  let (ds, s) ← digits s
  if ds.head? = some '0' ∧ ds ≠ ['0'] then none
  return (Nat.ofDigitChars 10 ds 0, s)

def fraction : Reader (List Char)
  | '.' :: s => digits s
  | s => some ([], s)

def exponentDigits : Reader ℤ
  | '-' :: s => (digits s).map fun p => (-Nat.ofDigitChars 10 p.1 0, p.2)
  | '+' :: s => (digits s).map fun p => (Nat.ofDigitChars 10 p.1 0, p.2)
  | s => (digits s).map fun p => (Nat.ofDigitChars 10 p.1 0, p.2)

def exponent : Reader ℤ
  | 'e' :: s => exponentDigits s
  | 'E' :: s => exponentDigits s
  | s => some (0, s)

def unsigned (negative : Bool) : Reader Number := fun s => do
  let (n, s) ← whole s
  let (f, s) ← fraction s
  let (e, s) ← exponent s
  return (⟨negative, n, f, e⟩, s)

def number : Reader Number
  | '-' :: s => unsigned true s
  | s => unsigned false s

def hexDigit (c : Char) : Option ℕ :=
  if c.isDigit then some (c.toNat - '0'.toNat)
  else if 'a' ≤ c ∧ c ≤ 'f' then some (c.toNat - 'a'.toNat + 10)
  else if 'A' ≤ c ∧ c ≤ 'F' then some (c.toNat - 'A'.toNat + 10)
  else none

def codeUnit : Reader ℕ
  | a :: b :: c :: d :: s => do
    let a ← hexDigit a
    let b ← hexDigit b
    let c ← hexDigit c
    let d ← hexDigit d
    return (((a * 16 + b) * 16 + c) * 16 + d, s)
  | _ => none

def isHigh (n : ℕ) : Bool := 0xD800 ≤ n && n < 0xDC00
def isLow (n : ℕ) : Bool := 0xDC00 ≤ n && n < 0xE000

def unicode : Reader Char := fun s => do
  let (n, s) ← codeUnit s
  if isHigh n then
    match s with
    | '\\' :: 'u' :: s =>
      let (m, s) ← codeUnit s
      if isLow m then return (Char.ofNat (0x10000 + (n - 0xD800) * 0x400 + (m - 0xDC00)), s)
      else none
    | _ => none
  else if isLow n then none
  else return (Char.ofNat n, s)

def simpleEscape (c : Char) : Option Char :=
  if c = '"' ∨ c = '\\' ∨ c = '/' then some c
  else if c = 'b' then some '\x08'
  else if c = 'f' then some '\x0c'
  else if c = 'n' then some '\n'
  else if c = 'r' then some '\r'
  else if c = 't' then some '\t'
  else none

def escape : Reader Char
  | [] => none
  | c :: s => if c = 'u' then unicode s else (simpleEscape c).map fun e => (e, s)

def string : ℕ → Reader (List Char)
  | 0, _ => none
  | _ + 1, [] => none
  | n + 1, c :: s =>
    if c = '"' then some ([], s)
    else if c = '\\' then do
      let (c, s) ← escape s
      let (cs, s) ← string n s
      return (c :: cs, s)
    else if c.toNat < 0x20 then none
    else do
      let (cs, s) ← string n s
      return (c :: cs, s)

section Sequences
variable {α : Type} (close : Char) (item : Reader α)

def items : ℕ → Reader (List α)
  | 0, _ => none
  | n + 1, s => do
    let (a, s) ← item s
    match skip s with
    | [] => none
    | c :: s =>
      if c = close then return ([a], s)
      else if c = ',' then do
        let (as, s) ← items n s
        return (a :: as, s)
      else none

def enclosed (n : ℕ) : Reader (List α) := fun s =>
  match skip s with
  | [] => none
  | c :: s => if c = close then some ([], s) else items close item n (c :: s)

end Sequences

def member (n : ℕ) (value : Reader Value) : Reader (List Char × Value) := fun s =>
  match skip s with
  | '"' :: s => do
    let (k, s) ← string n s
    match skip s with
    | ':' :: s =>
      let (v, s) ← value s
      return ((k, v), s)
    | _ => none
  | _ => none

def keyword (word : List Char) (v : Value) : Reader Value := fun s =>
  if word.isPrefixOf s then some (v, s.drop word.length) else none

/-- Every level of nesting and every item of a sequence takes a character at least, so the
length of a text is fuel enough for it. -/
def value : ℕ → Reader Value
  | 0, _ => none
  | n + 1, s =>
    match skip s with
    | [] => none
    | c :: s =>
      if c = '{' then (enclosed '}' (member n (value n)) n s).map fun p => (.obj p.1, p.2)
      else if c = '[' then (enclosed ']' (value n) n s).map fun p => (.arr p.1, p.2)
      else if c = '"' then (string n s).map fun p => (.str p.1, p.2)
      else if c = 't' then keyword "true".toList (.bool true) (c :: s)
      else if c = 'f' then keyword "false".toList (.bool false) (c :: s)
      else if c = 'n' then keyword "null".toList .null (c :: s)
      else (number (c :: s)).map fun p => (.num p.1, p.2)

def parse (s : List Char) : Option Value := do
  let (v, s) ← value (s.length + 1) s
  if skip s = [] then return v else none

end Json
