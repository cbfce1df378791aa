import UnstructuredText.Lib.Exec
import UnstructuredText.Lib.Sized
import Mathlib.Data.List.Basic

/-! Strings. A string is a sequence of Unicode scalar values addressed by the offsets of
its UTF-8 form; an access off a character boundary or past the end is a fault.

`strLen s`, `isCharBoundary s i`, `strFind s c`, `strFrom s i`, `strTo s i`, `strSlice s i j`,
`charIndices s` and `strBytes s` are `s.len()`, `s.is_char_boundary(i)`, `s.find(c)`, `s[i..]`,
`s[..i]`, `s[i..j]`, `s.char_indices()` and `s.into_bytes()`. -/

namespace UnstructuredText
open Machine Sized

abbrev Text := List Char

def utf8 : Sizing Char := ⟨Char.utf8Size, Char.utf8Size_pos⟩

def strLen (s : Text) : ℕ := total utf8 s

def isCharBoundary (s : Text) (i : ℕ) : Bool := isBoundary utf8 s i

def strFind (s : Text) (c : Char) : Option ℕ := offsetOf utf8 c s

def strFrom (s : Text) (i : ℕ) : Exec Text :=
  match cutAt utf8 s i with
  | some p => .ok p.2
  | none => .error .bounds

def strTo (s : Text) (i : ℕ) : Exec Text :=
  match cutAt utf8 s i with
  | some p => .ok p.1
  | none => .error .bounds

def strSlice (s : Text) (i j : ℕ) : Exec Text :=
  match between utf8 s i j with
  | some m => .ok m
  | none => .error .bounds

def charIndicesFrom : ℕ → Text → List (ℕ × Char)
  | _, [] => []
  | offset, c :: s => (offset, c) :: charIndicesFrom (offset + c.utf8Size) s

def charIndices (s : Text) : List (ℕ × Char) := charIndicesFrom 0 s

def strBytes (s : Text) : List UInt8 := s.flatMap String.utf8EncodeChar

/-- What the language guarantees of a string: it occupies at most `isize::MAX` bytes. -/
def Fits (w : PtrWidth) (s : Text) : Prop := strLen s ≤ w.isizeMax

instance (w : PtrWidth) (s : Text) : Decidable (Fits w s) :=
  inferInstanceAs (Decidable (strLen s ≤ w.isizeMax))

@[simp] theorem strLen_nil : strLen [] = 0 := rfl

@[simp] theorem strLen_cons (c : Char) (s : Text) : strLen (c :: s) = c.utf8Size + strLen s := rfl

@[simp] theorem strLen_append (s t : Text) : strLen (s ++ t) = strLen s + strLen t :=
  total_append utf8 s t

theorem Fits.left {w : PtrWidth} {s t : Text} (h : Fits w (s ++ t)) : Fits w s := by
  rw [Fits, strLen_append] at h
  exact Nat.le_of_add_right_le h

theorem Fits.right {w : PtrWidth} {s t : Text} (h : Fits w (s ++ t)) : Fits w t := by
  rw [Fits, strLen_append] at h
  exact Nat.le_of_add_left_le h

theorem Fits.lt_usizeMax {w : PtrWidth} {s : Text} (h : Fits w s) : strLen s < w.usizeMax := by
  have hw := w.two_mul_isizeMax
  rw [Fits] at h
  omega

theorem isCharBoundary_append (s t : Text) : isCharBoundary (s ++ t) (strLen s) = true :=
  isBoundary_total utf8 s t

theorem strFrom_append (s t : Text) : strFrom (s ++ t) (strLen s) = .ok t := by
  rw [strFrom, strLen, cutAt_total]

theorem strTo_append (s t : Text) : strTo (s ++ t) (strLen s) = .ok s := by
  rw [strTo, strLen, cutAt_total]

theorem strSlice_append (a m b : Text) :
    strSlice (a ++ (m ++ b)) (strLen a) (strLen a + strLen m) = .ok m := by
  rw [strSlice, strLen, strLen, between_total]

end UnstructuredText
