import UnstructuredText.Source.StrDefs

/-! The variation-selector byte codec. A byte travels as one of 256 invisible code
points: the low sixteen bytes in the Variation Selectors block, the others in its
Supplement. -/

namespace UnstructuredText

def vsStart : ℕ := 0xFE00
def vsEnd : ℕ := 0xFE0F
def vsSupStart : ℕ := 0xE0100
def vsSupEnd : ℕ := 0xE01EF

def vsCodePoint (b : UInt8) : ℕ :=
  if b ≤ 0x0F then vsStart + b.toNat else vsSupStart + (b.toNat - 0x10)

theorem vsCodePoint_isValidChar (b : UInt8) : (vsCodePoint b).isValidChar := by
  have hb := b.toNat_lt
  unfold vsCodePoint vsStart vsSupStart Nat.isValidChar
  split_ifs <;> omega

/-- Both blocks are free of surrogates, so the source's `expect` cannot fail: the
character carries the proof. -/
def byteToVs (b : UInt8) : Char := Char.ofNatAux (vsCodePoint b) (vsCodePoint_isValidChar b)

def vsToByte (c : Char) : Option UInt8 :=
  if vsStart ≤ c.toNat ∧ c.toNat ≤ vsEnd then some (UInt8.ofNat (c.toNat - vsStart))
  else if vsSupStart ≤ c.toNat ∧ c.toNat ≤ vsSupEnd then
    some (UInt8.ofNat (c.toNat - vsSupStart + 0x10))
  else none

def encodeRun (bytes : List UInt8) : Text := bytes.map byteToVs

def decodeRunLoop (len : ℕ) : List UInt8 → List (ℕ × Char) → List UInt8 × ℕ
  | out, [] => (out, len)
  | out, (offset, c) :: chars =>
    match vsToByte c with
    | some b => decodeRunLoop len (out ++ [b]) chars
    | none => (out, offset)

def decodeRun (s : Text) : List UInt8 × ℕ := decodeRunLoop (strLen s) [] (charIndices s)

end UnstructuredText
