import UnstructuredText.Source.ErrorDefs
import UnstructuredText.Source.VsDefs

/-! The wrapper frame: a marker followed by the selector encoding of magic, version,
big-endian length, payload and optional padding. Capacities are computed as the source
computes them, and one that no value may occupy is refused. Memory running out, and the
way a string or a vector grows behind its capacity, are left out. -/

namespace UnstructuredText
open Machine

/-- `"C2PATXT\0"` -/
def magic : List UInt8 := [0x43, 0x32, 0x50, 0x41, 0x54, 0x58, 0x54, 0x00]
def version : UInt8 := 1
def marker : Char := '\uFEFF'
def headerLen : ℕ := 13

structure Wrapper where
  payload : List UInt8
  version : UInt8
  start : ℕ
  length : ℕ
  deriving DecidableEq, Repr

structure ByteRange where
  start : ℕ
  stop : ℕ
  deriving DecidableEq, Repr

def Wrapper.range (w : PtrWidth) (x : Wrapper) : Exec ByteRange := do
  return ⟨x.start, ← add w x.start x.length⟩

def u32TryFrom (n : ℕ) : Option UInt32 := if n ≤ u32Max then some (UInt32.ofNat n) else none

def toBeBytes (n : UInt32) : List UInt8 :=
  [UInt8.ofNat (n.toNat / 2 ^ 24), UInt8.ofNat (n.toNat / 2 ^ 16), UInt8.ofNat (n.toNat / 2 ^ 8),
    UInt8.ofNat n.toNat]

def fromBeBytes (a b c d : UInt8) : UInt32 :=
  UInt32.ofNat (a.toNat * 2 ^ 24 + b.toNat * 2 ^ 16 + c.toNat * 2 ^ 8 + d.toNat)

def carry (w : PtrWidth) (framed : List UInt8) : Exec Text := do
  reserve w (← add w 1 (← mul w framed.length 4))
  return marker :: framed.map byteToVs

def encodeWithPadding (w : PtrWidth) (payload padding : List UInt8) :
    Exec (Except Error Text) := do
  match u32TryFrom payload.length with
  | none => return .error (.payloadTooLarge payload.length)
  | some len =>
    reserve w (← add w (← add w headerLen payload.length) padding.length)
    let framed := magic ++ [version] ++ toBeBytes len ++ payload ++ padding
    return .ok (← carry w framed)

def encode (w : PtrWidth) (payload : List UInt8) : Exec (Except Error Text) :=
  encodeWithPadding w payload []

def embed (w : PtrWidth) (text : Text) (payload : List UInt8) : Exec (Except Error Text) := do
  match ← encode w payload with
  | .error e => return .error e
  | .ok carrier => return .ok (text ++ carrier)

def targetLength (w : PtrWidth) (manifestLen : ℕ) : Exec ℕ := do
  let framed ← mul w (← add w headerLen manifestLen) 4
  add w (← add w 3 framed) 6

def padding (w : PtrWidth) (gap : ℕ) : Exec (Except Error (List UInt8)) := do
  if gap = 0 then return .ok []
  let b := gap % 3
  if gap < (← mul w 4 b) then return .error (.unrepresentableGap gap)
  let a := (← sub gap (← mul w 4 b)) / 3
  return .ok (List.replicate a 0x00 ++ List.replicate b 0x10)

def encodePadded (w : PtrWidth) (payload : List UInt8) : Exec (Except Error Text) := do
  let target ← targetLength w payload.length
  match ← encode w payload with
  | .error e => return .error e
  | .ok base =>
    match checkedSub target (strLen base) with
    | none => return .error (.unrepresentableGap 0)
    | some gap =>
      match ← padding w gap with
      | .error e => return .error e
      | .ok pad => encodeWithPadding w payload pad

def frameBounds (w : PtrWidth) (run : List UInt8) : Exec (Option (ℕ × Bool)) := do
  if run.length < headerLen then return none
  if (← slice run 0 magic.length) ≠ magic then return none
  let declared :=
    (fromBeBytes (← index run 9) (← index run 10) (← index run 11) (← index run 12)).toNat
  match checkedAdd w headerLen declared with
  | none => return none
  | some bodyEnd => return some (bodyEnd, decide (bodyEnd ≤ run.length))

def decodeFrame (w : PtrWidth) (run : List UInt8) (start length : ℕ) :
    Exec (Option Wrapper) := do
  match ← frameBounds w run with
  | none => return none
  | some (bodyEnd, declaredOk) =>
    if (← index run 8) ≠ version || !declaredOk then return none
    return some ⟨← slice run headerLen bodyEnd, version, start, length⟩

section Scan
variable {σ : Type} (w : PtrWidth) (text : Text) (visit : σ → List UInt8 → ℕ → ℕ → Exec σ)

/-- The loop of `scan`, for at most `fuel` turns from offset `pos`. What the closure
`visit` captures is the state `s`. -/
def scanLoop : ℕ → ℕ → σ → Exec σ
  | 0, _, _ => .error .fuel
  | fuel + 1, pos, s => do
    match strFind (← strFrom text pos) marker with
    | none => return s
    | some rel =>
      let start ← add w pos rel
      let runStart ← add w start marker.utf8Size
      let (run, consumed) := decodeRun (← strFrom text runStart)
      let stop ← add w runStart consumed
      let s ← visit s run start (← sub stop start)
      scanLoop fuel (max stop runStart) s

/-- Visit every marker-prefixed selector run as `(run, start, length)`. Each turn
consumes a marker, so the characters of the text bound the turns. -/
def scan (s : σ) : Exec σ := scanLoop w text visit (text.length + 1) 0 s

end Scan

def locateAll (w : PtrWidth) (text : Text) : Exec (List Wrapper) :=
  scan w text (fun found run start length => do
    match ← decodeFrame w run start length with
    | some x => return found ++ [x]
    | none => return found) []

/-- `run.len() >= MAGIC.len() && run[..MAGIC.len()] == MAGIC` -/
def bearsMagic (run : List UInt8) : Exec Bool := do
  if run.length < magic.length then return false
  return decide ((← slice run 0 magic.length) = magic)

def hasCandidate (w : PtrWidth) (text : Text) : Exec Bool :=
  scan w text (fun seen run _ _ => do
    if ← bearsMagic run then return true else return seen) false

def hasCorruptedCandidate (w : PtrWidth) (text : Text) : Exec Bool :=
  scan w text (fun corrupted run start length => do
    if ← bearsMagic run then
      if (← decodeFrame w run start length).isNone then return true else return corrupted
    else return corrupted) false

def extract (w : PtrWidth) (text : Text) : Exec (Except Error Wrapper) := do
  if ← hasCorruptedCandidate w text then return .error .corruptedWrapper
  match ← locateAll w text with
  | [x] => return .ok x
  | [] => return .error .notFound
  | _ => return .error .multipleWrappers

def strip (text : Text) (range : ByteRange) : Exec (Except Error Text) := do
  if range.stop > strLen text ∨ range.start > range.stop then
    return .error .malformedExclusion
  if !isCharBoundary text range.start || !isCharBoundary text range.stop then
    return .error .malformedExclusion
  let _capacity ← sub (strLen text) (← sub range.stop range.start)
  return .ok ((← strTo text range.start) ++ (← strFrom text range.stop))

def okOr {α : Type} (x : Option α) (e : Error) : Except Error α :=
  match x with
  | some a => .ok a
  | none => .error e

def decodeExact (run : Text) : Except Error (List UInt8) :=
  run.mapM fun c => okOr (vsToByte c) .corruptedWrapper

end UnstructuredText
