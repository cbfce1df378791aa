import UnstructuredText.Source.HardBindingDefs

/-! The version 2 frame: the version 1 layout with `version = 2` and a truncated digest
of header and payload appended, so that a mangled carrier fails its checksum. -/

namespace UnstructuredText.V2
open Machine

def version : UInt8 := 2
def checksumLen : ℕ := 4

def framed (w : PtrWidth) (payload : List UInt8) (hasher : Hasher) :
    Exec (Except Error (List UInt8)) := do
  match u32TryFrom payload.length with
  | none => return .error (.payloadTooLarge payload.length)
  | some len =>
    reserve w (← add w (← add w headerLen payload.length) checksumLen)
    let v := magic ++ [version] ++ toBeBytes len ++ payload
    let sum := hasher.digest .sha256 v
    return .ok (v ++ (← slice sum 0 checksumLen))

def encode (w : PtrWidth) (payload : List UInt8) (hasher : Hasher) :
    Exec (Except Error Text) := do
  match ← framed w payload hasher with
  | .error e => return .error e
  | .ok v => return .ok (← carry w v)

def embed (w : PtrWidth) (text : Text) (payload : List UInt8) (hasher : Hasher) :
    Exec (Except Error Text) := do
  match ← encode w payload hasher with
  | .error e => return .error e
  | .ok carrier => return .ok (text ++ carrier)

def decode (w : PtrWidth) (run : List UInt8) (start length : ℕ) (hasher : Hasher) :
    Exec (Option Wrapper) := do
  match ← frameBounds w run with
  | none => return none
  | some (bodyEnd, _) =>
    if (← index run 8) ≠ version then return none
    if run.length < (← add w bodyEnd checksumLen) then return none
    let expected := hasher.digest .sha256 (← slice run 0 bodyEnd)
    let found ← slice run bodyEnd (← add w bodyEnd checksumLen)
    if found ≠ (← slice expected 0 checksumLen) then return none
    return some ⟨← slice run headerLen bodyEnd, version, start, length⟩

def locateAll (w : PtrWidth) (text : Text) (hasher : Hasher) : Exec (List Wrapper) :=
  scan w text (fun found run start length => do
    match ← decode w run start length hasher with
    | some x => return found ++ [x]
    | none => return found) []

def extract (w : PtrWidth) (text : Text) (hasher : Hasher) : Exec (Except Error Wrapper) := do
  match ← locateAll w text hasher with
  | [x] => return .ok x
  | [] =>
    if ← hasCandidate w text then return .error .corruptedWrapper
    else return .error .notFound
  | _ => return .error .multipleWrappers

def extractAny (w : PtrWidth) (text : Text) (hasher : Hasher) :
    Exec (Except Error Wrapper) := do
  match ← UnstructuredText.extract w text with
  | .ok x => return .ok x
  | .error v1 =>
    match ← extract w text hasher with
    | .ok x => return .ok x
    | .error .notFound => return .error v1
    | .error v2 => return .error v2

end UnstructuredText.V2
