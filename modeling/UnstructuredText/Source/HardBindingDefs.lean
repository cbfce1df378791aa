import UnstructuredText.Source.WrapperDefs

/-! The hard binding. The excluded ranges are byte offsets into the text as stored: a
validator removes them first, normalizes what remains, and hashes its UTF-8 form. -/

namespace UnstructuredText
open Machine

structure Exclusion where
  start : ℕ
  length : ℕ
  deriving DecidableEq, Repr

/-- `Exclusion::end` -/
def Exclusion.stop (w : PtrWidth) (ex : Exclusion) : Option ℕ := checkedAdd w ex.start ex.length

def Wrapper.exclusion (x : Wrapper) : Exclusion := ⟨x.start, x.length⟩

inductive Algorithm
  | sha256
  | sha384
  | sha512
  deriving DecidableEq, Repr

namespace Algorithm

def id : Algorithm → String
  | sha256 => "sha256"
  | sha384 => "sha384"
  | sha512 => "sha512"

def fromId (id : String) : Except Error Algorithm :=
  if id = "sha256" then .ok sha256
  else if id = "sha384" then .ok sha384
  else if id = "sha512" then .ok sha512
  else .error (.unsupportedAlgorithm id)

end Algorithm

/-- Supplied by the caller, as the normalizer is: any function may stand here. -/
structure Hasher where
  digest : Algorithm → List UInt8 → List UInt8

structure Normalizer where
  nfc : Text → Text

structure DataHash where
  exclusions : List Exclusion
  alg : String
  hash : List UInt8
  pad : List UInt8
  name : Option String
  deriving DecidableEq, Repr

def manifestExclusion (w : PtrWidth) (text : Text) : Exec (Except Error Exclusion) := do
  match ← extract w text with
  | .error e => return .error e
  | .ok x => return .ok x.exclusion

/-- The loop of `apply_exclusions` over the exclusions still to come. -/
def applyExclusionsLoop (w : PtrWidth) (text : Text) :
    ℕ → Text → List Exclusion → Exec (Except Error Text)
  | cursor, out, [] => do return .ok (out ++ (← strFrom text cursor))
  | cursor, out, ex :: exclusions => do
    match ex.stop w with
    | none => return .error .malformedExclusion
    | some stop =>
      if ex.start < cursor ∨ stop > strLen text then return .error .malformedExclusion
      if !isCharBoundary text ex.start || !isCharBoundary text stop then
        return .error .malformedExclusion
      let kept ← strSlice text cursor ex.start
      applyExclusionsLoop w text stop (out ++ kept) exclusions

def applyExclusions (w : PtrWidth) (text : Text) (exclusions : List Exclusion) :
    Exec (Except Error Text) := applyExclusionsLoop w text 0 [] exclusions

def hashedBytes (w : PtrWidth) (text : Text) (exclusions : List Exclusion)
    (normalizer : Normalizer) : Exec (Except Error (List UInt8)) := do
  match ← applyExclusions w text exclusions with
  | .error e => return .error e
  | .ok stripped => return .ok (strBytes (normalizer.nfc stripped))

def computeDataHash (w : PtrWidth) (text : Text) (alg : Algorithm) (hasher : Hasher)
    (normalizer : Normalizer) : Exec (Except Error DataHash) := do
  match ← manifestExclusion w text with
  | .error e => return .error e
  | .ok exclusion =>
    match ← hashedBytes w text [exclusion] normalizer with
    | .error e => return .error e
    | .ok covered =>
      return .ok ⟨[exclusion], alg.id, hasher.digest alg covered, [], none⟩

def verifyDataHash (w : PtrWidth) (text : Text) (dataHash : DataHash) (hasher : Hasher)
    (normalizer : Normalizer) : Exec (Except Error Unit) := do
  match Algorithm.fromId dataHash.alg with
  | .error e => return .error e
  | .ok alg =>
    if ← hasCorruptedCandidate w text then return .error .corruptedWrapper
    let matching :=
      ((← locateAll w text).filter fun x => dataHash.exclusions.contains x.exclusion).length
    if matching > 1 then return .error .multipleWrappers
    if matching = 0 ∨ dataHash.exclusions.length ≠ 1 then return .error .malformedExclusion
    match ← hashedBytes w text dataHash.exclusions normalizer with
    | .error e => return .error e
    | .ok covered =>
      if hasher.digest alg covered = dataHash.hash then return .ok ()
      else return .error .hashMismatch

end UnstructuredText
