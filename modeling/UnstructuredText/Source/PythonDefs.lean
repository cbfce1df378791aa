import UnstructuredText.Source.MessageDefs

/-! The Python binding. Text is `str`, a payload `bytes`; a missing wrapper is `None`, and any
other error is raised as a `ValueError`. The bundled hasher and normalizer come from other
packages, so they are parameters here. -/

namespace UnstructuredText.Python
open Machine

/-- `PyValueError` -/
structure PyErr where
  message : Text
  deriving DecidableEq, Repr

structure WrapperDict where
  payload : List UInt8
  version : UInt8
  start : ℕ
  length : ℕ
  deriving DecidableEq, Repr

structure DataHashDict where
  alg : String
  hash : List UInt8
  exclusions : List (ℕ × ℕ)
  deriving DecidableEq, Repr

def mapErr (e : Error) : PyErr := ⟨e.message⟩

def algorithm (alg : String) : Except PyErr Algorithm := (Algorithm.fromId alg).mapError mapErr

section Wrapper
variable (w : PtrWidth)

def embed (text : Text) (payload : List UInt8) : Exec (Except PyErr Text) := do
  return (← UnstructuredText.embed w text payload).mapError mapErr

def encode (payload : List UInt8) : Exec (Except PyErr Text) := do
  return (← UnstructuredText.encode w payload).mapError mapErr

def encodePadded (payload : List UInt8) : Exec (Except PyErr Text) := do
  return (← UnstructuredText.encodePadded w payload).mapError mapErr

def targetLength (manifestLen : ℕ) : Exec ℕ := UnstructuredText.targetLength w manifestLen

def extract (text : Text) : Exec (Except PyErr (Option WrapperDict)) := do
  match ← UnstructuredText.extract w text with
  | .ok x => return .ok (some ⟨x.payload, x.version, x.start, x.length⟩)
  | .error .notFound => return .ok none
  | .error e => return .error (mapErr e)

def locateAll (text : Text) : Exec (List (ℕ × ℕ)) := do
  return (← UnstructuredText.locateAll w text).map fun x => (x.start, x.length)

def strip (text : Text) (start length : ℕ) : Exec (Except PyErr Text) := do
  return (← UnstructuredText.strip text ⟨start, ← add w start length⟩).mapError mapErr

end Wrapper

section Binding
variable (w : PtrWidth) (hasher : Hasher) (normalizer : Normalizer)

/-- `alg = "sha256"` in the signatures -/
def defaultAlg : String := "sha256"

def computeDataHash (text : Text) (alg : Option String) : Exec (Except PyErr DataHashDict) := do
  match algorithm (alg.getD defaultAlg) with
  | .error e => return .error e
  | .ok a =>
    match ← UnstructuredText.computeDataHash w text a hasher normalizer with
    | .error e => return .error (mapErr e)
    | .ok dh => return .ok ⟨dh.alg, dh.hash, dh.exclusions.map fun e => (e.start, e.length)⟩

def verifyDataHash (text : Text) (hash : List UInt8) (exclusions : List (ℕ × ℕ))
    (alg : Option String) : Exec (Except PyErr Unit) := do
  match algorithm (alg.getD defaultAlg) with
  | .error e => return .error e
  | .ok a =>
    let dh : DataHash :=
      ⟨exclusions.map fun (start, length) => ⟨start, length⟩, a.id, hash, [], none⟩
    return (← UnstructuredText.verifyDataHash w text dh hasher normalizer).mapError mapErr

end Binding

end UnstructuredText.Python
