import UnstructuredText.Source.MessageDefs

/-! The WebAssembly binding, built for 32-bit addresses only. Offsets leave as `u32`, the
ranges of a binding come back as two arrays, and a missing wrapper is `null`. A `usize` comes
in as `u32`. The published build is a release build, which checks no overflow: sums of such
numbers wrap. -/

namespace UnstructuredText.Wasm
open Machine

structure JsError where
  message : Text
  deriving DecidableEq, Repr

structure WrapperObject where
  payload : List UInt8
  version : UInt8
  start : UInt32
  length : UInt32
  deriving DecidableEq, Repr

structure RangeObject where
  start : UInt32
  length : UInt32
  deriving DecidableEq, Repr

structure DataHashObject where
  alg : String
  hash : List UInt8
  exclusions : List RangeObject
  deriving DecidableEq, Repr

def jsErr (e : Error) : JsError := ⟨e.message⟩

def algorithm (alg : String) : Except JsError Algorithm := (Algorithm.fromId alg).mapError jsErr

/-- `n as u32` -/
def asU32 (n : ℕ) : UInt32 := UInt32.ofNat n

def embed (text : Text) (payload : List UInt8) : Exec (Except JsError Text) := do
  return (← UnstructuredText.embed .w32 text payload).mapError jsErr

def encode (payload : List UInt8) : Exec (Except JsError Text) := do
  return (← UnstructuredText.encode .w32 payload).mapError jsErr

def encodePadded (payload : List UInt8) : Exec (Except JsError Text) := do
  return (← UnstructuredText.encodePadded .w32 payload).mapError jsErr

/-- The sums of `wrapper::target_length`, which wrap. -/
def targetLength (manifestLen : UInt32) : UInt32 :=
  3 + (UInt32.ofNat headerLen + manifestLen) * 4 + 6

def extract (text : Text) : Exec (Except JsError (Option WrapperObject)) := do
  match ← UnstructuredText.extract .w32 text with
  | .ok x => return .ok (some ⟨x.payload, x.version, asU32 x.start, asU32 x.length⟩)
  | .error .notFound => return .ok none
  | .error e => return .error (jsErr e)

def strip (text : Text) (start length : UInt32) : Exec (Except JsError Text) := do
  return (← UnstructuredText.strip text ⟨start.toNat, (start + length).toNat⟩).mapError jsErr

section Binding
variable (hasher : Hasher) (normalizer : Normalizer)

def computeDataHash (text : Text) (alg : String) : Exec (Except JsError DataHashObject) := do
  match algorithm alg with
  | .error e => return .error e
  | .ok a =>
    match ← UnstructuredText.computeDataHash .w32 text a hasher normalizer with
    | .error e => return .error (jsErr e)
    | .ok dh =>
      return .ok ⟨dh.alg, dh.hash, dh.exclusions.map fun e => ⟨asU32 e.start, asU32 e.length⟩⟩

def lengthsDiffer : JsError :=
  ⟨"exclusion_starts and exclusion_lengths must be the same length".toList⟩

def verifyDataHash (text : Text) (hash : List UInt8) (starts lengths : List UInt32)
    (alg : String) : Exec (Except JsError Unit) := do
  if starts.length ≠ lengths.length then return .error lengthsDiffer
  match algorithm alg with
  | .error e => return .error e
  | .ok a =>
    let dh : DataHash :=
      ⟨(starts.zip lengths).map fun (start, length) => ⟨start.toNat, length.toNat⟩, a.id, hash, [],
        none⟩
    return (← UnstructuredText.verifyDataHash .w32 text dh hasher normalizer).mapError jsErr

end Binding

end UnstructuredText.Wasm
