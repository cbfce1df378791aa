/-! Errors from locating a wrapper or validating a hard binding, and the status codes
they map to. -/

namespace UnstructuredText

inductive Error
  | notFound
  | corruptedWrapper
  | multipleWrappers
  | payloadTooLarge (n : Nat)
  | unrepresentableGap (n : Nat)
  | malformedExclusion
  | hashMismatch
  | unsupportedAlgorithm (id : String)
  deriving DecidableEq, Repr

namespace Error

def code : Error → Option String
  | corruptedWrapper => some "manifest.text.corruptedWrapper"
  | multipleWrappers => some "manifest.text.multipleWrappers"
  | notFound => none
  | payloadTooLarge _ => none
  | unrepresentableGap _ => none
  | malformedExclusion => some "assertion.dataHash.malformed"
  | hashMismatch => some "assertion.dataHash.mismatch"
  | unsupportedAlgorithm _ => some "algorithm.unsupported"

def isNoManifestLocated : Error → Bool
  | notFound => true
  | _ => false

end Error
end UnstructuredText
