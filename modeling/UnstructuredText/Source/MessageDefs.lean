import UnstructuredText.Source.JsonDefs

/-! The texts of errors. Each error composes into a sentence, and the bindings for other
languages put the status code behind it in brackets. -/

namespace UnstructuredText

/-- `impl Display for Error` -/
def Error.fmt : Error → Text
  | notFound => "no C2PA text manifest wrapper found".toList
  | corruptedWrapper => "wrapper candidate detected but it did not fully decode".toList
  | multipleWrappers => "more than one valid wrapper found".toList
  | payloadTooLarge n =>
    "payload of ".toList ++ display n ++ " bytes exceeds the u32 manifestLength field".toList
  | unrepresentableGap n =>
    "a padding gap of ".toList ++ display n ++ " bytes is not expressible as 3a + 4b".toList
  | malformedExclusion => "data hash exclusion range is malformed".toList
  | hashMismatch => "data hash does not match the asset content".toList
  | unsupportedAlgorithm a => "unsupported hash algorithm: ".toList ++ a.toList

/-- `format!("{e} [{code}]")` where there is a code. Both bindings build this text. -/
def Error.message (e : Error) : Text :=
  match e.code with
  | some code => e.fmt ++ " [".toList ++ code.toList ++ "]".toList
  | none => e.fmt

end UnstructuredText
