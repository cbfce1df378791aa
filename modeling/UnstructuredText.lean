import UnstructuredText.Lib.Exec
import UnstructuredText.Lib.RunRemoval
import UnstructuredText.Source.ChecksumV2Defs
import UnstructuredText.Frame.Scan
import UnstructuredText.Frame.Grammar
import UnstructuredText.Frame.Extract
import UnstructuredText.Binding.Exclusions
import UnstructuredText.Binding.Removal
import UnstructuredText.Binding.Transfer
import UnstructuredText.Binding.Placeholder
import UnstructuredText.Binding.Accreted
import UnstructuredText.Checksum.Decode
import UnstructuredText.Checksum.ExtractAny
import UnstructuredText.Checksum.Corruption
import UnstructuredText.Checksum.Overflow
import UnstructuredText.Checksum.Grammar
import UnstructuredText.Frame.Truncation
import UnstructuredText.Binding.Strip
import UnstructuredText.Lib.Json
import UnstructuredText.Binding.Base64
import UnstructuredText.Binding.ToJson
import UnstructuredText.Lib.Tokens
import UnstructuredText.Lib.Docs
import UnstructuredText.Asset.Document
import UnstructuredText.Asset.Outcomes
import UnstructuredText.Lib.Editing
import UnstructuredText.Asset.History
import UnstructuredText.Asset.Cleaning
import UnstructuredText.Asset.Resigning
import UnstructuredText.Asset.Fates
import UnstructuredText.Binding.Signing
import UnstructuredText.Lib.Refine
import UnstructuredText.Port.Widths
import UnstructuredText.Source.MessageDefs
import UnstructuredText.Source.PythonDefs
import UnstructuredText.Source.WasmDefs
import UnstructuredText.Port.Bindings
import UnstructuredText.Port.Lifecycle
import UnstructuredText.Asset.Embedding
import UnstructuredText.Checksum.Damage
import UnstructuredText.Asset.Selections
import UnstructuredText.Asset.Equivalence
