import UnstructuredText.Source.HardBindingDefs

/-! The JSON form of a data hash, built by string formatting, and the Base64 form of its
bytes. -/

namespace UnstructuredText

def base64Table : List Char :=
  "ABCDEFGHIJKLMNOPQRSTUVWXYZabcdefghijklmnopqrstuvwxyz0123456789+/".toList

/-- `T[n as usize & 63] as char` -/
def base64Char (n : ℕ) : Char :=
  base64Table.get ⟨n &&& 63, Nat.lt_of_le_of_lt Nat.and_le_right (by decide)⟩

/-- `bytes.chunks(3)` -/
def chunks : List UInt8 → List (List UInt8)
  | [] => []
  | [a] => [[a]]
  | [a, b] => [[a, b]]
  | a :: b :: c :: bytes => [a, b, c] :: chunks bytes

def base64Chunk (chunk : List UInt8) : Text :=
  let b0 := chunk.getD 0 0
  let b1 := chunk.getD 1 0
  let b2 := chunk.getD 2 0
  let n := (b0.toNat <<< 16) ||| (b1.toNat <<< 8) ||| b2.toNat
  [base64Char (n >>> 18), base64Char (n >>> 12),
    if chunk.length > 1 then base64Char (n >>> 6) else '=',
    if chunk.length > 2 then base64Char n else '=']

/-- Standard Base64. The capacity the source asks for cannot overflow; that a 32-bit machine
refuses it for the longest vectors is left out. -/
def base64 (bytes : List UInt8) : Text := (chunks bytes).flatMap base64Chunk

def display (n : ℕ) : Text := Nat.toDigits 10 n

def DataHash.toJson (dataHash : DataHash) : Text :=
  let ranges := dataHash.exclusions.map fun e =>
    "\x7b\"start\":".toList ++ display e.start ++ ",\"length\":".toList ++ display e.length ++
      "\x7d".toList
  let json := "\x7b\"exclusions\":[".toList ++ [','].intercalate ranges ++ "],\"alg\":\"".toList ++
    dataHash.alg.toList ++ "\",\"hash\":\"".toList ++ base64 dataHash.hash ++
    "\",\"pad\":\"".toList ++ base64 dataHash.pad ++ "\"".toList
  let json := match dataHash.name with
    | some name => json ++ ",\"name\":\"".toList ++ name.toList ++ "\"".toList
    | none => json
  json ++ "\x7d".toList

end UnstructuredText
