import CellStore.Delta

/-! The encodings of data blocks: `encodingId(2) decodedSize(4)`, then the encoded records. -/

namespace CellStore.Encoding

def ofName (name : String) : Decoded Encoding :=
  match ofName? name with
  | some encoding => .ok encoding
  | none => .error (.unsupportedEncoding name)

def ofId (id : Nat) : Decoded Encoding :=
  match ofId? id with
  | some encoding => .ok encoding
  | none => .error (.unsupportedEncoding s!"id {id}")

def decodeBlock (encoding : Encoding) (format : RecordFormat) (data : Bytes) :
    Decoded Bytes := do
  let (id, input) ← (Input.ofBytes data).number "encoded block id" 2
  let found ← ofId id
  if found ≠ encoding then
    throw (.flawed (.otherEncoding found encoding))
  let (_, input) ← input.number "encoded block size" 4
  match encoding with
  | plain => return input.rest
  | fastDiff => Delta.decode format input.rest

end CellStore.Encoding
