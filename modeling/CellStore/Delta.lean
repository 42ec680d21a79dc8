import CellStore.Cell.Record
import CellStore.Integer.Septets

/-! FAST_DIFF blocks, whose records leave out what they share with the record before:
`flags(1) [keyLength] [valueLength] shared key-rest timestamp-rest [kind(1)] [value]
[tagsLength tags] [memstore timestamp]`. Decoding gives the plain records back. -/

namespace CellStore.Delta

structure Flags where
  /-- How many bytes of the timestamp are those of the record before. -/
  timestamp : Nat
  sameKeyLength : Bool
  sameValueLength : Bool
  sameKind : Bool
  sameValue : Bool

def Flags.ofByte (b : UInt8) : Flags :=
  ⟨(b &&& 7).toNat, b &&& 8 ≠ 0, b &&& 16 ≠ 0, b &&& 32 ≠ 0, b &&& 64 ≠ 0⟩

def fail (flaw : DeltaFlaw) : Decoded α := .error (.flawed (.delta flaw))

def rowLength (key : Bytes) : Nat := Bytes.toNat (key.take 2)

def familyLength (key : Bytes) : Nat := ((key.drop (2 + rowLength key)).headD 0).toNat

def timestampBytes (key : Bytes) : Bytes := (key.drop (key.length - Key.suffixLength)).take 8

def firstKey (length : Nat) (input : Input) : Decoded (Bytes × Input) := do
  let (key, input) ← input.take "FAST_DIFF key" length
  if key.length < Key.minLength then
    fail (.shortKey key.length)
  if key.length ≤ 2 + rowLength key then
    fail (.rowPastKey (rowLength key))
  if key.length < 2 + rowLength key + 1 + familyLength key + Key.suffixLength then
    fail .columnPastKey
  return (key, input)

/-- A new row after `shared` bytes of `previous`, and the family of `previous`. -/
def newRow (previous : Bytes) (shared : Nat) (input : Input) : Decoded (Bytes × Input) := do
  let (length, input) ← input.take "FAST_DIFF row length" (2 - shared)
  let start := previous.take shared ++ length
  let (row, input) ← input.take "FAST_DIFF row" (2 + rowLength start - start.length)
  let family := (previous.drop (2 + rowLength previous)).take (1 + familyLength previous)
  return (start ++ row ++ family, input)

/-- The start of a key that shares `shared` bytes with `previous`: a new row and its family, or
what is shared of the row, the family and the qualifier. -/
def readStart (previous : Bytes) (shared : Nat) (input : Input) : Decoded (Bytes × Input) :=
  if shared < 2 + rowLength previous then newRow previous shared input
  else .ok (previous.take shared, input)

def readKind (same : Bool) (previous : UInt8) (input : Input) : Decoded (Bytes × Input) :=
  if same then .ok ([previous], input) else input.take "FAST_DIFF type" 1

def laterKey (previous : Bytes) (flags : Flags) (length shared : Nat) (input : Input) :
    Decoded (Bytes × Input) := do
  if previous.length < shared ∨ length < shared then
    fail (.sharedPastKey shared previous.length length)
  let (start, input) ← readStart previous shared input
  if length < start.length + Key.suffixLength then
    fail (.shortLength length start.length)
  let (qualifier, input) ← input.take "FAST_DIFF qualifier"
    (length - (start.length + Key.suffixLength))
  let (timestamp, input) ← input.take "FAST_DIFF timestamp" (8 - flags.timestamp)
  let timestamp := (timestampBytes previous).take flags.timestamp ++ timestamp
  let (kind, input) ← readKind flags.sameKind (previous.getLastD 0) input
  let key := start ++ qualifier ++ timestamp ++ kind
  if key.length < 2 + rowLength key + 1 + familyLength key + Key.suffixLength then
    fail .familyPastKey
  return (key, input)

def readKey (previous : Option Record) (flags : Flags) (length shared : Nat) (input : Input) :
    Decoded (Bytes × Input) :=
  match previous with
  | none => firstKey length input
  | some previous => laterKey previous.key flags length shared input

def readValue (repeated : Option Bytes) (length : Nat) (input : Input) : Decoded (Bytes × Input) :=
  match repeated with
  | none => input.take "FAST_DIFF value" length
  | some value =>
    if value.length ≠ length then fail (.unlikeValueLengths value.length length)
    else .ok (value, input)

def readTags (format : RecordFormat) (input : Input) : Decoded (Option Bytes × Input) :=
  if format.tags then do
    let (length, input) ← Septets.read input
    if 65535 < length then
      fail (.longTags length)
    let (tags, input) ← input.take "FAST_DIFF tags" length
    return (some tags, input)
  else .ok (none, input)

def readStamp (format : RecordFormat) (input : Input) : Decoded (Option Bytes × Input) :=
  if format.mvcc then
    match input.rest with
    | [] => .error (.truncated "FAST_DIFF memstore timestamp" (input.offset + 1) input.size)
    | first :: _ => do
      let (_, after) ← VarLong.read input
      return (some (input.rest.take (VarLong.size first)), after)
  else .ok (none, input)

def readLength (same : Bool) (previous : Nat) (input : Input) : Decoded (Nat × Input) :=
  if same then .ok (previous, input) else Septets.read input

def readRecord (format : RecordFormat) (previous : Option Record) (flags : Flags)
    (input : Input) : Decoded (Record × Input) := do
  if previous.isNone ∧ (flags.sameKeyLength ∨ flags.sameValueLength) then
    fail .noPredecessor
  let (keyLength, input) ←
    readLength flags.sameKeyLength (previous.elim 0 (·.key.length)) input
  let (valueLength, input) ←
    readLength flags.sameValueLength (previous.elim 0 (·.value.length)) input
  let (shared, input) ← Septets.read input
  let (key, input) ← readKey previous flags keyLength shared input
  let repeated := if flags.sameValue then previous.map (·.value) else none
  let (value, input) ← readValue repeated valueLength input
  let (tags, input) ← readTags format input
  let (stamp, input) ← readStamp format input
  return (⟨key, value, tags, stamp⟩, input)

/-- Reads records to the end of the input, after those in `found`, the last one first. Each record
takes a byte at least. -/
def readRecords (format : RecordFormat) :
    (fuel : Nat) → (found : List Record) → Input → Decoded (List Record)
  | 0, found, _ => .ok found.reverse
  | fuel + 1, found, input =>
    match input.rest with
    | [] => .ok found.reverse
    | flags :: _ =>
      match readRecord format found.head? (Flags.ofByte flags) (input.skip 1) with
      | .ok (record, input) => readRecords format fuel (record :: found) input
      | .error e => .error e

def records (format : RecordFormat) (bytes : Bytes) : Decoded (List Record) :=
  readRecords format bytes.length [] (Input.ofBytes bytes)

def decode (format : RecordFormat) (bytes : Bytes) : Decoded Bytes :=
  return (← records format bytes).flatMap Record.encode

end CellStore.Delta
