import CellStore.Cell.Record

/-! Where the parts of a record stand in a block. They are found and checked once; the cell itself
is cut out of the block when it is asked for. -/

namespace CellStore

structure CellLayout where
  keyStart : Nat
  keyLength : Nat
  rowLength : Nat
  familyLength : Nat
  valueLength : Nat
  tags : Option (Nat × Nat)
  timestamp : UInt64
  kind : CellKind
  sequenceId : UInt64
  length : Nat
  deriving DecidableEq

namespace CellLayout

def bytesAt (data : Bytes) (what : String) (start length : Nat) : Decoded Bytes :=
  match data.slice? start length with
  | some bytes => .ok bytes
  | none => .error (.truncated what (start + length) data.length)

def numberAt (data : Bytes) (what : String) (start width : Nat) : Decoded Nat :=
  return Bytes.toNat (← bytesAt data what start width)

def checkKey (key : Bytes) : Decoded (Nat × Nat × UInt64 × CellKind) := do
  if key.length < Key.minLength then
    throw (.flawed (.shortKey key.length))
  let rowLength := Bytes.toNat (key.take 2)
  match key[2 + rowLength]? with
  | none => throw (.flawed (.rowPastKey rowLength))
  | some familyLength =>
    let familyLength := familyLength.toNat
    if 2 + rowLength + 1 + familyLength + Key.suffixLength > key.length then
      throw (.flawed (.columnPastKey rowLength familyLength key.length))
    let timestamp := Bytes.toNat ((key.drop (key.length - Key.suffixLength)).take 8)
    let kind ← CellKind.ofCode (key.getLastD 0)
    return (rowLength, familyLength, UInt64.ofNat timestamp, kind)

def findTags (format : RecordFormat) (data : Bytes) (start : Nat) :
    Decoded (Option (Nat × Nat) × Nat) :=
  if format.tags then do
    let length ← numberAt data "cell tags length" start 2
    let _ ← bytesAt data "cell tags" (start + 2) length
    return (some (start + 2, length), start + 2 + length)
  else return (none, start)

def findStamp (format : RecordFormat) (data : Bytes) (start : Nat) : Decoded (UInt64 × Nat) :=
  if format.mvcc then do
    let (stamp, after) ← VarLong.read (.startingAt data start)
    if stamp < 0 then
      throw (.flawed (.negativeStamp stamp.toInt))
    return (stamp.toUInt64, after.offset)
  else return (0, start)

def parse (format : RecordFormat) (data : Bytes) (offset : Nat) : Decoded CellLayout := do
  let keyLength ← numberAt data "cell key length" offset 4
  let valueLength ← numberAt data "cell value length" (offset + 4) 4
  if 0x8000_0000 ≤ keyLength ∨ 0x8000_0000 ≤ valueLength then
    throw (.flawed (.negativeCellLength offset))
  let keyStart := offset + 8
  let key ← bytesAt data "cell key" keyStart keyLength
  let _ ← bytesAt data "cell value" (keyStart + keyLength) valueLength
  let (rowLength, familyLength, timestamp, kind) ← checkKey key
  let (tags, stop) ← findTags format data (keyStart + keyLength + valueLength)
  let (sequenceId, stop) ← findStamp format data stop
  return ⟨keyStart, keyLength, rowLength, familyLength, valueLength, tags, timestamp, kind,
    sequenceId, stop - offset⟩

/-- The qualifier of a key whose row and family end at `start`. There is none when the timestamp
and the kind start before. -/
def qualifier? (key : Bytes) (start : Nat) : Option Bytes :=
  if start + Key.suffixLength ≤ key.length then
    key.slice? start (key.length - Key.suffixLength - start)
  else none

def tags? (data : Bytes) : Option (Nat × Nat) → Option (Option Bytes)
  | none => some none
  | some (start, length) => (data.slice? start length).map some

/-- The key and the cell of a layout, unless any part of it reaches out of the data. -/
def view? (layout : CellLayout) (data : Bytes) : Option (Bytes × Cell) := do
  let key ← data.slice? layout.keyStart layout.keyLength
  let familyStart := 2 + layout.rowLength + 1
  let row ← key.slice? 2 layout.rowLength
  let family ← key.slice? familyStart layout.familyLength
  let qualifier ← qualifier? key (familyStart + layout.familyLength)
  let value ← data.slice? (layout.keyStart + layout.keyLength) layout.valueLength
  let tags ← tags? data layout.tags
  return (key, ⟨row, family, qualifier, layout.timestamp, layout.kind, value, tags,
    layout.sequenceId⟩)

end CellLayout

end CellStore
