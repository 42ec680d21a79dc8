import CellStore.Cell
import CellStore.Integer.VarLong

/-! Cells as they are stored in data blocks:
`keyLength(4) valueLength(4) key value [tagsLength(2) tags] [memstore timestamp]`. -/

namespace CellStore

structure RecordFormat where
  tags : Bool
  mvcc : Bool
  deriving DecidableEq

structure Record where
  key : Bytes
  value : Bytes
  tags : Option Bytes
  stamp : Option Bytes
  deriving DecidableEq

namespace Record

def encodeTags : Option Bytes → Bytes
  | some tags => Bytes.ofNat 2 tags.length ++ tags
  | none => []

def encode (record : Record) : Bytes :=
  Bytes.ofNat 4 record.key.length ++ Bytes.ofNat 4 record.value.length ++ record.key
    ++ record.value ++ encodeTags record.tags ++ record.stamp.getD []

end Record

structure StoredCell where
  record : Record
  cell : Cell
  deriving DecidableEq

namespace StoredCell

def key (stored : StoredCell) : Bytes := stored.record.key

structure Column where
  row : Bytes
  family : Bytes
  qualifier : Bytes
  timestamp : UInt64
  kind : CellKind

def column (key : Bytes) : Decoded Column := do
  if key.length < Key.minLength then
    throw (.flawed (.shortKey key.length))
  let rowLength := Bytes.toNat (key.take 2)
  let row := (key.drop 2).take rowLength
  match key.drop (2 + rowLength) with
  | [] => throw (.flawed (.rowPastKey rowLength))
  | familyLength :: rest =>
    let familyLength := familyLength.toNat
    let used := 2 + rowLength + 1 + familyLength
    if used + Key.suffixLength > key.length then
      throw (.flawed (.columnPastKey rowLength familyLength key.length))
    let cut := key.length - Key.suffixLength
    let timestamp := UInt64.ofNat (Bytes.toNat ((key.drop cut).take 8))
    let kind ← CellKind.ofCode (key.getLastD 0)
    let qualifier := (rest.drop familyLength).take (cut - used)
    return ⟨row, rest.take familyLength, qualifier, timestamp, kind⟩

def parseTags (format : RecordFormat) (input : Input) : Decoded (Option Bytes × Input) :=
  if format.tags then do
    let (length, input) ← input.number "cell tags length" 2
    let (tags, input) ← input.take "cell tags" length
    return (some tags, input)
  else return (none, input)

def parseStamp (format : RecordFormat) (input : Input) :
    Decoded (Option Bytes × UInt64 × Input) :=
  if format.mvcc then do
    let (stamp, after) ← VarLong.read input
    if stamp < 0 then
      throw (.flawed (.negativeStamp stamp.toInt))
    return (some (input.rest.take (after.offset - input.offset)), stamp.toUInt64, after)
  else return (none, 0, input)

def parse (format : RecordFormat) (input : Input) : Decoded (StoredCell × Input) := do
  let start := input.offset
  let (keyLength, input) ← input.number "cell key length" 4
  let (valueLength, input) ← input.number "cell value length" 4
  if 0x8000_0000 ≤ keyLength ∨ 0x8000_0000 ≤ valueLength then
    throw (.flawed (.negativeCellLength start))
  let (key, input) ← input.take "cell key" keyLength
  let (value, input) ← input.take "cell value" valueLength
  let column ← column key
  let (tags, input) ← parseTags format input
  let (stamp, sequenceId, input) ← parseStamp format input
  let cell : Cell :=
    ⟨column.row, column.family, column.qualifier, column.timestamp, column.kind, value, tags,
      sequenceId⟩
  return (⟨⟨key, value, tags, stamp⟩, cell⟩, input)

end StoredCell

end CellStore
