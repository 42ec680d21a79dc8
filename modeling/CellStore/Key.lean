import CellStore.Bytes

/-! Serialized cell keys and their order.

A full key is `rowLength(2) row familyLength(1) family qualifier timestamp(8) kind(1)`. A key that
stops after its row or its family is the start of full keys, and lies before all of them. -/

namespace CellStore

/-- The parts of a key; a part is missing when the key stops before it. -/
structure KeyParts where
  row : Bytes
  family : Option Bytes
  qualifier : Option Bytes
  timestamp : Option UInt64
  kind : Option UInt8
  deriving DecidableEq

namespace Key

def suffixLength : Nat := 9

def minLength : Nat := 12

/-- The newest timestamp there is. -/
def latest : UInt64 := 0x7FFFFFFFFFFFFFFF

/-- A kind before those of all cells. -/
def kindBefore : UInt8 := 255

/-- A kind after those of all cells; without a column it marks the end of a row. -/
def kindAfter : UInt8 := 0

/-- Splits what follows the family. Bytes too short for a timestamp and a kind are qualifier. -/
def splitColumn (row family rest : Bytes) : KeyParts :=
  if rest.length < suffixLength then ⟨row, some family, some rest, none, none⟩
  else
    let cut := rest.length - suffixLength
    let timestamp := UInt64.ofNat (Bytes.toNat ((rest.drop cut).take 8))
    ⟨row, some family, some (rest.take cut), some timestamp, (rest.drop (cut + 8)).head?⟩

/-- Splits any byte string: a length that runs past its end is cut off there. -/
def split : Bytes → KeyParts
  | high :: low :: rest =>
    let rowLength := Bytes.toNat [high, low]
    let row := rest.take rowLength
    match rest.drop rowLength with
    | [] => ⟨row, none, none, none, none⟩
    | familyLength :: rest =>
      let family := rest.take familyLength.toNat
      match rest.drop familyLength.toNat with
      | [] => ⟨row, some family, none, none, none⟩
      | rest => splitColumn row family rest
  | _ => ⟨[], none, none, none, none⟩

end Key

namespace KeyParts

def isRowEnd (parts : KeyParts) : Bool :=
  parts.family.getD [] = [] && parts.qualifier.getD [] = []
    && parts.kind = some Key.kindAfter

/-- Descending, where a missing value comes first. -/
def compareDescending [Ord α] : Option α → Option α → Ordering
  | none, none => .eq
  | none, some _ => .lt
  | some _, none => .gt
  | some a, some b => compare b a

/-- Row, family and qualifier ascending, then timestamp and kind descending, and the end of a row
after everything else in it. -/
def order (a b : KeyParts) : Ordering :=
  (compare a.row b.row).then <|
    match a.isRowEnd, b.isRowEnd with
    | true, false => .gt
    | false, true => .lt
    | _, _ =>
      ((compare a.family b.family).then (compare a.qualifier b.qualifier)).then <|
        (compareDescending a.timestamp b.timestamp).then (compareDescending a.kind b.kind)

end KeyParts

namespace Key

def order (a b : Bytes) : Ordering := (split a).order (split b)

/-- A row after its length, cut to the longest row a key can hold. -/
def ofRow (row : Bytes) : Bytes :=
  let row := row.take 65535
  Bytes.ofNat 2 row.length ++ row

def ofFamily (row family : Bytes) : Bytes :=
  let family := family.take 255
  ofRow row ++ UInt8.ofNat family.length :: family

def encode (row family qualifier : Bytes) (timestamp : UInt64) (kind : UInt8) : Bytes :=
  ofFamily row family ++ qualifier ++ Bytes.ofNat 8 timestamp.toNat ++ [kind]

def ofColumn (row family qualifier : Bytes) : Bytes :=
  encode row family qualifier latest kindBefore

def rowEnd (row : Bytes) : Bytes := encode row [] [] 0 kindAfter

end Key

inductive SeekTarget
  /-- Before all cells of a row. -/
  | row (row : Bytes)
  /-- Before all cells of a row in one family. -/
  | family (row family : Bytes)
  /-- Before all versions of a column. -/
  | column (row family qualifier : Bytes)
  /-- A serialized key, or the start of one. -/
  | key (key : Bytes)

def SeekTarget.toKey : SeekTarget → Bytes
  | .row r => Key.ofRow r
  | .family r f => Key.ofFamily r f
  | .column r f q => Key.ofColumn r f q
  | .key k => k

end CellStore
