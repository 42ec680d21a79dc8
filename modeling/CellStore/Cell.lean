import CellStore.Error
import CellStore.Key
import CellStore.Text.Utf8

namespace CellStore

inductive CellKind
  | put
  /-- Hides one version of a column. -/
  | delete
  /-- Hides the versions of a column up to its timestamp. -/
  | deleteColumn
  /-- Hides the cells of its row up to its timestamp. -/
  | deleteFamily
  deriving DecidableEq

namespace CellKind

def code : CellKind → UInt8
  | put => 4
  | delete => 8
  | deleteColumn => 12
  | deleteFamily => 14

def ofCode : UInt8 → Decoded CellKind
  | 4 => .ok put
  | 8 => .ok delete
  | 12 => .ok deleteColumn
  | 14 => .ok deleteFamily
  | code => .error (.flawed (.unknownCellKind code.toNat))

@[simp] theorem ofCode_code (kind : CellKind) : ofCode kind.code = .ok kind := by
  cases kind <;> rfl

def name : CellKind → String
  | put => "Put"
  | delete => "Delete"
  | deleteColumn => "DeleteColumn"
  | deleteFamily => "DeleteFamily"

def isTombstone (kind : CellKind) : Bool := kind ≠ put

end CellKind

structure Cell where
  row : Bytes
  family : Bytes
  qualifier : Bytes
  timestamp : UInt64
  kind : CellKind
  value : Bytes
  /-- Missing in files whose cells carry no tags. -/
  tags : Option Bytes
  /-- Memstore timestamp, 0 in files that do not record it. -/
  sequenceId : UInt64
  deriving DecidableEq

namespace Cell

def key (cell : Cell) : Bytes :=
  Key.encode cell.row cell.family cell.qualifier cell.timestamp cell.kind.code

/-- Row, family and qualifier ascending, then timestamp and kind descending. -/
def order (a b : Cell) : Ordering :=
  (compare a.row b.row).then <| (compare a.family b.family).then <|
    (compare a.qualifier b.qualifier).then <| (compare b.timestamp a.timestamp).then <|
      compare b.kind.code a.kind.code

def describe (cell : Cell) : String :=
  let row := Utf8.decodeLossy cell.row
  let family := Utf8.decodeLossy cell.family
  let qualifier := Utf8.decodeLossy cell.qualifier
  s!"{row}/{family}:{qualifier}/{cell.timestamp.toNat}/{cell.kind.name}"

end Cell

end CellStore
