import CellStore.Cell.Record

namespace CellStore

structure Mutation where
  row : Bytes
  family : Bytes
  qualifier : Bytes
  timestamp : UInt64
  kind : CellKind
  value : Bytes
  /-- Written only to files whose cells carry tags. -/
  tags : Bytes
  /-- Written only to files that record memstore timestamps. -/
  sequenceId : UInt64
  deriving DecidableEq

namespace Mutation

/-- A value, or a tombstone without one. The tombstone of a row has no column either. -/
def ofKind (kind : CellKind) (row family qualifier : Bytes) (timestamp : UInt64) (value : Bytes) :
    Mutation :=
  match kind with
  | .put => ⟨row, family, qualifier, timestamp, .put, value, [], 0⟩
  | .deleteFamily => ⟨row, family, [], timestamp, .deleteFamily, [], [], 0⟩
  | kind => ⟨row, family, qualifier, timestamp, kind, [], [], 0⟩

/-- The serialized key. The lengths of the row and the family wrap around. -/
def key (m : Mutation) : Bytes :=
  Bytes.ofNat 2 m.row.length ++ m.row ++ Bytes.ofNat 1 m.family.length ++ m.family
    ++ m.qualifier ++ Bytes.ofNat 8 m.timestamp.toNat ++ [m.kind.code]

def record (format : RecordFormat) (m : Mutation) : Record where
  key := m.key
  value := m.value
  tags := if format.tags then some m.tags else none
  stamp := if format.mvcc then some (VarLong.write m.sequenceId.toInt64) else none

def cell (format : RecordFormat) (m : Mutation) : Cell where
  row := m.row
  family := m.family
  qualifier := m.qualifier
  timestamp := m.timestamp
  kind := m.kind
  value := m.value
  tags := if format.tags then some m.tags else none
  sequenceId := if format.mvcc then m.sequenceId else 0

def order (a b : Mutation) : Ordering :=
  (a.cell ⟨false, false⟩).order (b.cell ⟨false, false⟩)

/-- The mutations in the order of a file; those with equal keys stay in their order. -/
def sort (mutations : List Mutation) : List Mutation :=
  mutations.mergeSort fun a b => (a.order b).isLE

end Mutation

end CellStore
