import CellStore.Cell

/-! The tombstones of a row. They come before the cells they hide, so that those seen so far decide
about each put. -/

namespace CellStore

inductive Hiding
  | visible
  | family
  | column
  | version
  deriving DecidableEq

structure Tombstones where
  /-- The newest one of the whole row. -/
  family : Option UInt64
  /-- The newest one of each column. -/
  columns : List (Bytes × UInt64)
  /-- The single versions that are hidden. -/
  versions : List (Bytes × UInt64)

namespace Tombstones

def empty : Tombstones := ⟨none, [], []⟩

def reset (t : Tombstones) : Tombstones := { t with family := none, columns := [], versions := [] }

def isEmpty (t : Tombstones) : Bool := t.family.isNone && t.columns.isEmpty && t.versions.isEmpty

def raise (qualifier : Bytes) (timestamp : UInt64) : List (Bytes × UInt64) → List (Bytes × UInt64)
  | [] => [(qualifier, timestamp)]
  | (q, t) :: columns =>
    if q = qualifier then (q, max t timestamp) :: columns
    else (q, t) :: raise qualifier timestamp columns

def add (t : Tombstones) (kind : CellKind) (qualifier : Bytes) (timestamp : UInt64) : Tombstones :=
  match kind with
  | .put => t
  | .deleteFamily => { t with family := some (t.family.elim timestamp (max · timestamp)) }
  | .deleteColumn => { t with columns := raise qualifier timestamp t.columns }
  | .delete => { t with versions := t.versions.insert (qualifier, timestamp) }

/-- Whether a put is hidden: by its family first, then by its column, then by its version. -/
def check (t : Tombstones) (qualifier : Bytes) (timestamp : UInt64) : Hiding :=
  if t.family.any (timestamp ≤ ·) then .family
  else if (t.columns.lookup qualifier).any (timestamp ≤ ·) then .column
  else if t.versions.contains (qualifier, timestamp) then .version
  else .visible

end Tombstones

end CellStore
