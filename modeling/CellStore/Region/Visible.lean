import CellStore.Region.Options
import CellStore.Region.Tombstones
import CellStore.Run
import CellStore.Tally

namespace CellStore

structure RowState where
  row : Bytes
  tombstones : Tombstones
  /-- How many versions of each column have been shown. -/
  shown : Tally Bytes

namespace RowState

def start (row : Bytes) : RowState := ⟨row, .empty, []⟩

def seeHere (state : RowState) (maxVersions : Nat) (cell : Cell) : Bool × RowState :=
  if cell.kind.isTombstone then
    (false,
      { state with
        tombstones := state.tombstones.add cell.kind cell.qualifier cell.timestamp })
  else if state.tombstones.check cell.qualifier cell.timestamp ≠ .visible then (false, state)
  else if maxVersions = 0 then (true, state)
  else if maxVersions ≤ state.shown.count cell.qualifier then (false, state)
  else (true, { state with shown := state.shown.add cell.qualifier })

/-- Whether a cell is visible. A new row starts from nothing. -/
def see (state : RowState) (maxVersions : Nat) (cell : Cell) : Bool × RowState :=
  seeHere (if state.row = cell.row then state else start cell.row) maxVersions cell

end RowState

namespace Run

def visible {α : Type} [RunItem α] (options : ScanOptions) : RowState → Run α → Run α
  | _, finished => finished
  | _, failed error => failed error
  | state, cell item rest =>
    match RunItem.cell? item with
    | some stored =>
      if options.isPastStop stored.cell.row then finished
      else
        match state.see options.maxVersions stored.cell with
        | (true, state) => cell item fun _ => visible options state (rest ())
        | (false, state) => visible options state (rest ())
    | none => cell item fun _ => visible options state (rest ())

theorem visible_cell (options : ScanOptions) (state : RowState) (stored : StoredCell)
    (rest : Unit → Run) : (cell stored rest).visible options state =
      if options.isPastStop stored.cell.row then finished
      else
        match state.see options.maxVersions stored.cell with
        | (true, state) => cell stored fun _ => (rest ()).visible options state
        | (false, state) => (rest ()).visible options state := rfl

end Run

end CellStore
