import CellStore.Run
import CellStore.StoreFile

namespace CellStore

/-- Runs of such items are found by readers in `m`, and moves over them answer in `n`. -/
class RunReader (α : Type) (m n : outParam (Type → Type)) where
  follow {β : Type} (reader : m β) (next : β → Run α) : Run α
  /-- An answer, once some items were passed over for it. -/
  answer {β : Type} (passed : List α) (answer : Moved β) : n β

@[default_instance]
instance : RunReader StoredCell Fetched Moved where
  follow reader next :=
    match reader with
    | .ok found => next found
    | .error error => .failed error
  answer _ answer := answer

@[simp] theorem RunReader.follow_ok {β : Type} (found : β) (next : β → Run) :
    follow (Except.ok found : Fetched β) next = next found := rfl

open RunReader (follow answer)

variable {α : Type} {m n : Type → Type} [Monad m] [MonadExceptOf ReadError m]
  [MonadLift Decoded m] [SourceReader m] [RunItem α] [RunReader α m n]

namespace StoreFile

def dataBlockRun (file : StoreFile) (entry : IndexEntry) (next : Unit → Run α) : Run α :=
  follow (file.readRecords entry.offset) fun records =>
    Run.ofRecords file.format next records.length (Input.ofBytes records)

/-- The cells below an entry with `height` levels of index blocks under it, then `next`. -/
def subtreeRun (file : StoreFile) :
    (height : Nat) → IndexEntry → (next : Unit → Run α) → Run α
  | 0, entry, next => file.dataBlockRun entry next
  | height + 1, entry, next =>
    follow (file.readIndexBlock entry.offset) (Run.concat (file.subtreeRun height) next)

def indexHeight (file : StoreFile) : Nat := file.index.levels - 1

def run (file : StoreFile) : Run α :=
  Run.concat (file.subtreeRun file.indexHeight) (fun _ => .finished) file.index.entries

/-- The cells below `entries` from the last entry whose key is at most `key`, or else from the
first one, then `next`. -/
def runFrom (file : StoreFile) (key : Bytes) :
    (height : Nat) → (entries : List IndexEntry) → (next : Unit → Run α) → Run α
  | height, entries, next =>
    match entries.drop ((Index.search entries Key.order key).getD 0) with
    | [] => next ()
    | entry :: later =>
      match height with
      | 0 => Run.concat file.dataBlockRun next (entry :: later)
      | below + 1 =>
        follow (file.readIndexBlock entry.offset) fun entries =>
          file.runFrom key below entries fun _ =>
            Run.concat (file.subtreeRun (below + 1)) next later

def seekRun (file : StoreFile) (key : Bytes) : Run α :=
  (file.runFrom key file.indexHeight file.index.entries fun _ => .finished).dropUntil fun stored =>
    Key.order stored.key key ≠ .lt

end StoreFile

inductive Position (α : Type := StoredCell)
  /-- On a cell, or on none before the first and after the last, with a run still to come. -/
  | at (current : Option StoredCell) (ahead : Run α)
  /-- After an error, for good. -/
  | failed

structure Cursor (α : Type := StoredCell) where
  file : StoreFile
  position : Position α

namespace Cursor

def ofFile (file : StoreFile) : Cursor α := ⟨file, .at none file.run⟩

def cell? (cursor : Cursor α) : Option StoredCell :=
  match cursor.position with
  | .at current _ => current
  | .failed => none

def enter (cursor : Cursor α) (run : Run α) : n Bool × Cursor α :=
  match run.first with
  | .ok (some (stored, rest)) =>
    (answer run.before (.ok true), { cursor with position := .at (some stored) rest })
  | .ok none => (answer run.before (.ok false), { cursor with position := .at none .finished })
  | .error error =>
    (answer run.before (.error (.read error)), { cursor with position := .failed })

def stay (cursor : Cursor α) : n Bool × Cursor α := (answer ([] : List α) (.error .failed), cursor)

def next (cursor : Cursor α) : n Bool × Cursor α :=
  match cursor.position with
  | .at _ ahead => cursor.enter ahead
  | .failed => cursor.stay

def first (cursor : Cursor α) : n Bool × Cursor α :=
  match cursor.position with
  | .at _ _ => cursor.enter cursor.file.run
  | .failed => cursor.stay

def seek (cursor : Cursor α) (target : SeekTarget) : n Bool × Cursor α :=
  match cursor.position with
  | .at _ _ => cursor.enter (cursor.file.seekRun target.toKey)
  | .failed => cursor.stay

end Cursor

/-- The owned cells from a cursor on, which stop after the first error. -/
structure CellIterator where
  cursor : Cursor
  done : Bool

namespace CellIterator

def ofCursor (cursor : Cursor) : CellIterator := ⟨cursor, false⟩

def next (cells : CellIterator) : Option (Moved Cell) × CellIterator :=
  if cells.done then (none, cells)
  else
    match cells.cursor.next with
    | (.ok true, cursor) => (cursor.cell?.map fun stored => .ok stored.cell, ⟨cursor, false⟩)
    | (.ok false, cursor) => (none, ⟨cursor, true⟩)
    | (.error error, cursor) => (some (.error error), ⟨cursor, true⟩)

end CellIterator

end CellStore
