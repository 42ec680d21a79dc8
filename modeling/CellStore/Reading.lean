import CellStore.StoreFile

namespace CellStore

structure Reading where
  cells : List StoredCell
  error : Option ReadError
  deriving DecidableEq

namespace Reading

def empty : Reading := ⟨[], none⟩

def andThen (first second : Reading) : Reading :=
  match first.error with
  | none => ⟨first.cells ++ second.cells, second.error⟩
  | some _ => first

def all (read : α → Reading) : List α → Reading
  | [] => empty
  | a :: as => (read a).andThen (all read as)

def ofRecords (format : RecordFormat) : (fuel : Nat) → Input → Reading
  | 0, _ => empty
  | fuel + 1, input =>
    if input.rest.isEmpty then empty
    else
      match StoredCell.parse format input with
      | .ok (stored, input) => andThen ⟨[stored], none⟩ (ofRecords format fuel input)
      | .error error => ⟨[], some (.format error)⟩

end Reading

namespace StoreFile

def readDataBlock (file : StoreFile) (entry : IndexEntry) : Reading :=
  match file.readRecords entry.offset with
  | .ok records => Reading.ofRecords file.format records.length (Input.ofBytes records)
  | .error error => ⟨[], some error⟩

/-- The cells below an entry with `height` levels of index blocks under it. An index block may
point back to itself: the levels end the descent. -/
def readSubtree (file : StoreFile) : (height : Nat) → IndexEntry → Reading
  | 0, entry => file.readDataBlock entry
  | height + 1, entry =>
    match file.readIndexBlock entry.offset with
    | .ok entries => Reading.all (file.readSubtree height) entries
    | .error error => ⟨[], some error⟩

end StoreFile

end CellStore
