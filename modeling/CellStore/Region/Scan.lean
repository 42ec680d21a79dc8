import CellStore.Region.Merge
import CellStore.Region.Visible

namespace CellStore

inductive RegionScan (α : Type := StoredCell)
  | at (ahead : Run α)
  /-- After an error, for good. -/
  | failed

variable {α : Type} {m n : Type → Type} [Monad m] [MonadExceptOf ReadError m]
  [MonadLift Decoded m] [SourceReader m] [Monad n] [MonadLift m n] [RunItem α] [RunReader α m n]

namespace RegionScan

/-- The cells of files, newest file first. -/
def ofFiles (files : List StoreFile) (options : ScanOptions) : n (RegionScan α) := do
  let target :=
    if options.startRow = [] then none else some (SeekTarget.row options.startRow)
  let merge ← Merge.ofCursors (files.map Cursor.ofFile) target
  return .at ((Merge.run merge.lanes).visible options (RowState.start []))

def next : RegionScan α → n (Option Cell) × RegionScan α
  | .at ahead =>
    match ahead.first with
    | .ok (some (stored, rest)) =>
      (RunReader.answer ahead.before (.ok (some stored.cell)), .at rest)
    | .ok none => (RunReader.answer ahead.before (.ok none), .at .finished)
    | .error error => (RunReader.answer ahead.before (.error (.read error)), failed)
  | failed => (RunReader.answer ([] : List α) (.error .failed), failed)

def iterate (scan : RegionScan) : Option (Moved Cell) × RegionScan :=
  match scan with
  | failed => (none, failed)
  | .at ahead =>
    match next (.at ahead) with
    | (.ok (some cell), scan) => (some (.ok cell), scan)
    | (.ok none, scan) => (none, scan)
    | (.error error, scan) => (some (.error error), scan)

def toList : RegionScan α → n (List Cell)
  | .at ahead => RunReader.answer ahead.besides ((ahead.collect []).mapError .read)
  | failed => RunReader.answer ([] : List α) (.ok [])

end RegionScan

namespace StoreFile

def candidates (row : Bytes) : List StoreFile → m (List StoreFile)
  | [] => return []
  | file :: files => do
    if ← file.mayContainRow row then
      return file :: (← candidates row files)
    else candidates row files

end StoreFile

namespace RegionScan

def row (files : List StoreFile) (row : Bytes) (maxVersions : Nat) : n (List Cell) := do
  let files ← (StoreFile.candidates row files : m (List StoreFile))
  let scan : RegionScan α ← ofFiles files (.ofRow row maxVersions)
  scan.toList

end RegionScan

end CellStore
