import CellStore.Reading

namespace CellStore

/-- The entries still to be visited, those of the lowest index block first, and what is left of the
data block at hand. -/
structure Walk where
  frames : List (List IndexEntry)
  block : Input

namespace Walk

def start (file : StoreFile) : Walk := ⟨[file.index.entries], .ofBytes []⟩

inductive Step
  | cell (stored : StoredCell) (walk : Walk)
  | pass (walk : Walk)
  | finished
  | failed (error : ReadError)

/-- Visits an entry; the lowest of `frames` holds the entries after it. The root is one level, even
when the file says that there is none. -/
def visit (file : StoreFile) (entry : IndexEntry) (frames : List (List IndexEntry)) : Step :=
  if max file.index.levels 1 ≤ frames.length then
    match file.readRecords entry.offset with
    | .ok records => .pass ⟨frames, .ofBytes records⟩
    | .error error => .failed error
  else
    match file.readIndexBlock entry.offset with
    | .ok entries => .pass ⟨entries :: frames, .ofBytes []⟩
    | .error error => .failed error

def step (file : StoreFile) (walk : Walk) : Step :=
  if walk.block.rest.isEmpty then
    match walk.frames with
    | [] => .finished
    | [] :: frames => .pass ⟨frames, walk.block⟩
    | (entry :: entries) :: frames => visit file entry (entries :: frames)
  else
    match StoredCell.parse file.format walk.block with
    | .ok (stored, block) => .cell stored ⟨walk.frames, block⟩
    | .error error => .failed (.format error)

end Walk

end CellStore
