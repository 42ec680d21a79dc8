import CellStore.Cursor
import CellStore.Proofs.CellLayout

/-! Cursors that keep the way down from the root index in frames, and the cell they are on as a
place in the block at hand. An error may leave all of this half changed. -/

namespace CellStore

/-- The entries of an index block, and the number of the one to visit next. -/
structure Frame where
  entries : List IndexEntry
  next : Nat

structure FramedCursor where
  file : StoreFile
  /-- The lowest frame first. -/
  frames : List Frame
  block : Bytes
  /-- Where the next record starts. -/
  offset : Nat
  current : Option CellLayout
  failed : Bool

namespace StoreFile

/-- How many levels the index has. The root is one even when the file says that there is none. -/
def levels (file : StoreFile) : Nat := max file.index.levels 1

/-- How many steps it takes to go through what is below an entry, and to leave it. -/
def entryCost (file : StoreFile) : (height : Nat) → IndexEntry → Nat
  | 0, entry =>
    match file.readRecords entry.offset with
    | .ok records => records.length + 1
    | .error _ => 1
  | height + 1, entry =>
    match file.readIndexBlock entry.offset with
    | .ok entries => (entries.map (file.entryCost height)).sum + 2
    | .error _ => 1

def framesCost (file : StoreFile) : List Frame → Nat
  | [] => 0
  | frame :: above =>
    ((frame.entries.drop frame.next).map (file.entryCost (file.levels - (above.length + 1)))).sum
      + 1 + file.framesCost above

theorem framesCost_cons (file : StoreFile) {frame : Frame} {entry : IndexEntry}
    (here : frame.entries[frame.next]? = some entry) (above : List Frame) :
    file.framesCost (frame :: above) =
      file.entryCost (file.levels - (above.length + 1)) entry
        + file.framesCost (⟨frame.entries, frame.next + 1⟩ :: above) := by
  obtain ⟨inside, rfl⟩ := List.getElem?_eq_some_iff.1 here
  simp only [framesCost, List.drop_eq_getElem_cons inside, List.map_cons, List.sum_cons,
    Nat.add_assoc]

end StoreFile

namespace FramedCursor

def cleared (cursor : FramedCursor) : FramedCursor :=
  { cursor with frames := [], block := [], offset := 0, current := none }

def reset (cursor : FramedCursor) : FramedCursor :=
  { cursor.cleared with frames := [⟨cursor.file.index.entries, 0⟩] }

def ofFile (file : StoreFile) : FramedCursor := reset ⟨file, [], [], 0, none, false⟩

def cell? (cursor : FramedCursor) : Option (Bytes × Cell) :=
  cursor.current.bind (·.view? cursor.block)

/-- A bound on the steps up to the end of the file. -/
def cost (cursor : FramedCursor) : Nat :=
  cursor.block.length - cursor.offset + cursor.file.framesCost cursor.frames

inductive Step
  | pass (cursor : FramedCursor)
  | stop (found : Fetched Bool) (cursor : FramedCursor)

def visit (cursor : FramedCursor) (entry : IndexEntry) : Step :=
  if cursor.file.levels ≤ cursor.frames.length then
    match cursor.file.readRecords entry.offset with
    | .ok records => .pass { cursor with block := records, offset := 0 }
    | .error error => .stop (.error error) cursor
  else
    match cursor.file.readIndexBlock entry.offset with
    | .ok entries => .pass { cursor with frames := ⟨entries, 0⟩ :: cursor.frames }
    | .error error => .stop (.error error) cursor

/-- Takes the next record of the block, or else leaves a frame or visits its next entry. -/
def step (cursor : FramedCursor) : Step :=
  if cursor.offset < cursor.block.length then
    match CellLayout.parse cursor.file.format cursor.block cursor.offset with
    | .ok layout =>
      .stop (.ok true) { cursor with offset := cursor.offset + layout.length,
                                     current := some layout }
    | .error error => .stop (.error (.format error)) cursor
  else
    match cursor.frames with
    | [] => .stop (.ok false) { cursor with current := none }
    | frame :: above =>
      match frame.entries[frame.next]? with
      | some entry =>
        visit { cursor with frames := ⟨frame.entries, frame.next + 1⟩ :: above, current := none }
          entry
      | none =>
        if above.isEmpty then .stop (.ok false) { cursor with current := none }
        else .pass { cursor with frames := above, current := none }

inductive Visits (cursor : FramedCursor) (entry : IndexEntry) : Step → Prop
  | loaded {records : Bytes} (bottom : cursor.file.levels ≤ cursor.frames.length)
    (read : cursor.file.readRecords entry.offset = .ok records) :
    Visits cursor entry (.pass { cursor with block := records, offset := 0 })
  | entered {entries : List IndexEntry} (above : cursor.frames.length < cursor.file.levels)
    (read : cursor.file.readIndexBlock entry.offset = .ok entries) :
    Visits cursor entry (.pass { cursor with frames := ⟨entries, 0⟩ :: cursor.frames })
  | unloaded {error : ReadError} (bottom : cursor.file.levels ≤ cursor.frames.length)
    (read : cursor.file.readRecords entry.offset = .error error) :
    Visits cursor entry (.stop (.error error) cursor)
  | unentered {error : ReadError} (above : cursor.frames.length < cursor.file.levels)
    (read : cursor.file.readIndexBlock entry.offset = .error error) :
    Visits cursor entry (.stop (.error error) cursor)

inductive Steps (cursor : FramedCursor) : Step → Prop
  | record {layout : CellLayout} (more : cursor.offset < cursor.block.length)
    (parsed : CellLayout.parse cursor.file.format cursor.block cursor.offset = .ok layout) :
    Steps cursor (.stop (.ok true)
      { cursor with offset := cursor.offset + layout.length, current := some layout })
  | flawed {error : FormatError} (more : cursor.offset < cursor.block.length)
    (parsed : CellLayout.parse cursor.file.format cursor.block cursor.offset = .error error) :
    Steps cursor (.stop (.error (.format error)) cursor)
  | ended (through : cursor.block.length ≤ cursor.offset) (frames : cursor.frames = []) :
    Steps cursor (.stop (.ok false) { cursor with current := none })
  | stayed {frame : Frame} (through : cursor.block.length ≤ cursor.offset)
    (frames : cursor.frames = [frame]) (last : frame.entries[frame.next]? = none) :
    Steps cursor (.stop (.ok false) { cursor with current := none })
  | left {frame : Frame} {above : List Frame} (through : cursor.block.length ≤ cursor.offset)
    (frames : cursor.frames = frame :: above) (last : frame.entries[frame.next]? = none) :
    Steps cursor (.pass { cursor with frames := above, current := none })
  | visited {frame : Frame} {above : List Frame} {entry : IndexEntry} {result : Step}
    (through : cursor.block.length ≤ cursor.offset) (frames : cursor.frames = frame :: above)
    (here : frame.entries[frame.next]? = some entry)
    (visits : Visits { cursor with frames := ⟨frame.entries, frame.next + 1⟩ :: above,
                                   current := none } entry result) :
    Steps cursor result

theorem visits (cursor : FramedCursor) (entry : IndexEntry) :
    cursor.Visits entry (cursor.visit entry) := by
  rw [visit]
  by_cases bottom : cursor.file.levels ≤ cursor.frames.length
  · rw [if_pos bottom]
    cases read : cursor.file.readRecords entry.offset with
    | ok records => exact .loaded bottom read
    | error error => exact .unloaded bottom read
  · rw [if_neg bottom]
    cases read : cursor.file.readIndexBlock entry.offset with
    | ok entries => exact .entered (Nat.lt_of_not_le bottom) read
    | error error => exact .unentered (Nat.lt_of_not_le bottom) read

theorem steps (cursor : FramedCursor) : cursor.Steps cursor.step := by
  obtain ⟨file, frames, block, offset, current, failed⟩ := cursor
  rw [step]
  dsimp only
  by_cases more : offset < block.length
  · rw [if_pos more]
    cases parsed : CellLayout.parse file.format block offset with
    | ok layout => exact .record more parsed
    | error error => exact .flawed more parsed
  · have through := Nat.le_of_not_lt more
    rw [if_neg more]
    cases frames with
    | nil => exact .ended through rfl
    | cons frame above =>
      cases here : frame.entries[frame.next]? with
      | some entry =>
        simp only [here]
        exact .visited through rfl here (visits _ entry)
      | none =>
        simp only [here]
        cases above with
        | nil => exact .stayed through rfl here
        | cons above others => exact .left through rfl here

section

variable {cursor moved : FramedCursor} {entry : IndexEntry}

theorem cost_visits (visits : cursor.Visits entry (.pass moved))
    (through : cursor.block.length ≤ cursor.offset) :
    moved.cost < cursor.file.entryCost (cursor.file.levels - cursor.frames.length) entry
      + cursor.file.framesCost cursor.frames := by
  cases visits with
  | loaded bottom read =>
    simp only [Nat.sub_eq_zero_of_le bottom, StoreFile.entryCost, read, cost]
    omega
  | entered above read =>
    have below : cursor.file.levels - cursor.frames.length =
        cursor.file.levels - (cursor.frames.length + 1) + 1 := by omega
    simp only [below, StoreFile.entryCost, read, cost, StoreFile.framesCost, List.drop_zero]
    omega

theorem cost_pass (passes : cursor.step = .pass moved) : moved.cost < cursor.cost := by
  have stepped := cursor.steps
  rw [passes] at stepped
  cases stepped with
  | left through frames last =>
    simp only [cost, frames, StoreFile.framesCost]
    omega
  | visited through frames here visits =>
    have less := cost_visits visits through
    rw [cost.eq_def cursor, frames, StoreFile.framesCost_cons _ here]
    simp only [List.length_cons] at less
    omega

theorem cost_found (stops : cursor.step = .stop (.ok true) moved) : moved.cost < cursor.cost := by
  have stepped := cursor.steps
  rw [stops] at stepped
  cases stepped with
  | record more parsed =>
    obtain ⟨stored, -, -, filled⟩ := CellLayout.exists_of_parse parsed
    simp only [cost]
    omega
  | visited through frames here visits => cases visits

end

def advance (cursor : FramedCursor) : Fetched Bool × FramedCursor :=
  match _next : cursor.step with
  | .stop found cursor => (found, cursor)
  | .pass cursor => cursor.advance
termination_by cursor.cost
decreasing_by exact cost_pass _next

theorem cost_advance {cursor moved : FramedCursor} (found : cursor.advance = (.ok true, moved)) :
    moved.cost < cursor.cost := by
  fun_induction advance cursor with
  | case1 cursor answer stopped stops =>
    cases found
    exact cost_found stops
  | case2 cursor passed passes ih => exact Nat.lt_trans (ih found) (cost_pass passes)

def skipTo (key : Bytes) (cursor : FramedCursor) : Fetched Bool × FramedCursor :=
  match _next : cursor.advance with
  | (.ok true, moved) =>
    if moved.cell?.any fun cell => Key.order cell.1 key ≠ .lt then (.ok true, moved)
    else skipTo key moved
  | (.ok false, moved) => (.ok false, moved)
  | (.error error, moved) => (.error error, moved)
termination_by cursor.cost
decreasing_by exact cost_advance _next

/-- Where to go on for a key: at the last entry whose key is at most that, or else at the first
one. -/
def place (key : Bytes) (entries : List IndexEntry) : Nat :=
  (Index.search entries Key.order key).getD 0

def descend (key : Bytes) :
    (below : Nat) → List IndexEntry → FramedCursor → Fetched Unit × FramedCursor
  | 0, entries, cursor =>
    (.ok (), { cursor with frames := ⟨entries, place key entries⟩ :: cursor.frames })
  | below + 1, entries, cursor =>
    match entries[place key entries]? with
    | none => (.ok (), { cursor with frames := ⟨entries, place key entries⟩ :: cursor.frames })
    | some entry =>
      let cursor := { cursor with frames := ⟨entries, place key entries + 1⟩ :: cursor.frames }
      match cursor.file.readIndexBlock entry.offset with
      | .ok entries => descend key below entries cursor
      | .error error => (.error error, cursor)

def seekKey (cursor : FramedCursor) (key : Bytes) : Fetched Bool × FramedCursor :=
  match descend key (cursor.file.levels - 1) cursor.file.index.entries cursor.cleared with
  | (.ok (), cursor) => cursor.skipTo key
  | (.error error, cursor) => (.error error, cursor)

/-- An error leaves nothing to go on with. -/
def settle : Fetched Bool × FramedCursor → Moved Bool × FramedCursor
  | (.ok found, cursor) => (.ok found, cursor)
  | (.error error, cursor) =>
    (.error (.read error), { cursor with failed := true, current := none, frames := [],
                                         block := [] })

def next (cursor : FramedCursor) : Moved Bool × FramedCursor :=
  if cursor.failed then (.error .failed, cursor) else settle cursor.advance

def first (cursor : FramedCursor) : Moved Bool × FramedCursor :=
  if cursor.failed then (.error .failed, cursor) else settle cursor.reset.advance

def seek (cursor : FramedCursor) (target : SeekTarget) : Moved Bool × FramedCursor :=
  if cursor.failed then (.error .failed, cursor) else settle (cursor.seekKey target.toKey)

end FramedCursor

structure FramedCells where
  cursor : FramedCursor
  done : Bool

namespace FramedCells

def ofCursor (cursor : FramedCursor) : FramedCells := ⟨cursor, false⟩

def next (cells : FramedCells) : Option (Moved Cell) × FramedCells :=
  if cells.done then (none, cells)
  else
    match cells.cursor.next with
    | (.ok true, cursor) => (cursor.cell?.map fun cell => .ok cell.2, ⟨cursor, false⟩)
    | (.ok false, cursor) => (none, ⟨cursor, true⟩)
    | (.error error, cursor) => (some (.error error), ⟨cursor, true⟩)

end FramedCells

inductive Move
  | next
  | first
  | seek (target : SeekTarget)

def Cursor.move {α : Type} {m n : Type → Type} [Monad m] [MonadExceptOf ReadError m]
    [MonadLift Decoded m] [SourceReader m] [RunItem α] [RunReader α m n] (cursor : Cursor α) :
    Move → n Bool × Cursor α
  | .next => cursor.next
  | .first => cursor.first
  | .seek target => cursor.seek target

def FramedCursor.move (cursor : FramedCursor) : Move → Moved Bool × FramedCursor
  | .next => cursor.next
  | .first => cursor.first
  | .seek target => cursor.seek target

end CellStore
