import CellStore.Cell.Record

namespace CellStore

/-- A finite run of items that comes to its end or fails. What follows an item is found out only
when it is asked for. -/
inductive Run (α : Type := StoredCell)
  | finished
  | failed (error : ReadError)
  | cell (item : α) (rest : Unit → Run α)

/-- What a run can be made of: cells and, besides them, what is passed over on the way to one. -/
class RunItem (α : Type) where
  ofCell : StoredCell → α
  cell? : α → Option StoredCell

@[default_instance]
instance : RunItem StoredCell := ⟨id, some⟩

@[simp] theorem RunItem.ofCell_eq (stored : StoredCell) : RunItem.ofCell stored = stored := rfl

namespace Run

variable {α β : Type}

def length : Run α → Nat
  | finished => 0
  | failed _ => 0
  | cell _ rest => (rest ()).length + 1

def toList : Run → List StoredCell
  | finished => []
  | failed _ => []
  | cell stored rest => stored :: (rest ()).toList

def error? : Run → Option ReadError
  | finished => none
  | failed error => some error
  | cell _ rest => (rest ()).error?

def concat (run : β → (Unit → Run α) → Run α) (next : Unit → Run α) : List β → Run α
  | [] => next ()
  | b :: bs => run b fun _ => concat run next bs

/-- Some items before a run. -/
def after (items : List α) (run : Run α) : Run α :=
  items.foldr (fun item run => cell item fun _ => run) run

section

variable [RunItem α]

def first : Run α → Fetched (Option (StoredCell × Run α))
  | finished => .ok none
  | failed error => .error error
  | cell item rest =>
    match RunItem.cell? item with
    | some stored => .ok (some (stored, rest ()))
    | none => (rest ()).first

/-- The items before the first cell. -/
def before : Run α → List α
  | finished => []
  | failed _ => []
  | cell item rest => if (RunItem.cell? item).isSome then [] else item :: (rest ()).before

/-- The items besides the cells. -/
def besides : Run α → List α
  | finished => []
  | failed _ => []
  | cell item rest =>
    if (RunItem.cell? item).isSome then (rest ()).besides else item :: (rest ()).besides

theorem length_first {run : Run α} {stored : StoredCell} {rest : Run α}
    (found : run.first = .ok (some (stored, rest))) : rest.length < run.length := by
  induction run with
  | finished => cases found
  | failed error => cases found
  | cell item next ih =>
    rw [first] at found
    split at found
    · cases found
      exact Nat.lt_succ_self _
    · exact Nat.lt_succ_of_lt (ih () found)

/-- All cells after those in `found`, the last one first, unless the run fails. -/
def collect (found : List Cell) : Run α → Fetched (List Cell)
  | finished => .ok found.reverse
  | failed error => .error error
  | cell item rest =>
    (rest ()).collect ((RunItem.cell? item).elim found fun stored => stored.cell :: found)

def dropUntil (found : StoredCell → Bool) : Run α → Run α
  | finished => finished
  | failed error => failed error
  | cell item rest =>
    match RunItem.cell? item with
    | some stored => if found stored then cell item rest else (rest ()).dropUntil found
    | none => cell item fun _ => (rest ()).dropUntil found

/-- The records of a block, then a run that follows them. Each record takes a byte at least. -/
def ofRecords (format : RecordFormat) (next : Unit → Run α) : (fuel : Nat) → Input → Run α
  | 0, _ => next ()
  | fuel + 1, input =>
    if input.rest.isEmpty then next ()
    else
      match StoredCell.parse format input with
      | .ok (stored, input) =>
        cell (RunItem.ofCell stored) fun _ => ofRecords format next fuel input
      | .error error => failed (.format error)

end

-- Runs of nothing but cells have nothing to pass over.

@[simp] theorem before_eq_nil (run : Run) : run.before = [] := by
  cases run <;> rfl

theorem dropUntil_cell (found : StoredCell → Bool) (stored : StoredCell) (rest : Unit → Run) :
    (cell stored rest).dropUntil found =
      if found stored then cell stored rest else (rest ()).dropUntil found := rfl

theorem collect_eq (run : Run) (found : List Cell) :
    run.collect found =
      run.error?.elim (.ok (found.reverse ++ run.toList.map (·.cell))) .error := by
  induction run generalizing found with
  | finished => simp [collect, error?, toList]
  | failed error => rfl
  | cell stored rest ih =>
    change (rest ()).collect (stored.cell :: found) = _
    rw [ih, error?, toList]
    cases (rest ()).error? <;> simp

end Run

end CellStore
