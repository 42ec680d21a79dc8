import CellStore.Cursor

namespace CellStore

/-- A run that stands on a cell. Of equal cells, the one of the lower rank comes first. -/
structure Lane (α : Type := StoredCell) where
  rank : Nat
  head : StoredCell
  rest : Run α

variable {α : Type}

def Lane.order (a b : Lane α) : Ordering :=
  (a.head.cell.order b.head.cell).then (compare a.rank b.rank)

structure Merge (α : Type := StoredCell) where
  lanes : List (Lane α)

namespace Merge

def empty : Merge α := ⟨[]⟩

def insert (lane : Lane α) : List (Lane α) → List (Lane α)
  | [] => [lane]
  | l :: lanes => if lane.order l = .gt then l :: insert lane lanes else lane :: l :: lanes

def add (merge : Merge α) (lane : Lane α) : Merge α := ⟨insert lane merge.lanes⟩

def laneOf? (rank : Nat) (cursor : Cursor α) : Option (Lane α) :=
  match cursor.position with
  | .at (some head) rest => some ⟨rank, head, rest⟩
  | _ => none

section

variable {m n : Type → Type} [Monad m] [MonadExceptOf ReadError m] [MonadLift Decoded m]
  [SourceReader m] [Monad n] [RunItem α] [RunReader α m n]

/-- Moves cursors to the target, or else to their next cell, and merges those that find one. They
are given newest file first, and `rank` is that of the first of them. -/
def addCursors (target : Option SeekTarget) :
    (rank : Nat) → List (Cursor α) → Merge α → n (Merge α)
  | _, [], merge => return merge
  | rank, cursor :: cursors, merge => do
    let (found, cursor) := target.elim cursor.next cursor.seek
    let _ ← found
    addCursors target (rank + 1) cursors ((laneOf? rank cursor).elim merge merge.add)

def ofCursors (cursors : List (Cursor α)) (target : Option SeekTarget) : n (Merge α) :=
  addCursors target 0 cursors empty

end

def peek? (merge : Merge) : Option StoredCell := merge.lanes.head?.map (·.head)

/-- Moves past the least cell. An error ends all lanes. -/
def advance (merge : Merge) : Moved Unit × Merge :=
  match merge.lanes with
  | [] => (.ok (), merge)
  | lane :: lanes =>
    match lane.rest with
    | .cell head rest => (.ok (), add ⟨lanes⟩ { lane with head, rest := rest () })
    | .finished => (.ok (), ⟨lanes⟩)
    | .failed error => (.error (.read error), empty)

def weight (lanes : List (Lane α)) : Nat := (lanes.map fun lane => lane.rest.length + 1).sum

theorem weight_insert (lane : Lane α) (lanes : List (Lane α)) :
    weight (insert lane lanes) = lane.rest.length + 1 + weight lanes := by
  induction lanes with
  | nil => rfl
  | cons l lanes ih =>
    rw [insert]
    split
    · simp only [weight, List.map_cons, List.sum_cons] at ih ⊢
      omega
    · rfl

/-- The cells of all lanes in order. What is passed over in a lane stands between its cells. -/
def run [RunItem α] (lanes : List (Lane α)) : Run α :=
  match lanes with
  | [] => .finished
  | lane :: lanes =>
    .cell (RunItem.ofCell lane.head) fun _ =>
      Run.after lane.rest.before <|
        match _next : lane.rest.first with
        | .ok (some (head, rest)) => run (insert { lane with head, rest } lanes)
        | .ok none => run lanes
        | .error error => .failed error
termination_by weight lanes
decreasing_by
  · rw [weight_insert]
    have shorter := Run.length_first _next
    simp only [weight, List.map_cons, List.sum_cons]
    omega
  · simp only [weight, List.map_cons, List.sum_cons]
    omega

end Merge

end CellStore
