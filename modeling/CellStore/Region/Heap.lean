import CellStore.Region.Merge

/-! Merging runs with a priority queue. The lane of the least cell is kept out of the queue, so that
a step costs one push and one pop. -/

namespace CellStore

/-- A queue that gives out a least one of its lanes. -/
structure LaneQueue where
  State : Type
  empty : State
  push : Lane → State → State
  pop : State → Option (Lane × State)
  lanes : State → List Lane
  lanes_empty : lanes empty = []
  lanes_push : ∀ lane state, (lanes (push lane state)).Perm (lane :: lanes state)
  lanes_of_pop_eq_none : ∀ state, pop state = none → lanes state = []
  lanes_of_pop : ∀ state lane state', pop state = some (lane, state') →
    (lanes state).Perm (lane :: lanes state')
  least : ∀ state lane state', pop state = some (lane, state') →
    ∀ other ∈ lanes state', lane.order other ≠ .gt

structure Heap (queue : LaneQueue) where
  current : Option Lane
  waiting : queue.State

namespace Heap

variable {queue : LaneQueue}

def settle (waiting : queue.State) : Heap queue :=
  match queue.pop waiting with
  | some (lane, waiting) => ⟨some lane, waiting⟩
  | none => ⟨none, waiting⟩

def pushCursors (target : Option SeekTarget) :
    (rank : Nat) → List Cursor → queue.State → Moved queue.State
  | _, [], waiting => .ok waiting
  | rank, cursor :: cursors, waiting =>
    match target.elim cursor.next cursor.seek with
    | (.ok _, cursor) =>
      pushCursors target (rank + 1) cursors
        ((Merge.laneOf? rank cursor).elim waiting (queue.push · waiting))
    | (.error error, _) => .error error

def ofCursors (cursors : List Cursor) (target : Option SeekTarget) : Moved (Heap queue) :=
  return settle (← pushCursors target 0 cursors queue.empty)

def peek? (heap : Heap queue) : Option StoredCell := heap.current.map (·.head)

/-- Moves past the least cell. An error empties the queue. -/
def advance (heap : Heap queue) : Moved Unit × Heap queue :=
  match heap.current with
  | none => (.ok (), heap)
  | some lane =>
    match lane.rest with
    | .cell head rest =>
      (.ok (), settle (queue.push { lane with head, rest := rest () } heap.waiting))
    | .finished => (.ok (), settle heap.waiting)
    | .failed error => (.error (.read error), ⟨none, queue.empty⟩)

end Heap

end CellStore
