import CellStore.Proofs.Tree
import CellStore.Region.Scan

namespace CellStore

/-- The first answers of something that is moved again and again. -/
def answers {σ α : Type} (move : σ → α × σ) : Nat → σ → List α
  | 0, _ => []
  | n + 1, s => (move s).1 :: answers move n (move s).2

theorem answers_of_stays {σ α : Type} {move : σ → α × σ} {s : σ} {a : α} (stays : move s = (a, s))
    (n : Nat) : answers move n s = List.replicate n a := by
  induction n with
  | zero => rfl
  | succ n ih => rw [answers, stays, ih, List.replicate_succ]

/-- What goes through states that belong to those of something else answers as that does. -/
theorem answers_map {σ τ α β : Type} {move : σ → α × σ} {other : τ → β × τ} {R : σ → τ → Prop}
    (answer : β → α)
    (step : ∀ s t, R s t → (move s).1 = answer (other t).1 ∧ R (move s).2 (other t).2)
    {s : σ} {t : τ} (belongs : R s t) (n : Nat) :
    answers move n s = (answers other n t).map answer := by
  induction n generalizing s t with
  | zero => rfl
  | succ n ih =>
    obtain ⟨first, later⟩ := step s t belongs
    rw [answers, answers, List.map_cons, first, ih later]

/-- What is found by asking for cells one by one, which end or break off with an error. The error is
given once, and then nothing can be found any more. -/
def found {α : Type} (cells : List α) (error : Option ReadError) (i : Nat) : Moved (Option α) :=
  match cells[i]? with
  | some cell => .ok (some cell)
  | none =>
    error.elim (.ok none) fun error => .error (if i = cells.length then .read error else .failed)

section

variable {α β : Type} (cell : α) (cells : List α) (error : Option ReadError) (i : Nat)

@[simp] theorem found_complete : found cells none i = .ok cells[i]? := by
  rw [found]
  cases cells[i]? <;> rfl

@[simp] theorem found_cons_succ : found (cell :: cells) error (i + 1) = found cells error i := by
  simp [found]

theorem map_found (f : α → β) :
    (found cells error i).map (·.map f) = found (cells.map f) error i := by
  rw [found, found, List.getElem?_map, List.length_map]
  cases cells[i]? with
  | some cell => rfl
  | none => cases error <;> rfl

end

namespace Run

def cells (run : Run) : List Cell := run.toList.map (·.cell)

variable (cells : List StoredCell)

@[simp] theorem toList_ofCells : (ofCells cells fun _ => .finished).toList = cells := by
  induction cells with
  | nil => rfl
  | cons stored cells ih => rw [ofCells, toList, ih]

@[simp] theorem error?_ofCells : (ofCells cells fun _ => .finished).error? = none := by
  induction cells with
  | nil => rfl
  | cons stored cells ih => rw [ofCells, error?, ih]

/-- The next cell of a run. After its error there is no run any more. -/
def pull : Option Run → Moved (Option StoredCell) × Option Run
  | some (cell stored rest) => (.ok (some stored), some (rest ()))
  | some finished => (.ok none, some finished)
  | some (failed error) => (.error (.read error), none)
  | none => (.error .failed, none)

theorem answers_pull (run : Run) (n : Nat) :
    answers pull n (some run) = (List.range n).map (found run.toList run.error?) := by
  induction run generalizing n with
  | finished =>
    have stays : pull (some finished) = (.ok none, some finished) := rfl
    have none : found finished.toList finished.error? = fun _ => .ok none := rfl
    rw [answers_of_stays stays, none, List.map_const', List.length_range]
  | failed error =>
    cases n with
    | zero => rfl
    | succ n =>
      have stays : pull none = (.error .failed, none) := rfl
      have later : found (failed error).toList (failed error).error? ∘ Nat.succ =
          fun _ => .error .failed := rfl
      rw [answers, pull, answers_of_stays stays, List.range_succ_eq_map, List.map_cons,
        List.map_map, later, List.map_const', List.length_range]
      rfl
  | cell stored rest ih =>
    cases n with
    | zero => rfl
    | succ n =>
      have later : found (cell stored rest).toList (cell stored rest).error? ∘ Nat.succ =
          found (rest ()).toList (rest ()).error? :=
        funext (found_cons_succ stored (rest ()).toList (rest ()).error?)
      rw [answers, pull, ih, List.range_succ_eq_map, List.map_cons, List.map_map, later]
      rfl

end Run

theorem answers_of_run {σ α : Type} {move : σ → α × σ} {R : σ → Option Run → Prop}
    (answer : Moved (Option StoredCell) → α)
    (step : ∀ s run, R s run → (move s).1 = answer (Run.pull run).1 ∧ R (move s).2 (Run.pull run).2)
    {s : σ} {run : Run} (belongs : R s (some run)) (n : Nat) :
    answers move n s = (List.range n).map fun i => answer (found run.toList run.error? i) := by
  rw [answers_map answer step belongs, Run.answers_pull, List.map_map]
  rfl

namespace Cursor

def ahead? (cursor : Cursor) : Option Run :=
  match cursor.position with
  | .at _ ahead => some ahead
  | .failed => none

def step (cursor : Cursor) : (Moved Bool × Option StoredCell) × Cursor :=
  ((cursor.next.1, cursor.next.2.cell?), cursor.next.2)

def shows (found : Moved (Option StoredCell)) : Moved Bool × Option StoredCell :=
  (found.map (·.isSome), found.toOption.join)

theorem step_pull (cursor : Cursor) : cursor.step.1 = shows (Run.pull cursor.ahead?).1
    ∧ cursor.step.2.ahead? = (Run.pull cursor.ahead?).2 := by
  obtain ⟨file, position⟩ := cursor
  cases position with
  | failed => exact ⟨rfl, rfl⟩
  | «at» current run => cases run <;> exact ⟨rfl, rfl⟩

theorem answers_step {cursor : Cursor} {run : Run} (ahead : cursor.ahead? = some run) (n : Nat) :
    answers step n cursor = (List.range n).map fun i => shows (found run.toList run.error? i) := by
  refine answers_of_run (R := fun cursor run => cursor.ahead? = run) shows ?_ ahead n
  rintro cursor _ rfl
  exact cursor.step_pull

/-- The cells that are ahead of a cursor, up to the end of the file. -/
def Ahead (cursor : Cursor) (cells : List StoredCell) : Prop :=
  ∃ current, cursor.position = .at current (Run.ofCells cells fun _ => .finished)

theorem enter_ofCells (cursor : Cursor) (cells : List StoredCell) :
    cursor.enter (Run.ofCells cells fun _ => .finished) =
      (.ok cells.head?.isSome, { cursor with
        position := .at cells.head? (Run.ofCells cells.tail fun _ => .finished) }) := by
  cases cells <;> rfl

theorem enter_lands (cursor : Cursor) (cells : List StoredCell) :
    ∃ landed, cursor.enter (Run.ofCells cells fun _ => .finished) = (.ok cells.head?.isSome, landed)
      ∧ landed.cell? = cells.head? ∧ landed.Ahead cells.tail :=
  ⟨_, enter_ofCells cursor cells, rfl, _, rfl⟩

variable {cursor : Cursor} {cells : List StoredCell}

theorem Ahead.ahead? (ahead : cursor.Ahead cells) :
    cursor.ahead? = some (Run.ofCells cells fun _ => .finished) := by
  obtain ⟨current, position⟩ := ahead
  rw [Cursor.ahead?, position]

theorem Ahead.answers_step (ahead : cursor.Ahead cells) (n : Nat) :
    answers step n cursor = (List.range n).map fun i => (.ok cells[i]?.isSome, cells[i]?) := by
  simp only [Cursor.answers_step ahead.ahead?, Run.toList_ofCells, Run.error?_ofCells,
    found_complete]
  rfl

end Cursor

def CellIterator.item : Moved (Option StoredCell) → Option (Moved Cell)
  | .ok found => found.map fun stored => .ok stored.cell
  | .error (.read error) => some (.error (.read error))
  | .error .failed => none

def CellIterator.items (cells : List Cell) (error : Option ReadError) : List (Moved Cell) :=
  cells.map .ok ++ error.toList.map fun error => .error (.read error)

theorem CellIterator.item_found (run : Run) (i : Nat) :
    item (found run.toList run.error? i) = (items run.cells run.error?)[i]? := by
  rw [items, Run.cells, List.map_map, found, List.getElem?_append, List.length_map,
    List.getElem?_map]
  by_cases inside : i < run.toList.length
  · rw [if_pos inside, List.getElem?_eq_getElem inside]
    rfl
  · rw [if_neg inside, List.getElem?_eq_none (Nat.le_of_not_lt inside)]
    cases run.error? with
    | none => rfl
    | some error =>
      by_cases last : i = run.toList.length
      · simp [last, item]
      · have past : i - run.toList.length ≠ 0 := by omega
        obtain ⟨k, past⟩ := Nat.exists_eq_succ_of_ne_zero past
        simp [last, item, past]

namespace CellIterator

def Ahead (cells : CellIterator) (run : Option Run) : Prop :=
  cells.done = false ∧ run.isSome ∧ cells.cursor.ahead? = run
    ∨ cells.done = true ∧ (run = some .finished ∨ run = none)

theorem next_pull {cells : CellIterator} {run : Option Run} (ahead : cells.Ahead run) :
    cells.next.1 = item (Run.pull run).1 ∧ cells.next.2.Ahead (Run.pull run).2 := by
  obtain ⟨⟨file, position⟩, done⟩ := cells
  obtain ⟨rfl, live, rfl⟩ | ⟨rfl, rfl | rfl⟩ := ahead
  · cases position with
    | failed => cases live
    | «at» current run =>
      cases run with
      | finished => exact ⟨rfl, .inr ⟨rfl, .inl rfl⟩⟩
      | failed error => exact ⟨rfl, .inr ⟨rfl, .inr rfl⟩⟩
      | cell stored rest => exact ⟨rfl, .inl ⟨rfl, rfl, rfl⟩⟩
  · exact ⟨rfl, .inr ⟨rfl, .inl rfl⟩⟩
  · exact ⟨rfl, .inr ⟨rfl, .inr rfl⟩⟩

theorem answers_ofCursor {cursor : Cursor} {items : List StoredCell} (ahead : cursor.Ahead items)
    (n : Nat) : answers next n (ofCursor cursor) =
      (List.range n).map fun i => items[i]?.map fun stored => .ok stored.cell := by
  have start : Ahead (ofCursor cursor) (some (Run.ofCells items fun _ => .finished)) :=
    .inl ⟨rfl, rfl, ahead.ahead?⟩
  simp only [answers_of_run item (fun _ _ ahead => next_pull ahead) start, Run.toList_ofCells,
    Run.error?_ofCells, found_complete]
  rfl

end CellIterator

namespace RegionScan

def ahead? : RegionScan → Option Run
  | .at ahead => some ahead
  | failed => none

theorem next_pull (scan : RegionScan) :
    scan.next.1 = (Run.pull scan.ahead?).1.map (·.map (·.cell))
      ∧ scan.next.2.ahead? = (Run.pull scan.ahead?).2 := by
  cases scan with
  | failed => exact ⟨rfl, rfl⟩
  | «at» run => cases run <;> exact ⟨rfl, rfl⟩

theorem iterate_pull (scan : RegionScan) :
    scan.iterate.1 = CellIterator.item (Run.pull scan.ahead?).1
      ∧ scan.iterate.2.ahead? = (Run.pull scan.ahead?).2 := by
  cases scan with
  | failed => exact ⟨rfl, rfl⟩
  | «at» run => cases run <;> exact ⟨rfl, rfl⟩

theorem answers_next_at (run : Run) (n : Nat) : answers next n (.at run) =
    (List.range n).map (found run.cells run.error?) := by
  have belongs : (RegionScan.at run).ahead? = some run := rfl
  rw [answers_of_run (R := fun scan run => ahead? scan = run) (·.map (·.map (·.cell))) ?_ belongs]
  · simp only [map_found, Run.cells]
  · rintro scan _ rfl
    exact scan.next_pull

theorem answers_iterate_at (run : Run) (n : Nat) :
    answers iterate n (.at run) =
      (List.range n).map fun i => (CellIterator.items run.cells run.error?)[i]? := by
  have belongs : (RegionScan.at run).ahead? = some run := rfl
  rw [answers_of_run (R := fun scan run => ahead? scan = run) CellIterator.item ?_ belongs]
  · simp only [CellIterator.item_found]
  · rintro scan _ rfl
    exact scan.iterate_pull

theorem answers_next_complete {run : Run} (ends : run.error? = none) (n : Nat) :
    answers next n (.at run) = (List.range n).map fun i => .ok run.cells[i]? := by
  rw [answers_next_at, ends]
  exact List.map_congr_left fun i _ => found_complete _ i

theorem answers_iterate_complete {run : Run} (ends : run.error? = none) (n : Nat) :
    answers iterate n (.at run) = (List.range n).map fun i => run.cells[i]?.map .ok := by
  simp only [answers_iterate_at, CellIterator.items, ends, Option.toList_none, List.map_nil,
    List.append_nil, List.getElem?_map]

theorem answers_next (items : List StoredCell) (n : Nat) :
    answers next n (.at (Run.ofCells items fun _ => .finished)) =
      (List.range n).map fun i => .ok (items.map (·.cell))[i]? := by
  simpa [Run.cells] using answers_next_complete (Run.error?_ofCells items) n

theorem answers_iterate (items : List StoredCell) (n : Nat) :
    answers iterate n (.at (Run.ofCells items fun _ => .finished)) =
      (List.range n).map fun i => (items.map (·.cell))[i]?.map .ok := by
  simpa [Run.cells] using answers_iterate_complete (Run.error?_ofCells items) n

end RegionScan

end CellStore
