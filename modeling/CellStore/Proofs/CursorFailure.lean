import CellStore.Proofs.FramedCursor

namespace CellStore

/-- What is answered to one call after another. -/
def responses {σ ι α : Type} (respond : σ → ι → α × σ) : List ι → σ → List α
  | [], _ => []
  | call :: calls, s => (respond s call).1 :: responses respond calls (respond s call).2

/-- What a move answers, and the key and the cell that are shown then. -/
abbrev Reply := Moved Bool × Option (Bytes × Cell)

def StoredCell.shown (stored : StoredCell) : Bytes × Cell := (stored.key, stored.cell)

def Cursor.reply (cursor : Cursor) (move : Move) : Reply × Cursor :=
  (((cursor.move move).1, (cursor.move move).2.cell?.map (·.shown)), (cursor.move move).2)

def FramedCursor.reply (cursor : FramedCursor) (move : Move) : Reply × FramedCursor :=
  (((cursor.move move).1, (cursor.move move).2.cell?), (cursor.move move).2)

namespace Cursor

variable (file : StoreFile)

end Cursor

namespace FramedCursor

/-- A cursor that has the run ahead of one with frames. -/
inductive Follows (framed : FramedCursor) : Cursor → Prop
  | live {file : StoreFile} {current : Option StoredCell} {run : Run} (same : framed.file = file)
    (sound : framed.failed = false) (ahead : framed.ahead = run) :
    Follows framed ⟨file, .at current run⟩
  | failed {file : StoreFile} (same : framed.file = file) (failed : framed.failed = true)
    (hidden : framed.cell? = none) : Follows framed ⟨file, .failed⟩

end FramedCursor

theorem CellIterator.answers_at (file : StoreFile) (current : Option StoredCell) (run : Run)
    (n : Nat) : answers next n (ofCursor ⟨file, .at current run⟩) =
      (List.range n).map fun i => (items run.cells run.error?)[i]? := by
  have ahead : Ahead (ofCursor ⟨file, .at current run⟩) (some run) := .inl ⟨rfl, rfl, rfl⟩
  rw [answers_of_run item (fun _ _ ahead => next_pull ahead) ahead]
  simp only [item_found]

namespace FramedCells

structure Follows (framed : FramedCells) (cells : CellIterator) : Prop where
  done : framed.done = cells.done
  cursor : framed.cursor.Follows cells.cursor

variable {framed : FramedCursor} {cursor : Cursor}

end FramedCells

end CellStore
