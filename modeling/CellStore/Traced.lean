import CellStore.Cursor

/-! Readers that give account of what they read, and runs in which that stands between the cells. -/

namespace CellStore

structure Access where
  source : Source
  offset : Nat
  length : Nat

def Access.Inside (access : Access) : Prop := access.offset + access.length ≤ access.source.size

/-- What a reader gives, and what it read, the first access first. -/
structure Traced (ε α : Type) where
  reads : List Access
  result : Except ε α

namespace Traced

variable {ε α β : Type}

def bind (first : Traced ε α) (next : α → Traced ε β) : Traced ε β :=
  match first.result with
  | .ok a => ⟨first.reads ++ (next a).reads, (next a).result⟩
  | .error error => ⟨first.reads, .error error⟩

/-- What failed has been read all the same. -/
def tryCatch (reader : Traced ε α) (handle : ε → Traced ε α) : Traced ε α :=
  match reader.result with
  | .ok _ => reader
  | .error error => ⟨reader.reads ++ (handle error).reads, (handle error).result⟩

instance : Monad (Traced ε) where
  pure a := ⟨[], .ok a⟩
  bind := bind

instance : MonadExceptOf ε (Traced ε) where
  throw error := ⟨[], .error error⟩
  tryCatch := tryCatch

theorem mem_reads_bind {reader : Traced ε α} {next : α → Traced ε β} {access : Access} :
    access ∈ (reader >>= next).reads ↔
      access ∈ reader.reads ∨ ∃ a, reader.result = .ok a ∧ access ∈ (next a).reads := by
  change access ∈ (reader.bind next).reads ↔ _
  rw [bind]
  cases reader.result <;> simp

instance : MonadLift Decoded (Traced ReadError) := ⟨fun result => ⟨[], liftM result⟩⟩

instance : MonadLift (Traced ReadError) (Traced CursorError) :=
  ⟨fun reader => ⟨reader.reads, reader.result.mapError .read⟩⟩

instance : SourceReader (Traced ReadError) where
  readAt source offset length :=
    ⟨[⟨source, offset, length⟩], SourceReader.readAt source offset length⟩

end Traced

inductive Event
  | read (access : Access)
  | cell (stored : StoredCell)

namespace Event

def access? : Event → Option Access
  | read access => some access
  | cell _ => none

instance : RunItem Event where
  ofCell := cell
  cell? event :=
    match event with
    | read _ => none
    | cell stored => some stored

@[simp] theorem cell?_cell (stored : StoredCell) : RunItem.cell? (cell stored) = some stored := rfl

instance : RunReader Event (Traced ReadError) (Traced CursorError) where
  follow reader next :=
    Run.after (reader.reads.map read) <|
      match reader.result with
      | .ok found => next found
      | .error error => .failed error
  answer passed answer := ⟨passed.filterMap access?, answer⟩

end Event

end CellStore
