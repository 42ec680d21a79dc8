import CellStore.Cursor
import CellStore.Proofs.Record
import Mathlib.Data.List.Forall2

namespace CellStore

namespace Run

def ofCells : List StoredCell → (next : Unit → Run) → Run
  | [], next => next ()
  | stored :: cells, next => cell stored fun _ => ofCells cells next

theorem ofCells_append (cells more : List StoredCell) (next : Unit → Run) :
    ofCells (cells ++ more) next = ofCells cells fun _ => ofCells more next := by
  induction cells with
  | nil => rfl
  | cons stored cells ih => rw [List.cons_append, ofCells, ofCells, ih]

theorem ofRecords_encode {format : RecordFormat} {ms : List Mutation}
    (fits : ∀ m ∈ ms, m.Fits format) (lengths : ∀ m ∈ ms, m.key.length < 0x8000_0000
      ∧ m.value.length < 0x8000_0000) {fuel : Nat}
    (enough : (ms.flatMap fun m => (m.record format).encode).length ≤ fuel)
    (next : Unit → Run) (size offset : Nat) :
    ofRecords format next fuel ⟨size, offset, ms.flatMap fun m => (m.record format).encode⟩ =
      ofCells (ms.map (·.stored format)) next := by
  induction ms generalizing fuel offset with
  | nil => cases fuel <;> rfl
  | cons m ms ih =>
    have length := lengths m List.mem_cons_self
    have record := (Mutation.reads_record (fits m List.mem_cons_self) length.1 length.2).eq size
      offset (ms.flatMap fun m => (m.record format).encode)
    have nonempty : 8 ≤ (m.record format).encode.length := by
      simp only [Record.encode, List.length_append, Bytes.length_ofNat]
      omega
    rw [List.flatMap_cons] at enough ⊢
    rw [List.length_append] at enough
    cases fuel with
    | zero => omega
    | succ fuel =>
      have later := ih (fun m member => fits m (List.mem_cons_of_mem _ member))
        (fun m member => lengths m (List.mem_cons_of_mem _ member))
        (show (ms.flatMap fun m => (m.record format).encode).length ≤ fuel by omega)
        (offset + (m.record format).encode.length)
      have more : ((m.record format).encode
          ++ ms.flatMap fun m => (m.record format).encode).isEmpty = false := by
        cases written : (m.record format).encode with
        | nil => simp [written] at nonempty
        | cons b bytes => rfl
      rw [ofRecords, List.map_cons, ofCells]
      simp only [more, Bool.false_eq_true, if_false, record, later, RunItem.ofCell_eq]

end Run

namespace StoreFile

variable {file : StoreFile}

/-- An entry leads to these cells, with `height` levels of index blocks below it, and has the key
of the first of them. -/
def Covers (file : StoreFile) : (height : Nat) → IndexEntry → List StoredCell → Prop
  | 0, entry, cells =>
    cells.head?.map (·.key) = some entry.key ∧
      ∃ records, file.readRecords entry.offset = .ok records ∧
        ∀ next, Run.ofRecords file.format next records.length (Input.ofBytes records) =
          Run.ofCells cells next
  | height + 1, entry, cells =>
    cells.head?.map (·.key) = some entry.key ∧
      ∃ entries parts, file.readIndexBlock entry.offset = .ok entries ∧
        List.Forall₂ (file.Covers height) entries parts ∧ parts.flatten = cells

def Contains (file : StoreFile) (cells : List StoredCell) : Prop :=
  ∃ parts, List.Forall₂ (file.Covers file.indexHeight) file.index.entries parts
    ∧ parts.flatten = cells

theorem Covers.head {height : Nat} {entry : IndexEntry} {cells : List StoredCell}
    (covers : file.Covers height entry cells) : cells.head?.map (·.key) = some entry.key := by
  cases height with
  | zero => exact covers.1
  | succ height => exact covers.1

theorem Covers.exists_cons {height : Nat} {entry : IndexEntry} {cells : List StoredCell}
    (covers : file.Covers height entry cells) :
    ∃ first later, cells = first :: later ∧ first.key = entry.key := by
  have head := covers.head
  cases cells with
  | nil => simp at head
  | cons first later => exact ⟨first, later, rfl, by simpa using head⟩

theorem concat_eq_ofCells {run : IndexEntry → (Unit → Run) → Run} {entries : List IndexEntry}
    {parts : List (List StoredCell)}
    (each : List.Forall₂ (fun entry cells => ∀ next, run entry next = Run.ofCells cells next)
      entries parts) (next : Unit → Run) :
    Run.concat run next entries = Run.ofCells parts.flatten next := by
  induction each with
  | nil => rfl
  | cons first _ ih => rw [Run.concat, first, List.flatten_cons, Run.ofCells_append, ih]

theorem Covers.run_eq {height : Nat} {entry : IndexEntry} {cells : List StoredCell}
    (covers : file.Covers height entry cells) (next : Unit → Run) :
    file.subtreeRun height entry next = Run.ofCells cells next := by
  induction height generalizing entry cells next with
  | zero =>
    obtain ⟨-, records, read, parsed⟩ := covers
    rw [subtreeRun, dataBlockRun, read]
    exact parsed next
  | succ height ih =>
    obtain ⟨-, entries, parts, read, each, rfl⟩ := covers
    rw [subtreeRun, read]
    exact concat_eq_ofCells (each.imp fun _ _ covers next => ih covers next) next

theorem concat_subtrees {height : Nat} {entries : List IndexEntry} {parts : List (List StoredCell)}
    (covers : List.Forall₂ (file.Covers height) entries parts) (next : Unit → Run) :
    Run.concat (file.subtreeRun height) next entries = Run.ofCells parts.flatten next :=
  concat_eq_ofCells (covers.imp fun _ _ covers next => covers.run_eq next) next

theorem Contains.run_eq {cells : List StoredCell} (contains : file.Contains cells) :
    file.run = Run.ofCells cells fun _ => .finished := by
  obtain ⟨parts, each, rfl⟩ := contains
  exact concat_subtrees each _

end StoreFile

end CellStore
