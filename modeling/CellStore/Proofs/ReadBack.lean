import CellStore.Proofs.Answers
import CellStore.Proofs.Load
import CellStore.Proofs.StableSort

namespace CellStore

namespace Blueprint

variable {plan : Blueprint} {family : Bytes}

theorem run_opened (sound : plan.Sound) (fits : ∀ m ∈ plan.mutations, m.Fits plan.format)
    (families : ∀ m ∈ plan.mutations, m.family = family) :
    plan.opened.run =
      Run.ofCells (plan.sorted.map (·.stored plan.format)) fun _ => .finished :=
  (contains_opened sound (fun m member => fits m (mem_sorted.1 member))
    fun m member => families m (mem_sorted.1 member)).run_eq

/-- A file is opened from its bytes, and its cells are those that were put into it, in their order.
Equal ones stay in the order in which they were given. -/
theorem cells_read_back (sound : plan.Sound) (plain : plan.PlainInfo)
    (fits : ∀ m ∈ plan.mutations, m.Fits plan.format)
    (families : ∀ m ∈ plan.mutations, m.family = family) :
    ∃ file sorted, StoreFile.load (Source.ofBytes plan.bytes) = .ok file
      ∧ StableSort Mutation.order plan.mutations sorted
      ∧ ∀ n, answers CellIterator.next n (.ofCursor (.ofFile file)) =
        (List.range n).map fun i => sorted[i]?.map fun m => .ok (m.cell plan.format) := by
  refine ⟨plan.opened, plan.sorted, load_eq sound plain, plan.stableSort_sorted, fun n => ?_⟩
  have ahead : (Cursor.ofFile plan.opened).Ahead (plan.sorted.map (·.stored plan.format)) :=
    ⟨none, congrArg (Position.at none) (run_opened sound fits families)⟩
  rw [CellIterator.answers_ofCursor ahead]
  simp only [List.getElem?_map, Option.map_map, Function.comp_def, Mutation.stored]

/-- Two rows, not in order, in blocks of their own under an index block, with tags, memstore
timestamps and a filter of rows. -/
def twoRows : Blueprint where
  form := ⟨.stored, .crc32, 64⟩
  encoding := .fastDiff
  blockSize := 1
  fanout := 2
  format := ⟨true, true⟩
  bloom := some .standard
  minorVersion := 3
  metaBlocks := [("note", [1, 2, 3])]
  extraInfo := []
  mutations := [
    ⟨[98], [102], [113], 5, .put, [1], [7], 300⟩,
    ⟨[97], [102], [113], 5, .put, [2], [9], 1⟩,
    ⟨[97], [102], [113], 5, .delete, [], [], 2⟩]

theorem sound_twoRows : twoRows.Sound := by decide +kernel

theorem plain_twoRows : twoRows.PlainInfo := by decide

theorem fits_twoRows : ∀ m ∈ twoRows.mutations, m.Fits twoRows.format := by decide

theorem families_twoRows : ∀ m ∈ twoRows.mutations, m.family = [102] := by decide

theorem cells_read_back_twoRows : twoRows.Sound ∧ twoRows.PlainInfo
    ∧ (∀ m ∈ twoRows.mutations, m.Fits twoRows.format)
    ∧ (∀ m ∈ twoRows.mutations, m.family = [102])
    ∧ ∃ file sorted, StoreFile.load (Source.ofBytes twoRows.bytes) = .ok file
      ∧ StableSort Mutation.order twoRows.mutations sorted
      ∧ ∀ n, answers CellIterator.next n (.ofCursor (.ofFile file)) =
        (List.range n).map fun i => sorted[i]?.map fun m => .ok (m.cell twoRows.format) :=
  ⟨sound_twoRows, plain_twoRows, fits_twoRows, families_twoRows,
    cells_read_back sound_twoRows plain_twoRows fits_twoRows families_twoRows⟩

end Blueprint

end CellStore
