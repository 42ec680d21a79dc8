import CellStore.Proofs.Cut
import CellStore.Proofs.RegionScan

namespace CellStore

variable {faults : ReadError → Prop}

theorem Run.Cut.visible {early whole : Run} (cut : Cut faults early whole)
    (options : ScanOptions) (state : RowState) :
    Cut faults (early.visible options state) (whole.visible options state) := by
  induction cut generalizing state with
  | failed fault run => exact .failed fault _
  | finished => exact .finished
  | @cell stored stored' _ _ same _ ih =>
    rw [Run.visible_cell, Run.visible_cell, same]
    split
    · exact .finished
    · obtain ⟨found, after⟩ := state.see options.maxVersions stored'.cell
      cases found with
      | true => exact .cell same (ih after)
      | false => exact ih after

structure Lane.Cut (faults : ReadError → Prop) (early whole : Lane) : Prop where
  rank : early.rank = whole.rank
  head : early.head.cell = whole.head.cell
  rest : Run.Cut faults early.rest whole.rest

namespace Merge

variable {lane lane' : Lane} {lanes lanes' : List Lane}

theorem cut_insert (cut : lane.Cut faults lane')
    (cuts : List.Forall₂ (Lane.Cut faults) lanes lanes') :
    List.Forall₂ (Lane.Cut faults) (insert lane lanes) (insert lane' lanes') := by
  induction cuts with
  | nil => exact .cons cut .nil
  | @cons l l' lanes lanes' first others ih =>
    have order : lane.order l = lane'.order l' := by
      rw [Lane.order, Lane.order, cut.head, cut.rank, first.head, first.rank]
    rw [insert, insert, order]
    split
    · exact .cons first ih
    · exact .cons cut (.cons first others)

theorem cut_run (cuts : List.Forall₂ (Lane.Cut faults) lanes lanes') :
    Run.Cut faults (run lanes) (run lanes') := by
  induction lanes using Merge.run.induct generalizing lanes' with
  | case1 =>
    cases cuts
    rw [run]
    exact .finished
  | case2 lane lanes again others =>
    obtain ⟨lane', lanes', cut, rest, rfl⟩ := List.forall₂_cons_left_iff.1 cuts
    obtain ⟨rank, head, ahead⟩ := lane
    obtain ⟨rank', head', ahead'⟩ := lane'
    obtain ⟨rfl, same, later⟩ := cut
    cases later with
    | failed fault =>
      rw [run_cons_failed rfl, run_cons]
      exact .cell same (.failed fault _)
    | finished =>
      rw [run_cons_finished rfl, run_cons_finished rfl]
      exact .cell same (others rest)
    | cell same' later =>
      rw [run_cons_cell rfl, run_cons_cell rfl]
      exact .cell same (again _ _ rfl (cut_insert ⟨rfl, same', later⟩ rest))

end Merge

/-- What a cursor on a file goes through once it is sent to the target, or else from the first cell
on. -/
def StoreFile.runFor (file : StoreFile) (target : Option SeekTarget) : Run :=
  target.elim file.run fun target => file.seekRun target.toKey

def StoreFile.Cut (faults : ReadError → Prop) (target : Option SeekTarget)
    (early whole : StoreFile) : Prop :=
  Run.Cut faults (early.runFor target) (whole.runFor target)

namespace RegionScan

variable {hurt files : List StoreFile} {options : ScanOptions} {scan : RegionScan}

end RegionScan

/-- A file with a block for each of two cells. The second block is read only if it is a data
block. -/
def StoreFile.twoBlocks (kind : BlockKind) : StoreFile :=
  let first : Mutation := ⟨[97], [102], [113], 5, .put, [1], [], 0⟩
  let second : Mutation := ⟨[98], [102], [113], 5, .put, [2], [], 0⟩
  let writer := BlockWriter.start Blueprint.standard.form
  let (front, writer) := writer.append .data (first.record ⟨false, false⟩).encode
  let (back, writer) := writer.append kind (second.record ⟨false, false⟩).encode
  { Blueprint.standard.opened with
    source := .ofBytes writer.bytes
    index :=
      ⟨[⟨front.offset, front.size, first.key⟩, ⟨back.offset, back.size, second.key⟩], 1, none⟩ }

end CellStore
