import CellStore.Index.Writer
import CellStore.Proofs.Block
import CellStore.Proofs.Index
import Mathlib.Data.List.Forall2

/-! Writers only ever append, so that what they wrote is found where it was written. -/

namespace CellStore

namespace Source

def Holds (source : Source) (form : BlockForm) (offset : Nat) (kind : BlockKind)
    (payload : Bytes) : Prop :=
  ∃ before previous after, source.bytes = before ++ (form.encode kind previous payload ++ after)
    ∧ before.length = offset ∧ ∀ start ∈ previous, start < 0x8000_0000_0000_0000

variable {source : Source} {form : BlockForm} {offset : Nat} {kind : BlockKind} {payload : Bytes}

theorem Holds.inside (holds : source.Holds form offset kind payload) :
    offset + form.size payload ≤ source.bytes.length := by
  obtain ⟨before, previous, after, whole, rfl, -⟩ := holds
  rw [whole, List.length_append, List.length_append, BlockForm.length_encode]
  omega

theorem Holds.read (holds : source.Holds form offset kind payload) (verifiable : form.Verifiable)
    (stored : form.packing = .stored) (fits : form.Fits payload) :
    ∃ header, Block.read source offset .stored = .ok ⟨header, kind, offset, payload⟩
      ∧ header.onDiskSizeWithHeader = form.size payload := by
  obtain ⟨before, previous, after, whole, rfl, small⟩ := holds
  exact ⟨_, Block.read_encode verifiable stored fits small whole, rfl⟩

theorem Holds.readHeader (holds : source.Holds form offset kind payload)
    (verifiable : form.Verifiable) (fits : form.Fits payload) :
    ∃ header, Block.readHeader source offset = .ok header
      ∧ header.kind = .ok kind ∧ header.onDiskSizeWithHeader = form.size payload := by
  obtain ⟨before, previous, after, whole, rfl, small⟩ := holds
  exact ⟨_, Block.readHeader_encode verifiable fits small whole, BlockForm.kind_header, rfl⟩

/-- An entry leads to a block that was written under its key. -/
structure Leads (source : Source) (form : BlockForm) (kind : BlockKind) (entry : IndexEntry)
    (block : Bytes × Bytes) : Prop where
  key : entry.key = block.1
  size : entry.size = form.size block.2
  holds : source.Holds form entry.offset kind block.2

theorem Leads.fits {entry : IndexEntry} {block : Bytes × Bytes}
    (leads : source.Leads form kind entry block)
    (small : source.bytes.length < 0x8000_0000_0000_0000) (fits : form.Fits block.2) :
    entry.Fits where
  offset := by
    have := leads.holds.inside
    omega
  size := by
    have := fits.onDisk
    rw [leads.size, BlockForm.size, BlockHeader.size]
    omega

theorem fits_of_leads {entries : List IndexEntry} {blocks : List (Bytes × Bytes)}
    (leads : List.Forall₂ (source.Leads form kind) entries blocks)
    (small : source.bytes.length < 0x8000_0000_0000_0000)
    (fits : ∀ block ∈ blocks, form.Fits block.2) : ∀ entry ∈ entries, entry.Fits := by
  induction leads with
  | nil => exact fun _ member => (List.not_mem_nil member).elim
  | cons first _ ih =>
    intro entry member
    rcases List.mem_cons.1 member with rfl | later
    · exact first.fits small (fits _ List.mem_cons_self)
    · exact ih (fun block member => fits block (List.mem_cons_of_mem _ member)) entry later

end Source

namespace BlockWriter

/-- Blocks start inside what is written, and nothing is counted that is not written. -/
structure Consistent (writer : BlockWriter) : Prop where
  starts : ∀ block ∈ writer.starts, block.2 ≤ writer.bytes.length
  uncompressed : writer.form.packing = .stored → writer.uncompressedBytes ≤ writer.bytes.length

/-- What a writer becomes by writing more. -/
structure Extends (writer later : BlockWriter) : Prop where
  form : later.form = writer.form
  bytes : writer.bytes <+: later.bytes
  consistent : writer.Consistent → later.Consistent

variable {writer later : BlockWriter} {source : Source} {kind : BlockKind}

theorem Extends.refl (writer : BlockWriter) : writer.Extends writer := ⟨rfl, List.prefix_rfl, id⟩

theorem Extends.trans {last : BlockWriter} (first : writer.Extends later)
    (second : later.Extends last) : writer.Extends last :=
  ⟨second.form.trans first.form, first.bytes.trans second.bytes,
    fun consistent => second.consistent (first.consistent consistent)⟩

theorem consistent_start (form : BlockForm) : (start form).Consistent :=
  ⟨fun _ member => (List.not_mem_nil member).elim, fun _ => Nat.le_refl 0⟩

theorem bytes_append (writer : BlockWriter) (kind : BlockKind) (payload : Bytes) :
    (writer.append kind payload).2.bytes =
      writer.bytes ++ writer.form.encode kind (writer.starts.lookup kind) payload := rfl

theorem length_append (writer : BlockWriter) (kind : BlockKind) (payload : Bytes) :
    (writer.append kind payload).2.bytes.length =
      writer.bytes.length + writer.form.size payload := by
  rw [bytes_append, List.length_append, BlockForm.length_encode]

theorem extends_append (writer : BlockWriter) (kind : BlockKind) (payload : Bytes) :
    writer.Extends (writer.append kind payload).2 where
  form := rfl
  bytes := List.prefix_append _ _
  consistent consistent := by
    constructor
    · intro block member
      rw [length_append]
      rcases List.mem_cons.1 member with rfl | earlier
      · exact Nat.le_add_right _ _
      · have := consistent.starts block earlier
        omega
    · intro stored
      have before := consistent.uncompressed stored
      have packing : writer.form.packing = .stored := stored
      rw [length_append, BlockForm.size, packing]
      simp only [append, Packing.compress]
      omega

theorem start_lt_of_lookup (consistent : writer.Consistent)
    (small : writer.bytes.length < 0x8000_0000_0000_0000) :
    ∀ start ∈ writer.starts.lookup kind, start < 0x8000_0000_0000_0000 := by
  intro start found
  have member : (kind, start) ∈ writer.starts := by
    obtain ⟨before, after, whole, -⟩ := List.lookup_eq_some_iff.1 found
    simp [whole]
  have := consistent.starts (kind, start) member
  omega

theorem holds_append (consistent : writer.Consistent) {payload : Bytes}
    (within : (writer.append kind payload).2.bytes <+: source.bytes)
    (small : source.bytes.length < 0x8000_0000_0000_0000) :
    source.Holds writer.form writer.bytes.length kind payload := by
  obtain ⟨after, whole⟩ := within
  rw [bytes_append, List.append_assoc] at whole
  have shorter : writer.bytes.length < 0x8000_0000_0000_0000 := by
    have := congrArg List.length whole
    rw [List.length_append] at this
    omega
  exact ⟨writer.bytes, _, after, whole.symm, rfl, start_lt_of_lookup consistent shorter⟩

theorem extends_appendAll (kind : BlockKind) (blocks : List (Bytes × Bytes))
    (writer : BlockWriter) : writer.Extends (appendAll kind blocks writer).2 := by
  induction blocks generalizing writer with
  | nil => exact .refl writer
  | cons block blocks ih =>
    exact (extends_append writer kind block.2).trans (ih _)

theorem length_entries_appendAll (kind : BlockKind) (blocks : List (Bytes × Bytes))
    (writer : BlockWriter) : (appendAll kind blocks writer).1.length = blocks.length := by
  induction blocks generalizing writer with
  | nil => rfl
  | cons block blocks ih => exact congrArg (· + 1) (ih _)

theorem leads_appendAll (consistent : writer.Consistent) {blocks : List (Bytes × Bytes)}
    (within : (appendAll kind blocks writer).2.bytes <+: source.bytes)
    (small : source.bytes.length < 0x8000_0000_0000_0000) :
    List.Forall₂ (source.Leads writer.form kind) (appendAll kind blocks writer).1 blocks := by
  induction blocks generalizing writer with
  | nil => exact .nil
  | cons block blocks ih =>
    have step := extends_append writer kind block.2
    have rest := extends_appendAll kind blocks (writer.append kind block.2).2
    refine .cons ⟨rfl, ?_, ?_⟩ (ih (step.consistent consistent) within)
    · exact BlockForm.length_encode ..
    · exact holds_append consistent (rest.bytes.trans within) small

theorem length_appendAll (stored : writer.form.packing = .stored) (kind : BlockKind)
    (blocks : List (Bytes × Bytes)) :
    writer.bytes.length + (blocks.map fun block => block.2.length).sum ≤
      (appendAll kind blocks writer).2.bytes.length := by
  induction blocks generalizing writer with
  | nil => exact Nat.le_refl _
  | cons block blocks ih =>
    have later := @ih (writer.append kind block.2).2 stored
    have room : block.2.length ≤ writer.form.size block.2 := by
      rw [BlockForm.size, stored]
      simp only [Packing.compress]
      omega
    rw [length_append] at later
    rw [List.map_cons, List.sum_cons]
    have same : (appendAll kind (block :: blocks) writer).2 =
        (appendAll kind blocks (writer.append kind block.2).2).2 := rfl
    rw [same]
    omega

end BlockWriter

end CellStore
