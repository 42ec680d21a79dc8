import CellStore.Proofs.Writer

namespace CellStore

/-- A block is read at its place, and from bytes that start like those there. -/
structure Place.Frames (place : Place) (output : Bytes) (block : Block) : Prop where
  read : Block.read (Source.ofBytes output) place.offset .stored = .ok block
  parse : ∀ rest, Block.parse ((output.drop place.offset).take place.size ++ rest) place.offset
    .stored = .ok block
  next : block.next = place.offset + place.size

namespace BlockWriter

def appendEach : List (BlockKind × Bytes) → BlockWriter → List Place × BlockWriter
  | [], writer => ([], writer)
  | (kind, payload) :: blocks, writer =>
    let (place, writer) := writer.append kind payload
    let (places, writer) := appendEach blocks writer
    (place :: places, writer)

def startsOf (blocks : List (BlockKind × Bytes)) (places : List Place) : List (BlockKind × Nat) :=
  List.zipWith (fun block place => (block.1, place.offset)) blocks places

variable {writer : BlockWriter} {form : BlockForm} {kind : BlockKind} {payload output : Bytes}
  {blocks : List (BlockKind × Bytes)}

theorem appendEach_append (before after : List (BlockKind × Bytes)) (writer : BlockWriter) :
    appendEach (before ++ after) writer =
      ((appendEach before writer).1 ++ (appendEach after (appendEach before writer).2).1,
        (appendEach after (appendEach before writer).2).2) := by
  induction before generalizing writer with
  | nil => rfl
  | cons block before ih =>
    simp only [List.cons_append, appendEach, ih]

theorem length_appendEach (blocks : List (BlockKind × Bytes)) (writer : BlockWriter) :
    (appendEach blocks writer).1.length = blocks.length := by
  induction blocks generalizing writer with
  | nil => rfl
  | cons block blocks ih => exact congrArg (· + 1) (ih _)

theorem extends_appendEach (blocks : List (BlockKind × Bytes)) (writer : BlockWriter) :
    writer.Extends (appendEach blocks writer).2 := by
  induction blocks generalizing writer with
  | nil => exact .refl writer
  | cons block blocks ih => exact (extends_append writer block.1 block.2).trans (ih _)

theorem starts_appendEach (blocks : List (BlockKind × Bytes)) (writer : BlockWriter) :
    (appendEach blocks writer).2.starts =
      (startsOf blocks (appendEach blocks writer).1).reverse ++ writer.starts := by
  induction blocks generalizing writer with
  | nil => rfl
  | cons block blocks ih =>
    have later := ih (writer.append block.1 block.2).2
    simp only [appendEach, later, startsOf, List.zipWith_cons_cons, List.reverse_cons,
      List.append_assoc]
    rfl

theorem take_startsOf {places later : List Place} (count : places.length = blocks.length)
    {after : List (BlockKind × Bytes)} :
    (startsOf (blocks ++ after) (places ++ later)).take blocks.length = startsOf blocks places := by
  rw [startsOf, List.zipWith_append count.symm]
  exact List.take_left' (by simp [count])

theorem next_appendEach (blocks : List (BlockKind × Bytes)) (writer : BlockWriter) :
    (appendEach blocks writer).1.head?.elim (appendEach blocks writer).2.bytes.length (·.offset) =
      writer.bytes.length := by
  cases blocks <;> rfl

theorem frames_append (stored : writer.form.packing = .stored)
    (verifiable : writer.form.Verifiable) (fits : writer.form.Fits payload)
    (consistent : writer.Consistent) (within : (writer.append kind payload).2.bytes <+: output)
    (small : output.length < 0x8000_0000_0000_0000) :
    ∃ block, (writer.append kind payload).1.Frames output block ∧ block.kind = kind
      ∧ block.data = payload
      ∧ block.header.previous = (writer.starts.lookup kind).elim (-1) Int.ofNat := by
  obtain ⟨after, rfl⟩ := within
  rw [bytes_append, List.append_assoc] at small ⊢
  have shorter : writer.bytes.length < 0x8000_0000_0000_0000 := by
    rw [List.length_append] at small
    omega
  have starts : ∀ start ∈ writer.starts.lookup kind, start < 0x8000_0000_0000_0000 :=
    start_lt_of_lookup consistent shorter
  refine ⟨⟨writer.form.header kind (writer.starts.lookup kind) payload, kind, writer.bytes.length,
    payload⟩, ⟨?_, fun rest => ?_, ?_⟩, rfl, rfl, rfl⟩
  · exact Block.read_encode verifiable stored fits starts rfl
  · have here : ((writer.bytes ++ (writer.form.encode kind (writer.starts.lookup kind) payload
        ++ after)).drop (writer.append kind payload).1.offset).take
          (writer.append kind payload).1.size =
        writer.form.encode kind (writer.starts.lookup kind) payload := by
      simp only [append, List.drop_left, List.take_left]
    rw [here]
    exact Block.parse_encode verifiable stored fits starts rest _
  · simp only [append, BlockForm.length_encode]
    rfl

/-- What is written is read back block by block, each with its kind and its payload, and with the
places of the next block and of the last one before of its kind. -/
theorem frames_appendEach (stored : form.packing = .stored) (verifiable : form.Verifiable)
    (fits : ∀ block ∈ blocks, form.Fits block.2)
    (small : (appendEach blocks (start form)).2.bytes.length < 0x8000_0000_0000_0000) :
    let (places, writer) := appendEach blocks (start form)
    places.length = blocks.length ∧ ∀ i kind payload, blocks[i]? = some (kind, payload) →
      ∃ place block, places[i]? = some place ∧ place.Frames writer.bytes block
        ∧ block.kind = kind ∧ block.data = payload
        ∧ places[i + 1]?.elim writer.bytes.length (·.offset) = block.next
        ∧ block.header.previous =
          (((startsOf blocks places).take i).reverse.lookup kind).elim (-1) Int.ofNat := by
  refine ⟨length_appendEach blocks _, fun i kind payload here => ?_⟩
  obtain ⟨before, after, rfl, rfl⟩ : ∃ before after, blocks = before ++ (kind, payload) :: after
      ∧ before.length = i := by
    obtain ⟨inside, there⟩ := List.getElem?_eq_some_iff.1 here
    refine ⟨blocks.take i, blocks.drop (i + 1), ?_, List.length_take_of_le (Nat.le_of_lt inside)⟩
    rw [← there, ← List.drop_eq_getElem_cons inside, List.take_append_drop]
  let first := appendEach before (start form)
  let place := first.2.append kind payload
  let later := appendEach after place.2
  have whole : appendEach (before ++ (kind, payload) :: after) (start form) =
      (first.1 ++ place.1 :: later.1, later.2) := appendEach_append ..
  have count : first.1.length = before.length := length_appendEach ..
  have written := extends_appendEach before (start form)
  have within : place.2.bytes <+: later.2.bytes := (extends_appendEach after place.2).bytes
  have known : first.2.starts = (startsOf before first.1).reverse := by
    have := starts_appendEach before (start form)
    rwa [start, List.append_nil] at this
  rw [whole] at small ⊢
  obtain ⟨block, frames, sameKind, data, previous⟩ :=
    frames_append (written.form ▸ stored) (written.form ▸ verifiable)
      (written.form ▸ fits (kind, payload) (by simp))
      (written.consistent (consistent_start form)) within small
  refine ⟨place.1, block, ?_, frames, sameKind, data, ?_, ?_⟩
  · rw [← count, List.getElem?_append_right (Nat.le_refl _), Nat.sub_self]
    rfl
  · have behind : (first.1 ++ place.1 :: later.1)[before.length + 1]? = later.1.head? := by
      rw [← count, List.getElem?_append_right (Nat.le_add_right _ 1), Nat.add_sub_cancel_left,
        List.getElem?_cons_succ, List.head?_eq_getElem?]
    have next : later.1.head?.elim later.2.bytes.length (·.offset) = place.2.bytes.length :=
      next_appendEach after place.2
    have length : place.2.bytes.length = place.1.offset + place.1.size := by
      simp only [place, append, List.length_append]
    rw [behind, next, length, frames.next]
  · rw [previous, take_startsOf count, known]

def smallChunks : BlockForm := ⟨.stored, .crc32, 16⟩

def twoKinds : List (BlockKind × Bytes) := [(.data, [1, 2]), (.metadata, [3]), (.data, [])]

theorem frames_appendEach_twoKinds : smallChunks.packing = .stored ∧ smallChunks.Verifiable
    ∧ (∀ block ∈ twoKinds, smallChunks.Fits block.2)
    ∧ (appendEach twoKinds (start smallChunks)).2.bytes.length < 0x8000_0000_0000_0000
    ∧ ∃ place block, (appendEach twoKinds (start smallChunks)).1[2]? = some place
      ∧ place.Frames (appendEach twoKinds (start smallChunks)).2.bytes block
      ∧ block.kind = .data ∧ block.data = [] ∧ block.header.previous = 0 := by
  have verifiable : smallChunks.Verifiable := by decide
  have fits : ∀ block ∈ twoKinds, smallChunks.Fits block.2 := by decide
  have small : (appendEach twoKinds (start smallChunks)).2.bytes.length
      < 0x8000_0000_0000_0000 := by
    decide +kernel
  obtain ⟨-, each⟩ := frames_appendEach rfl verifiable fits small
  obtain ⟨place, block, here, frames, kind, data, -, previous⟩ := each 2 .data [] rfl
  have first :
      (((startsOf twoKinds (appendEach twoKinds (start smallChunks)).1).take 2).reverse.lookup
        .data).elim (-1) Int.ofNat = 0 := by
    decide +kernel
  exact ⟨rfl, verifiable, fits, small, place, block, here, frames, kind, data, previous.trans first⟩

end BlockWriter

end CellStore
