import CellStore.Blueprint
import CellStore.Proofs.Delta

namespace CellStore

namespace Delta

variable {format : RecordFormat} {m previous : Mutation}

theorem length_key_le_writeLater (format : RecordFormat) (row : m.row.length ≤ 65535)
    (before : previous.row.length ≤ 65535) (families : m.family = previous.family) :
    m.key.length ≤ previous.key.length + (writeLater format m previous).length := by
  have column : (writeColumn m (sharedKeyLength m previous)).length
      ≤ (writeLater format m previous).length := by
    simp only [writeLater, List.length_cons, List.length_append]
    omega
  suffices m.key.length ≤
      previous.key.length + (writeColumn m (sharedKeyLength m previous)).length by omega
  have rowInside : 2 + m.row.length ≤ m.key.length := by
    rw [Mutation.length_key]
    omega
  cases (sharedKeyLength_spec row before families).1 with
  | row inRow inPrevious =>
    rw [writeColumn, if_pos inRow, List.length_append, Bytes.length_drop_take rowInside,
      Mutation.length_key, Mutation.length_key, families]
    omega
  | qualifier past sameRow inKey inPrevious =>
    have pastRow : ¬ sharedKeyLength m previous < 2 + m.row.length := by
      rw [qualifierStart] at past
      omega
    rw [writeColumn, if_neg pastRow, Bytes.length_drop_take (Nat.sub_le _ _)]
    omega

theorem length_value_le_writeLater (format : RecordFormat) (m previous : Mutation) :
    m.value.length ≤ previous.value.length + (writeLater format m previous).length := by
  by_cases same : m.value = previous.value
  · rw [same]
    exact Nat.le_add_right ..
  · have written : (Flags.ofPair m previous).sameValue = false := by simp [Flags.ofPair, same]
    simp only [writeLater, written, List.length_cons, List.length_append]
    simp
    omega

theorem lengths_le_writeAfter (format : RecordFormat) {ms : List Mutation}
    (rows : ∀ m ∈ previous :: ms, m.row.length ≤ 65535)
    (families : ∀ m ∈ ms, m.family = previous.family) :
    ∀ m ∈ ms, m.key.length ≤ previous.key.length + (writeAfter format previous ms).length
      ∧ m.value.length ≤ previous.value.length + (writeAfter format previous ms).length := by
  induction ms generalizing previous with
  | nil => exact fun _ member => (List.not_mem_nil member).elim
  | cons next ms ih =>
    have family := families next List.mem_cons_self
    have key := length_key_le_writeLater format (rows next (by simp))
      (rows previous List.mem_cons_self) family
    have value := length_value_le_writeLater format next previous
    have later := ih (fun m member => rows m (List.mem_cons_of_mem _ member))
      (fun m member => (families m (List.mem_cons_of_mem _ member)).trans family.symm)
    intro m member
    rw [writeAfter, List.length_append]
    rcases List.mem_cons.1 member with rfl | member
    · omega
    · have := later m member
      omega

theorem lengths_le_encode (format : RecordFormat) {ms : List Mutation} {family : Bytes}
    (rows : ∀ m ∈ ms, m.row.length ≤ 65535) (families : ∀ m ∈ ms, m.family = family) :
    ∀ m ∈ ms, m.key.length ≤ (encode format ms).length
      ∧ m.value.length ≤ (encode format ms).length := by
  cases ms with
  | nil => exact fun _ member => (List.not_mem_nil member).elim
  | cons first ms =>
    have whole : first.key.length + first.value.length ≤ (writeFirst format first).length := by
      simp only [writeFirst, List.length_cons, List.length_append]
      omega
    have later := lengths_le_writeAfter format rows fun m member =>
      (families m (List.mem_cons_of_mem _ member)).trans (families first List.mem_cons_self).symm
    intro m member
    rw [encode, List.length_append]
    rcases List.mem_cons.1 member with rfl | member
    · omega
    · have := later m member
      omega

theorem length_le_encode (format : RecordFormat) (ms : List Mutation) :
    ms.length ≤ (encode format ms).length := by
  have after (previous : Mutation) (ms : List Mutation) :
      ms.length ≤ (writeAfter format previous ms).length := by
    induction ms generalizing previous with
    | nil => exact Nat.le_refl _
    | cons m ms ih =>
      have := ih m
      simp only [writeAfter, writeLater, List.length_append, List.length_cons]
      omega
  cases ms with
  | nil => exact Nat.le_refl _
  | cons m ms =>
    have := after m ms
    simp only [encode, writeFirst, List.length_append, List.length_cons]
    omega

end Delta

namespace Mutation

def encodeAll (format : RecordFormat) (ms : List Mutation) : Bytes :=
  ms.flatMap fun m => (m.record format).encode

variable {format : RecordFormat}

theorem lengths_le_encodeAll {m : Mutation} {ms : List Mutation} (member : m ∈ ms) :
    m.key.length ≤ (encodeAll format ms).length
      ∧ m.value.length ≤ (encodeAll format ms).length := by
  obtain ⟨before, after, rfl⟩ := List.append_of_mem member
  simp only [encodeAll, List.flatMap_append, List.flatMap_cons, List.length_append, Record.encode,
    record]
  omega

theorem length_le_encodeAll (format : RecordFormat) (ms : List Mutation) :
    ms.length ≤ (encodeAll format ms).length := by
  induction ms with
  | nil => exact Nat.le_refl _
  | cons m ms ih =>
    simp only [encodeAll, List.flatMap_cons, List.length_append, List.length_cons, Record.encode,
      Bytes.length_ofNat] at ih ⊢
    omega

end Mutation

namespace Blueprint

variable {encoding : Encoding} {format : RecordFormat} {family : Bytes} {block : List Mutation}

theorem length_le_encodeBlock (encoding : Encoding) (format : RecordFormat)
    (block : List Mutation) : block.length ≤ (encodeBlock encoding format block).length := by
  cases encoding with
  | plain => exact Mutation.length_le_encodeAll format block
  | fastDiff =>
    have := Delta.length_le_encode format block
    simp only [encodeBlock, List.length_append]
    omega

theorem lengths_le_encodeBlock (encoding : Encoding) (fits : ∀ m ∈ block, m.Fits format)
    (families : encoding = .fastDiff → ∀ m ∈ block, m.family = family) :
    ∀ m ∈ block, m.key.length ≤ (encodeBlock encoding format block).length
      ∧ m.value.length ≤ (encodeBlock encoding format block).length := by
  intro m member
  cases encoding with
  | plain => exact Mutation.lengths_le_encodeAll member
  | fastDiff =>
    have := Delta.lengths_le_encode format (fun m member => (fits m member).row)
      (families rfl) m member
    simp only [encodeBlock, List.length_append]
    omega

theorem decodeBlock_encodeBlock (fits : ∀ m ∈ block, m.Fits format)
    (families : ∀ m ∈ block, m.family = family)
    (small : (encodeBlock .fastDiff format block).length < 0x8000_0000) :
    Encoding.decodeBlock .fastDiff format (encodeBlock .fastDiff format block) =
      .ok (Mutation.encodeAll format block) := by
  have delta : ∀ m ∈ block, Delta.Fits format family m := by
    intro m member
    have fit := fits m member
    have lengths := lengths_le_encodeBlock .fastDiff fits (fun _ => families) m member
    exact ⟨fit.row, families m member, families m member ▸ fit.family, by omega, by omega,
      fit.tags⟩
  have id := (Input.reads_number 2 Encoding.fastDiff.id "encoded block id" (by decide)).eq
  have size := (Input.reads_wrapped 4 (Mutation.encodeAll format block).length
    "encoded block size").eq
  have whole : encodeBlock .fastDiff format block = Bytes.ofNat 2 Encoding.fastDiff.id
      ++ (Bytes.ofNat 4 (Mutation.encodeAll format block).length ++ Delta.encode format block) := by
    rw [← List.append_assoc]
    rfl
  have records := Delta.records_encode delta
  simp only [Encoding.decodeBlock, Input.ofBytes]
  generalize (encodeBlock .fastDiff format block).length = length at *
  rw [whole]
  simp only [id, ok_bind, size, Encoding.ofId, Encoding.ofId?_id, ne_eq, not_true_eq_false,
    if_false, Delta.decode, records, pure_eq_ok, List.flatMap_map]
  rfl

theorem flatten_cutFrom (format : RecordFormat) (blockSize : Nat) (block : List Mutation)
    (used : Nat) (ms : List Mutation) :
    (cutFrom format blockSize block used ms).flatten = block.reverse ++ ms := by
  fun_induction cutFrom format blockSize block used ms with
  | case1 block used empty => simp_all
  | case2 block used nonempty => simp
  | case3 block used m ms length open_ ih => simpa using ih
  | case4 block used m ms length full ih => simp [ih]

theorem flatten_cut (format : RecordFormat) (blockSize : Nat) (ms : List Mutation) :
    (cut format blockSize ms).flatten = ms := flatten_cutFrom format blockSize [] 0 ms

theorem ne_nil_of_mem_cutFrom {blockSize used : Nat} {current ms : List Mutation}
    (member : block ∈ cutFrom format blockSize current used ms) : block ≠ [] := by
  fun_induction cutFrom format blockSize current used ms with
  | case1 current used empty => cases member
  | case2 current used nonempty => simp_all
  | case3 current used m ms length open_ ih => exact ih member
  | case4 current used m ms length full ih =>
    rcases List.mem_cons.1 member with rfl | member
    · simp only [not_or] at full
      simpa using full.1
    · exact ih member

theorem ne_nil_of_mem_cut {blockSize : Nat} {ms : List Mutation}
    (member : block ∈ cut format blockSize ms) : block ≠ [] := ne_nil_of_mem_cutFrom member

theorem length_cut_le (format : RecordFormat) (blockSize : Nat) (ms : List Mutation) :
    (cut format blockSize ms).length ≤ ms.length := by
  have each (blocks : List (List Mutation)) (nonempty : ∀ block ∈ blocks, block ≠ []) :
      blocks.length ≤ blocks.flatten.length := by
    induction blocks with
    | nil => exact Nat.le_refl _
    | cons block blocks ih =>
      have first := List.length_pos_iff.2 (nonempty block List.mem_cons_self)
      have later := ih fun block member => nonempty block (List.mem_cons_of_mem _ member)
      simp only [List.length_cons, List.flatten_cons, List.length_append]
      omega
  have blocks := each (cut format blockSize ms) fun _ => ne_nil_of_mem_cut
  rwa [flatten_cut] at blocks

theorem mem_of_mem_cut {blockSize : Nat} {ms : List Mutation} {m : Mutation}
    (member : block ∈ cut format blockSize ms) (inside : m ∈ block) : m ∈ ms := by
  rw [← flatten_cut format blockSize ms]
  exact List.mem_flatten_of_mem member inside

end Blueprint

end CellStore
