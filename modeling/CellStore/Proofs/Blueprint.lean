import CellStore.Blueprint.Build
import CellStore.Proofs.DataBlock
import CellStore.Proofs.IndexLevels
import CellStore.Proofs.StableSort
import CellStore.Proofs.Trailer

namespace CellStore.Blueprint

variable (plan : Blueprint)

/-- The mutations in order. A sort by insertion is one that the kernel can run. -/
def sorted : List Mutation := plan.mutations.insertionSort fun a b => a.order b ≠ .gt

theorem stableSort_sorted : StableSort Mutation.order plan.mutations plan.sorted :=
  .insertionSort plan.mutations

theorem mem_sorted {plan : Blueprint} {m : Mutation} : m ∈ plan.sorted ↔ m ∈ plan.mutations :=
  plan.stableSort_sorted.perm.mem_iff

theorem rows_sorted : plan.sorted.Pairwise fun a b => compare a.row b.row ≠ .gt :=
  plan.stableSort_sorted.ascending.imp Mutation.rows_of_order

theorem sort_mutations : Mutation.sort plan.mutations = plan.sorted :=
  (Mutation.stableSort_sort plan.mutations).unique plan.stableSort_sorted

def dataStage : List IndexEntry × BlockWriter :=
  (BlockWriter.start plan.form).appendAll (dataKind plan.encoding) (plan.dataBlocks plan.sorted)

def chunkBlocks : List (Bytes × Bytes) := plan.bloom.elim [] fun bloom => bloom.chunks plan.sorted

def chunkStage : List IndexEntry × BlockWriter :=
  plan.dataStage.2.appendAll .bloomChunk plan.chunkBlocks

def namedBlocks : List (Bytes × Bytes) :=
  plan.metaBlocks.map fun (name, bytes) => (Utf8.encode name, bytes)

def metaStage : List IndexEntry × BlockWriter :=
  plan.chunkStage.2.appendAll .metadata plan.namedBlocks

def indexStage : IndexLevels × BlockWriter :=
  IndexLevels.build plan.fanout plan.dataStage.1.length (.ofData plan.dataStage.1) plan.metaStage.2

def root : Bytes := plan.indexStage.1.encodeRoot plan.fanout plan.dataStage.1.length

def rootStage : Place × BlockWriter := plan.indexStage.2.append .rootIndex plan.root

def metaRoot : Bytes := Index.encodeRoot plan.metaStage.1

def metaIndexStage : Place × BlockWriter := plan.rootStage.2.append .rootIndex plan.metaRoot

def infoStage : Place × BlockWriter :=
  plan.metaIndexStage.2.append .fileInfo (plan.info plan.sorted).encode

def filter? : Option (BlockKind × BloomFilter) :=
  plan.bloom.map fun bloom => (bloom.metaKind, bloom.filter plan.sorted plan.chunkStage.1)

def filterStage : BlockWriter :=
  match plan.filter? with
  | some (kind, filter) => (plan.infoStage.2.append kind filter.encode).2
  | none => plan.infoStage.2

def trailer : TrailerFields where
  fileInfoOffset := some plan.infoStage.1.offset
  loadOnOpenOffset := some plan.rootStage.1.offset
  uncompressedIndexSize := some (plan.indexStage.1.byteSize + plan.root.length)
  totalUncompressedBytes := some plan.filterStage.uncompressedBytes
  dataIndexCount := some plan.indexStage.1.top.length
  metaIndexCount := some plan.metaStage.1.length
  entryCount := some plan.sorted.length
  indexLevels := some plan.indexStage.1.levels
  firstDataOffset := plan.dataStage.1.head?.map (·.offset)
  lastDataOffset := plan.dataStage.1.getLast?.map (·.offset)
  comparator := some comparator
  codecId := some plan.form.packing.codec.id

theorem bytes_eq : plan.bytes =
    plan.filterStage.bytes ++ Trailer.encode plan.trailer plan.minorVersion := by
  rw [bytes, build, sort_mutations]
  obtain ⟨form, encoding, blockSize, fanout, format, bloom, minorVersion, metaBlocks, extraInfo,
    mutations⟩ := plan
  cases bloom <;> rfl

theorem length_bytes :
    plan.bytes.length = plan.filterStage.bytes.length + Trailer.size := by
  rw [bytes_eq, List.length_append, Trailer.length_encode]

def layout : Layout where
  dataBlocks := plan.dataStage.1.map (·.place)
  bloomChunks := plan.chunkStage.1.map (·.place)
  metaBlocks := plan.metaStage.1.map (·.place)
  indexBlocks := plan.indexStage.1.blocks
  rootIndex := plan.rootStage.1
  metaIndex := plan.metaIndexStage.1
  fileInfo := plan.infoStage.1
  bloomMeta := plan.filter?.map fun filter =>
    (plan.infoStage.2.append filter.1 filter.2.encode).1
  trailerOffset := plan.filterStage.bytes.length
  indexLevels := plan.indexStage.1.levels

theorem layout_eq : plan.build.2 = plan.layout := by
  rw [build, sort_mutations]
  obtain ⟨form, encoding, blockSize, fanout, format, bloom, minorVersion, metaBlocks, extraInfo,
    mutations⟩ := plan
  cases bloom <;> rfl

def payloads : List Bytes :=
  (plan.dataBlocks plan.sorted).map (·.2) ++ plan.chunkBlocks.map (·.2)
    ++ plan.namedBlocks.map (·.2)
    ++ IndexLevels.payloads plan.fanout plan.dataStage.1.length (.ofData plan.dataStage.1)
      plan.metaStage.2
    ++ [plan.root, plan.metaRoot, (plan.info plan.sorted).encode]
    ++ plan.filter?.toList.map (·.2.encode)

/-- What a plan has to keep to for its file to be read: blocks are stored as they are, under sizes
that their headers can tell, and offsets into the file are signed numbers of 64 bits. -/
structure Sound : Prop where
  stored : plan.form.packing = .stored
  verifiable : plan.form.Verifiable
  fanout : 2 ≤ plan.fanout
  blocks : ∀ payload ∈ plan.payloads, plan.form.Fits payload
  small : plan.bytes.length < 0x8000_0000_0000_0000

structure Stage (writer : BlockWriter) : Prop where
  before : (BlockWriter.start plan.form).Extends writer
  after : writer.Extends plan.filterStage

variable {plan}

instance : Decidable plan.Sound :=
  decidable_of_iff (plan.form.packing = .stored ∧ plan.form.Verifiable ∧ 2 ≤ plan.fanout
      ∧ (∀ payload ∈ plan.payloads, plan.form.Fits payload)
      ∧ plan.filterStage.bytes.length + Trailer.size < 0x8000_0000_0000_0000)
    ⟨fun ⟨stored, verifiable, fanout, blocks, small⟩ =>
      ⟨stored, verifiable, fanout, blocks, plan.length_bytes ▸ small⟩,
    fun ⟨stored, verifiable, fanout, blocks, small⟩ =>
      ⟨stored, verifiable, fanout, blocks, plan.length_bytes ▸ small⟩⟩

namespace Stage

variable {writer : BlockWriter}

theorem form (stage : plan.Stage writer) : writer.form = plan.form := stage.before.form

theorem consistent (stage : plan.Stage writer) : writer.Consistent :=
  stage.before.consistent (BlockWriter.consistent_start plan.form)

theorem within (stage : plan.Stage writer) : writer.bytes <+: plan.bytes := by
  rw [bytes_eq]
  exact stage.after.bytes.trans (List.prefix_append _ _)

theorem length_le (stage : plan.Stage writer) : writer.bytes.length ≤ plan.bytes.length :=
  stage.within.length_le

end Stage

theorem extends_filter (plan : Blueprint) : plan.infoStage.2.Extends plan.filterStage := by
  rw [filterStage]
  split
  · exact BlockWriter.extends_append ..
  · exact .refl _

structure Stages (plan : Blueprint) : Prop where
  data : plan.Stage plan.dataStage.2
  chunks : plan.Stage plan.chunkStage.2
  metas : plan.Stage plan.metaStage.2
  index : plan.Stage plan.indexStage.2
  root : plan.Stage plan.rootStage.2
  metaIndex : plan.Stage plan.metaIndexStage.2
  info : plan.Stage plan.infoStage.2
  filter : plan.Stage plan.filterStage

theorem stages (plan : Blueprint) : plan.Stages := by
  have data := BlockWriter.extends_appendAll (dataKind plan.encoding) (plan.dataBlocks plan.sorted)
    (BlockWriter.start plan.form)
  have chunks := BlockWriter.extends_appendAll .bloomChunk plan.chunkBlocks plan.dataStage.2
  have metas := BlockWriter.extends_appendAll .metadata plan.namedBlocks plan.chunkStage.2
  have index := IndexLevels.extends_build plan.fanout plan.dataStage.1.length
    (.ofData plan.dataStage.1) plan.metaStage.2
  have root := BlockWriter.extends_append plan.indexStage.2 .rootIndex plan.root
  have metaIndex := BlockWriter.extends_append plan.rootStage.2 .rootIndex plan.metaRoot
  have info := BlockWriter.extends_append plan.metaIndexStage.2 .fileInfo
    (plan.info plan.sorted).encode
  have toChunks := data.trans chunks
  have toMetas := toChunks.trans metas
  have toIndex := toMetas.trans index
  have toRoot := toIndex.trans root
  have toMetaIndex := toRoot.trans metaIndex
  have toInfo := toMetaIndex.trans info
  have fromInfo := extends_filter plan
  have fromMetaIndex := info.trans fromInfo
  have fromRoot := metaIndex.trans fromMetaIndex
  have fromIndex := root.trans fromRoot
  have fromMetas := index.trans fromIndex
  have fromChunks := metas.trans fromMetas
  exact {
    data := ⟨data, chunks.trans fromChunks⟩
    chunks := ⟨toChunks, fromChunks⟩
    metas := ⟨toMetas, fromMetas⟩
    index := ⟨toIndex, fromIndex⟩
    root := ⟨toRoot, fromRoot⟩
    metaIndex := ⟨toMetaIndex, fromMetaIndex⟩
    info := ⟨toInfo, fromInfo⟩
    filter := ⟨toInfo.trans fromInfo, .refl _⟩ }

section Sound

variable (sound : plan.Sound)

include sound

theorem fits_data : ∀ block ∈ plan.dataBlocks plan.sorted, plan.form.Fits block.2 := by
  intro block member
  apply sound.blocks
  simp only [payloads, List.mem_append]
  exact .inl (.inl (.inl (.inl (.inl (List.mem_map_of_mem member)))))

theorem fits_chunk : ∀ block ∈ plan.chunkBlocks, plan.form.Fits block.2 := by
  intro block member
  apply sound.blocks
  simp only [payloads, List.mem_append]
  exact .inl (.inl (.inl (.inl (.inr (List.mem_map_of_mem member)))))

theorem fits_meta : ∀ block ∈ plan.namedBlocks, plan.form.Fits block.2 := by
  intro block member
  apply sound.blocks
  simp only [payloads, List.mem_append]
  exact .inl (.inl (.inl (.inr (List.mem_map_of_mem member))))

theorem fits_index : ∀ payload ∈ IndexLevels.payloads plan.fanout plan.dataStage.1.length
    (.ofData plan.dataStage.1) plan.metaStage.2, plan.form.Fits payload := by
  intro payload member
  apply sound.blocks
  simp only [payloads, List.mem_append]
  exact .inl (.inl (.inr member))

theorem fits_root : plan.form.Fits plan.root := by
  apply sound.blocks
  simp [payloads]

theorem fits_metaRoot : plan.form.Fits plan.metaRoot := by
  apply sound.blocks
  simp [payloads]

theorem fits_info : plan.form.Fits (plan.info plan.sorted).encode := by
  apply sound.blocks
  simp [payloads]

theorem fits_filter : ∀ filter ∈ plan.filter?, plan.form.Fits filter.2.encode := by
  intro filter given
  have here : plan.filter? = some filter := given
  apply sound.blocks
  simp [payloads, here]

theorem root_length : (Index.encodeRoot plan.indexStage.1.top).length < 0x8000_0000 := by
  have := (fits_root sound).expanded
  rw [root, IndexLevels.encodeRoot, List.length_append] at this
  omega

theorem top_length : plan.indexStage.1.top.length < 0x8000_0000 := by
  have := Index.length_le_encodeRoot plan.indexStage.1.top
  have := root_length sound
  omega

theorem metas_length : plan.metaStage.1.length < 0x8000_0000 := by
  have := Index.length_le_encodeRoot plan.metaStage.1
  have := (fits_metaRoot sound).expanded
  rw [metaRoot] at this
  omega

omit sound in
theorem length_sorted_le (stored : plan.form.packing = .stored) :
    plan.sorted.length ≤ plan.bytes.length := by
  have each : ∀ blocks : List (List Mutation), blocks.flatten.length ≤
      (blocks.map fun block => (encodeBlock plan.encoding plan.format block).length).sum := by
    intro blocks
    induction blocks with
    | nil => exact Nat.le_refl _
    | cons block blocks ih =>
      have := length_le_encodeBlock plan.encoding plan.format block
      simp only [List.flatten_cons, List.length_append, List.map_cons, List.sum_cons]
      omega
  have whole := each (cut plan.format plan.blockSize plan.sorted)
  have start : (BlockWriter.start plan.form).form.packing = .stored := stored
  have room := BlockWriter.length_appendAll start (dataKind plan.encoding)
    (plan.dataBlocks plan.sorted)
  have inside := plan.stages.data.length_le
  rw [flatten_cut] at whole
  simp only [dataBlocks, List.map_map, Function.comp_def] at room
  simp only [dataStage, dataBlocks] at inside
  omega

theorem leads_data : List.Forall₂
    ((Source.ofBytes plan.bytes).Leads plan.form (dataKind plan.encoding)) plan.dataStage.1
    (plan.dataBlocks plan.sorted) :=
  BlockWriter.leads_appendAll (BlockWriter.consistent_start plan.form) plan.stages.data.within
    sound.small

theorem fits_dataEntries : ∀ entry ∈ plan.dataStage.1, entry.Fits :=
  Source.fits_of_leads (leads_data sound) sound.small (fits_data sound)

structure LeadsToData (plan : Blueprint) (entry : IndexEntry) (block : List Mutation) : Prop where
  member : block ∈ cut plan.format plan.blockSize plan.sorted
  leads : (Source.ofBytes plan.bytes).Leads plan.form (dataKind plan.encoding) entry
    (block.head?.elim [] (·.key), encodeBlock plan.encoding plan.format block)

/-- The top of the index leads to the data blocks in their order. -/
theorem spans_index : ∃ parts,
    List.Forall₂ ((Source.ofBytes plan.bytes).Spans plan.form plan.LeadsToData
      (plan.indexStage.1.levels - 1)) plan.indexStage.1.top parts
    ∧ parts.flatten = cut plan.format plan.blockSize plan.sorted := by
  have leads := leads_data sound
  rw [dataBlocks, List.forall₂_map_right_iff] at leads
  have data : List.Forall₂ ((Source.ofBytes plan.bytes).Spans plan.form plan.LeadsToData 0)
      plan.dataStage.1 ((cut plan.format plan.blockSize plan.sorted).map fun block => [block]) := by
    rw [List.forall₂_map_right_iff]
    have same := List.forall₂_same.2 fun block (_ : block ∈ cut plan.format plan.blockSize
      plan.sorted) => rfl (a := block)
    refine forall₂_through leads same ?_
    rintro entry block _ member leads rfl
    exact ⟨block, ⟨member, leads⟩, rfl⟩
  have form := plan.stages.metas.form
  have good : IndexLevels.Good (Source.ofBytes plan.bytes) plan.metaStage.2.form plan.LeadsToData
      (cut plan.format plan.blockSize plan.sorted) (.ofData plan.dataStage.1) := by
    refine ⟨Nat.one_pos, ⟨_, form ▸ data, ?_⟩, fits_dataEntries sound⟩
    rw [← List.flatMap_def, List.flatMap_singleton']
  have fanout := sound.fanout
  have built := IndexLevels.good_build good (by omega) plan.stages.metas.consistent
    plan.stages.index.within sound.small (form ▸ fits_index sound)
  exact form ▸ built.spans

theorem leads_chunks : List.Forall₂ ((Source.ofBytes plan.bytes).Leads plan.form .bloomChunk)
    plan.chunkStage.1 plan.chunkBlocks := by
  rw [← plan.stages.data.form]
  exact BlockWriter.leads_appendAll plan.stages.data.consistent plan.stages.chunks.within
    sound.small

theorem leads_metas : List.Forall₂ ((Source.ofBytes plan.bytes).Leads plan.form .metadata)
    plan.metaStage.1 plan.namedBlocks := by
  rw [← plan.stages.chunks.form]
  exact BlockWriter.leads_appendAll plan.stages.chunks.consistent plan.stages.metas.within
    sound.small

theorem holds_root : (Source.ofBytes plan.bytes).Holds plan.form plan.rootStage.1.offset .rootIndex
    plan.root := by
  rw [← plan.stages.index.form]
  exact BlockWriter.holds_append plan.stages.index.consistent plan.stages.root.within sound.small

theorem holds_metaRoot : (Source.ofBytes plan.bytes).Holds plan.form plan.metaIndexStage.1.offset
    .rootIndex plan.metaRoot := by
  rw [← plan.stages.root.form]
  exact BlockWriter.holds_append plan.stages.root.consistent plan.stages.metaIndex.within
    sound.small

theorem holds_info : (Source.ofBytes plan.bytes).Holds plan.form plan.infoStage.1.offset .fileInfo
    (plan.info plan.sorted).encode := by
  rw [← plan.stages.metaIndex.form]
  exact BlockWriter.holds_append plan.stages.metaIndex.consistent plan.stages.info.within
    sound.small

theorem levels_le : plan.indexStage.1.levels ≤ 64 := by
  have blocks : (IndexLevels.ofData plan.dataStage.1).top.length ≤ 0x8000_0000_0000_0000 := by
    have count : plan.dataStage.1.length = (cut plan.format plan.blockSize plan.sorted).length := by
      rw [dataStage, BlockWriter.length_entries_appendAll, dataBlocks, List.length_map]
    have := length_cut_le plan.format plan.blockSize plan.sorted
    have := length_sorted_le sound.stored
    have := sound.small
    simp only [IndexLevels.ofData]
    omega
  have levels : plan.indexStage.1.levels ≤ (IndexLevels.ofData plan.dataStage.1).levels + 63 :=
    IndexLevels.levels_build_le sound.fanout blocks
  rwa [IndexLevels.ofData] at levels

theorem byteSize_le :
    plan.indexStage.1.byteSize + plan.root.length ≤ plan.rootStage.2.bytes.length := by
  have index : plan.indexStage.1.byteSize ≤ plan.indexStage.2.bytes.length :=
    IndexLevels.byteSize_build_le (plan.stages.metas.form ▸ sound.stored) (Nat.zero_le _)
  have room : plan.root.length ≤ plan.indexStage.2.form.size plan.root := by
    rw [plan.stages.index.form, BlockForm.size, sound.stored]
    simp only [Packing.compress]
    omega
  rw [rootStage, BlockWriter.length_append]
  exact Nat.add_le_add index room

theorem fits_trailer : plan.trailer.Fits := by
  have small := sound.small
  have info := plan.stages.metaIndex.length_le
  have root := plan.stages.index.length_le
  have index := byteSize_le sound
  have inside := plan.stages.root.length_le
  have uncompressed := plan.stages.filter.consistent.uncompressed
    (plan.stages.filter.form ▸ sound.stored)
  have filter := plan.stages.filter.length_le
  have top := top_length sound
  have metas := metas_length sound
  have sorted := length_sorted_le sound.stored
  have levels := levels_le sound
  have entry (found : Option IndexEntry) (data : ∀ entry ∈ found, entry ∈ plan.dataStage.1) :
      ∀ offset ∈ found.map (·.offset), offset < 0x1_0000_0000_0000_0000 := by
    intro offset given
    obtain ⟨entry, here, rfl⟩ := Option.map_eq_some_iff.1 given
    have := (fits_dataEntries sound entry (data entry here)).offset
    omega
  have first := entry plan.dataStage.1.head? fun _ here => List.mem_of_mem_head? here
  have last := entry plan.dataStage.1.getLast? fun _ here => List.mem_of_mem_getLast? here
  constructor
  · simp only [TrailerFields.numbers, trailer, List.forall_mem_cons, Option.mem_def,
      Option.some.injEq, forall_eq', sound.stored, List.not_mem_nil, false_imp_iff, implies_true,
      and_true]
    have infoOffset : plan.infoStage.1.offset = plan.metaIndexStage.2.bytes.length := rfl
    have rootOffset : plan.rootStage.1.offset = plan.indexStage.2.bytes.length := rfl
    have codec : Packing.stored.codec.id = 2 := rfl
    refine ⟨?_, ?_, ?_, ?_, ?_, ?_, ?_, ?_, first, last, ?_⟩ <;> omega
  · intro text given
    obtain rfl := Option.some.inj given
    decide

theorem wrap_trailer : plan.trailer.wrap = plan.trailer := by
  have top := top_length sound
  have metas := metas_length sound
  have levels := levels_le sound
  have codec : Packing.stored.codec.id = 2 := rfl
  simp only [TrailerFields.wrap, trailer, Option.map_some, sound.stored, codec,
    Nat.mod_eq_of_lt (show plan.indexStage.1.top.length < 0x1_0000_0000 by omega),
    Nat.mod_eq_of_lt (show plan.metaStage.1.length < 0x1_0000_0000 by omega),
    Nat.mod_eq_of_lt (show plan.indexStage.1.levels < 0x1_0000_0000 by omega)]

omit sound in
theorem length_trailer (plan : Blueprint) :
    (Wire.writeDelimited plan.trailer.encode).length ≤ Trailer.size - 12 := by
  have fields := plan.trailer.length_encode
  have length := Wire.length_writeNumber plan.trailer.encode.length
  have text : (plan.trailer.comparator.elim 0 fun text => (Utf8.encode text).length) = 42 := rfl
  rw [text] at fields
  rw [Wire.writeDelimited, List.length_append, Trailer.size]
  omega

end Sound

end CellStore.Blueprint
