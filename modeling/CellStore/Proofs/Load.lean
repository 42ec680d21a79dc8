import CellStore.Proofs.Bloom
import CellStore.Proofs.Blueprint
import CellStore.Proofs.FileInfo
import CellStore.StoreFile

namespace CellStore

namespace FileInfo

def interpreted : List String :=
  [maxTagsLength, tagsCompressed, dataBlockEncoding, keyValueVersion, bloomFilterType]

end FileInfo

theorem Source.readAt_end {source : Source} {before tail : Bytes}
    (whole : source.bytes = before ++ tail) :
    source.readAt before.length tail.length = .ok tail := by
  have size := source.size_eq
  rw [whole, List.length_append] at size
  rw [readAt, if_pos (Nat.le_of_eq size.symm), whole, List.drop_left, List.take_length]

theorem flatten_map_map_flatten {α β : Type} (f : α → β) (parts : List (List (List α))) :
    (parts.map fun blocks => blocks.flatten.map f).flatten = parts.flatten.flatten.map f := by
  rw [List.flatten_flatten, List.map_flatten, List.map_map]
  rfl

namespace Blueprint

variable {plan : Blueprint}

/-- No entry is added to the file info that would have the cells read in another way. -/
def PlainInfo (plan : Blueprint) : Prop :=
  ∀ entry ∈ plan.extraInfo, entry.1 ∉ FileInfo.interpreted

instance (plan : Blueprint) : Decidable plan.PlainInfo :=
  inferInstanceAs (Decidable (∀ entry ∈ plan.extraInfo, entry.1 ∉ FileInfo.interpreted))

theorem get?_info_of_ne (sorted : List Mutation) {name : String}
    (others : ∀ entry ∈ plan.extraInfo, entry.1 ≠ name) :
    (plan.info sorted).get? name = ({ plan with extraInfo := [] }.info sorted).get? name := by
  have extra : plan.extraInfo.reverse.lookup name = none := by
    rw [List.lookup_eq_none_iff]
    intro entry member
    have differs := others entry (List.mem_reverse.1 member)
    simpa using differs.symm
  simp only [FileInfo.get?, info, FileInfo.ofList, Named.lookup_ofList, List.reverse_append,
    List.lookup_append, extra, Option.none_or, List.reverse_nil, List.lookup_nil]

theorem get?_info (plain : plan.PlainInfo) (sorted : List Mutation) {name : String}
    (interpreted : name ∈ FileInfo.interpreted) :
    (plan.info sorted).get? name = ({ plan with extraInfo := [] }.info sorted).get? name :=
  get?_info_of_ne sorted fun entry member same => plain entry member (same ▸ interpreted)

theorem lookup_info (plan : Blueprint) (sorted : List Mutation) :
    let info := { plan with extraInfo := [] }.info sorted
    info.includesTags = plan.format.tags ∧ info.compressesTags = false
      ∧ info.get? FileInfo.dataBlockEncoding = some (Utf8.encode plan.encoding.name)
      ∧ info.get? FileInfo.keyValueVersion =
        (if plan.format.mvcc then some (Bytes.ofNat 4 1) else none)
      ∧ info.get? FileInfo.bloomFilterType =
        plan.bloom.map fun bloom => Utf8.encode bloom.kind.name := by
  simp only [FileInfo.includesTags, FileInfo.compressesTags, FileInfo.get?, info, FileInfo.ofList,
    Named.lookup_ofList, List.reverse_append, List.lookup_append]
  cases plan.format.tags <;> cases plan.format.mvcc <;> cases plan.bloom <;>
    cases sorted.getLast? <;> exact ⟨rfl, rfl, rfl, rfl, rfl⟩

theorem encoding_info (plain : plan.PlainInfo) (sorted : List Mutation) :
    (plan.info sorted).encoding = .ok plan.encoding := by
  rw [FileInfo.encoding, get?_info plain sorted (by simp [FileInfo.interpreted]),
    (lookup_info plan sorted).2.2.1]
  simp only [Utf8.decodeLossy_encode, Encoding.ofName, Encoding.ofName?_name]

theorem recordFormat_info (plain : plan.PlainInfo) (sorted : List Mutation) :
    (plan.info sorted).recordFormat = .ok plan.format := by
  obtain ⟨tags, compressed, -, version, -⟩ := lookup_info plan sorted
  rw [FileInfo.includesTags] at tags
  rw [FileInfo.compressesTags] at compressed
  rw [← get?_info plain sorted (by simp [FileInfo.interpreted])] at tags compressed version
  rw [FileInfo.recordFormat, FileInfo.compressesTags, compressed, FileInfo.includesTags, tags,
    FileInfo.includesMvcc, FileInfo.number, version]
  obtain ⟨tagged, stamped⟩ := plan.format
  cases stamped <;> simp [Except.bind, bind]

theorem bloomKind_info (plain : plan.PlainInfo) (sorted : List Mutation) :
    (plan.info sorted).bloomKind = .ok (plan.bloom.elim .absent (·.kind)) := by
  rw [FileInfo.bloomKind, get?_info plain sorted (by simp [FileInfo.interpreted]),
    (lookup_info plan sorted).2.2.2.2]
  cases plan.bloom with
  | none => rfl
  | some bloom =>
    simp only [Option.map_some, Utf8.decodeLossy_encode, Option.elim_some]
    cases bloom.kind <;> rfl

def openedTrailer (plan : Blueprint) : Trailer where
  major := Trailer.supportedMajor
  minor := plan.minorVersion.toNat
  fileInfoOffset := plan.infoStage.1.offset
  loadOnOpenOffset := plan.rootStage.1.offset
  uncompressedIndexSize := plan.indexStage.1.byteSize + plan.root.length
  totalUncompressedBytes := plan.filterStage.uncompressedBytes
  dataIndexCount := plan.indexStage.1.top.length
  metaIndexCount := plan.metaStage.1.length
  entryCount := plan.sorted.length
  indexLevels := plan.indexStage.1.levels
  firstDataOffset := (plan.dataStage.1.head?.map (·.offset)).getD 0
  lastDataOffset := (plan.dataStage.1.getLast?.map (·.offset)).getD 0
  comparator := comparator
  codec := .stored

def afterRoot (plan : Blueprint) : Input :=
  ⟨plan.root.length, (Index.encodeRoot plan.indexStage.1.top).length,
    (plan.indexStage.1.midKey? plan.fanout plan.dataStage.1.length).elim [] Index.encodeMidKey⟩

/-- The bloom filter, as it is read back. Filters of tombstones are passed over. -/
def openedFilter (plan : Blueprint) : Option BloomFilter :=
  plan.filter?.bind fun (kind, filter) =>
    if kind = .generalBloomMeta then some filter.wrap else none

def opened (plan : Blueprint) : StoreFile where
  source := Source.ofBytes plan.bytes
  trailer := plan.openedTrailer
  index := {
    entries := plan.indexStage.1.top
    levels := plan.indexStage.1.levels
    midKey := if 1 < plan.indexStage.1.levels then Index.readMidKey plan.afterRoot else none }
  metaIndex := plan.metaStage.1
  info := plan.info plan.sorted
  bloom := plan.openedFilter
  bloomKind := plan.bloom.elim .absent (·.kind)
  encoding := plan.encoding
  format := plan.format

theorem start_bytes (plan : Blueprint) : Trailer.start (Source.ofBytes plan.bytes).size =
    plan.filterStage.bytes.length := by
  have length := plan.length_bytes
  simp only [Source.ofBytes, Trailer.start]
  omega

theorem rootOffset_lt (plan : Blueprint) :
    plan.rootStage.1.offset < plan.filterStage.bytes.length := by
  have inside := plan.stages.root.after.bytes.length_le
  have whole := BlockWriter.length_append plan.indexStage.2 .rootIndex plan.root
  have offset : plan.rootStage.1.offset = plan.indexStage.2.bytes.length := rfl
  rw [rootStage] at inside
  rw [BlockForm.size, BlockHeader.size] at whole
  omega

theorem next_root (plan : Blueprint) : plan.rootStage.1.offset + plan.form.size plan.root =
    plan.metaIndexStage.1.offset := by
  have length := BlockWriter.length_append plan.indexStage.2 .rootIndex plan.root
  rw [plan.stages.index.form] at length
  exact length.symm

theorem next_metaRoot (plan : Blueprint) :
    plan.metaIndexStage.1.offset + plan.form.size plan.metaRoot = plan.infoStage.1.offset := by
  have length := BlockWriter.length_append plan.rootStage.2 .rootIndex plan.metaRoot
  rw [plan.stages.root.form] at length
  exact length.symm

theorem next_info (plan : Blueprint) :
    plan.infoStage.1.offset + plan.form.size (plan.info plan.sorted).encode =
      plan.infoStage.2.bytes.length := by
  have length := BlockWriter.length_append plan.metaIndexStage.2 .fileInfo
    (plan.info plan.sorted).encode
  rw [plan.stages.metaIndex.form] at length
  exact length.symm

section Sound

variable (sound : plan.Sound)

include sound

theorem parse_trailer : Trailer.parse (Trailer.encode plan.trailer plan.minorVersion)
    (Source.ofBytes plan.bytes).size = .ok plan.openedTrailer := by
  have made : Trailer.ofFields Trailer.supportedMajor plan.minorVersion.toNat plan.trailer =
      .ok plan.openedTrailer := by
    have codec : Codec.ofId plan.form.packing.codec.id = .ok .stored := by
      rw [sound.stored]
      rfl
    simp only [Trailer.ofFields, trailer, Option.elim_some, codec, ok_bind, pure_eq_ok,
      Option.getD_some, openedTrailer]
  have inside : ¬ plan.filterStage.bytes.length ≤ plan.openedTrailer.loadOnOpenOffset :=
    Nat.not_le.2 (rootOffset_lt plan)
  have parsed := Trailer.parse_encode plan.minorVersion (fits_trailer sound) (length_trailer plan)
    (Source.ofBytes plan.bytes).size
  rw [wrap_trailer sound, made, start_bytes plan] at parsed
  rw [parsed]
  exact if_neg inside

theorem read_trailer : Trailer.read (Source.ofBytes plan.bytes) = .ok plan.openedTrailer := by
  have enough : ¬ (Source.ofBytes plan.bytes).size < Trailer.size := by
    have length := plan.length_bytes
    simp only [Source.ofBytes]
    omega
  have whole : (Source.ofBytes plan.bytes).bytes = plan.filterStage.bytes
      ++ Trailer.encode plan.trailer plan.minorVersion := plan.bytes_eq
  have last := Source.readAt_end whole
  rw [Trailer.length_encode] at last
  rw [Trailer.read, start_bytes plan]
  simp only [enough, if_false, SourceReader.readAt_eq, last, liftM_source_ok, ok_bind,
    parse_trailer sound, liftM_decoded_ok]

theorem parse_root : Index.parseRoot plan.root plan.indexStage.1.top.length
    plan.indexStage.1.levels = .ok plan.opened.index := by
  have entries : ∀ entry ∈ plan.indexStage.1.top,
      entry.Fits ∧ entry.key.length < 0x8000_0000_0000_0000 := by
    intro entry member
    have within : plan.indexStage.2.bytes <+: (Source.ofBytes plan.bytes).bytes :=
      plan.stages.index.within
    have fits := IndexLevels.fits_build (fits_dataEntries sound) plan.stages.metas.consistent within
      sound.small
      (plan.stages.metas.form ▸ fits_index sound) entry member
    have key := Index.length_key_le_encodeRoot member
    have whole := root_length sound
    exact ⟨fits, by omega⟩
  have read := Index.rootEntries_encodeRoot entries
    ((plan.indexStage.1.midKey? plan.fanout plan.dataStage.1.length).elim [] Index.encodeMidKey)
  change Index.rootEntries plan.indexStage.1.top.length plan.root =
    .ok (plan.indexStage.1.top, plan.afterRoot) at read
  simp only [Index.parseRoot, read, ok_bind, pure_eq_ok, opened]

theorem parse_metaRoot : ∃ rest, Index.rootEntries plan.metaStage.1.length plan.metaRoot =
    .ok (plan.metaStage.1, rest) := by
  have entries : ∀ entry ∈ plan.metaStage.1,
      entry.Fits ∧ entry.key.length < 0x8000_0000_0000_0000 := by
    intro entry member
    have fits := Source.fits_of_leads (leads_metas sound) sound.small (fits_meta sound) entry member
    have key := Index.length_key_le_encodeRoot member
    have whole := (fits_metaRoot sound).expanded
    rw [metaRoot] at whole
    exact ⟨fits, by omega⟩
  have read := Index.rootEntries_encodeRoot entries []
  rw [List.append_nil] at read
  exact ⟨_, read⟩

theorem readMetaIndex_eq : StoreFile.readMetaIndex (Source.ofBytes plan.bytes) plan.openedTrailer
    plan.metaIndexStage.1.offset = .ok (plan.metaStage.1, plan.infoStage.1.offset) := by
  have holds := holds_metaRoot sound
  have fits := fits_metaRoot sound
  obtain ⟨rest, entries⟩ := parse_metaRoot sound
  have count : plan.openedTrailer.metaIndexCount = plan.metaStage.1.length := rfl
  have codec : plan.openedTrailer.codec = .stored := rfl
  by_cases some : 0 < plan.metaStage.1.length
  · obtain ⟨header, read, size⟩ := holds.read sound.verifiable sound.stored fits
    simp only [StoreFile.readMetaIndex, count, some, if_true, codec, read, ok_bind,
      Block.expect_self, liftM_decoded_ok, entries, pure_eq_ok, Block.next, size, next_metaRoot]
  · obtain ⟨header, read, -, size⟩ := holds.readHeader sound.verifiable fits
    have empty : plan.metaStage.1 = [] := List.length_eq_zero_iff.1 (by omega)
    rw [StoreFile.readMetaIndex, count, if_neg some]
    simp only [read, ok_bind, pure_eq_ok, size, next_metaRoot, empty]

theorem fits_bloom {kind : BlockKind} {filter : BloomFilter}
    (given : plan.filter? = some (kind, filter)) : filter.Fits := by
  have payload := (fits_filter sound (kind, filter) given).expanded
  obtain ⟨bloom, -, made⟩ := Option.map_eq_some_iff.1 given
  obtain ⟨-, rfl⟩ := Prod.mk.inj made
  have root : (Index.encodeRoot plan.chunkStage.1).length < 0x8000_0000 := by
    simp only [BloomFilter.encode, BloomPlan.filter, List.length_append] at payload
    omega
  have few := Index.length_le_encodeRoot plan.chunkStage.1
  refine ⟨rfl, ?_, ?_, Nat.zero_lt_of_ne_zero (by decide)⟩
  · change plan.chunkStage.1.length < 0x1_0000_0000
    omega
  · intro chunk member
    have key : chunk.key.length ≤ (Index.encodeRoot plan.chunkStage.1).length :=
      Index.length_key_le_encodeRoot member
    exact ⟨Source.fits_of_leads (leads_chunks sound) sound.small (fits_chunk sound) chunk member,
      by omega⟩

theorem readBloom_eq : StoreFile.readBloom (Source.ofBytes plan.bytes) .stored
    plan.infoStage.2.bytes.length = .ok plan.openedFilter := by
  rw [StoreFile.readBloom, start_bytes plan]
  cases given : plan.filter? with
  | none =>
    have last : plan.filterStage = plan.infoStage.2 := by rw [filterStage, given]
    simp [last, openedFilter, given]
  | some block =>
    obtain ⟨kind, filter⟩ := block
    have last : plan.filterStage = (plan.infoStage.2.append kind filter.encode).2 := by
      rw [filterStage, given]
    have within : plan.filterStage.bytes <+: (Source.ofBytes plan.bytes).bytes :=
      plan.stages.filter.within
    rw [last] at within
    have holds := BlockWriter.holds_append plan.stages.info.consistent within sound.small
    rw [plan.stages.info.form] at holds
    have fits := fits_filter sound (kind, filter) given
    have room : ¬ plan.filterStage.bytes.length ≤ plan.infoStage.2.bytes.length := by
      rw [last, BlockWriter.length_append, BlockForm.size, BlockHeader.size]
      omega
    obtain ⟨header, readHeader, headerKind, -⟩ := holds.readHeader sound.verifiable fits
    obtain ⟨_, read, -⟩ := holds.read sound.verifiable sound.stored fits
    have parsed := BloomFilter.parse_encode (fits_bloom sound given)
    simp only [room, if_false, readHeader, tryCatch_none, ok_bind, Except.toOption,
      Option.bind_some, headerKind, openedFilter, given]
    -- Any other kind of filter is passed over by its header.
    cases kind with
    | generalBloomMeta =>
      simp only [read, ok_bind, parsed, liftM_decoded_ok, pure_eq_ok, if_true]
    | _ => rfl

theorem parse_info :
    FileInfo.parse (plan.info plan.sorted).encode = .ok (plan.info plan.sorted) := by
  have length := (fits_info sound).expanded
  exact FileInfo.parse_encode (Named.sorted_ofList _) (by omega)

theorem load_of_info : StoreFile.load (Source.ofBytes plan.bytes) = do
    let encoding ← (liftM (plan.info plan.sorted).encoding : Fetched Encoding)
    let format ← (plan.info plan.sorted).recordFormat
    return { plan.opened with
      bloomKind := (plan.info plan.sorted).bloomKind.toOption.getD .absent, encoding, format } := by
  obtain ⟨root, readRoot, rootSize⟩ :=
    (holds_root sound).read sound.verifiable sound.stored (fits_root sound)
  obtain ⟨info, readInfo, infoSize⟩ :=
    (holds_info sound).read sound.verifiable sound.stored (fits_info sound)
  have codec : plan.openedTrailer.codec = .stored := rfl
  have rootOffset : plan.openedTrailer.loadOnOpenOffset = plan.rootStage.1.offset := rfl
  have count : plan.openedTrailer.dataIndexCount = plan.indexStage.1.top.length := rfl
  have levels : plan.openedTrailer.indexLevels = plan.indexStage.1.levels := rfl
  simp only [StoreFile.load, read_trailer sound, ok_bind, codec, rootOffset, readRoot,
    Block.expect_self, count, levels, parse_root sound, Block.next, rootSize, next_root,
    readMetaIndex_eq sound, readInfo, parse_info sound, infoSize, next_info, readBloom_eq sound,
    liftM_decoded_ok, pure_eq_ok, opened]

theorem load_eq (plain : plan.PlainInfo) :
    StoreFile.load (Source.ofBytes plan.bytes) = .ok plan.opened := by
  have kind : (plan.info plan.sorted).bloomKind.toOption.getD .absent =
      plan.bloom.elim .absent (·.kind) := by
    rw [bloomKind_info plain]
    rfl
  rw [load_of_info sound, encoding_info plain, recordFormat_info plain, kind]
  rfl

theorem readRecords_eq {family : Bytes} {block : List Mutation} {entry : IndexEntry}
    (leads : plan.LeadsToData entry block) (fits : ∀ m ∈ block, m.Fits plan.format)
    (families : plan.encoding = .fastDiff → ∀ m ∈ block, m.family = family) :
    plan.opened.readRecords entry.offset = .ok (Mutation.encodeAll plan.format block) := by
  have size := fits_data sound _ (List.mem_map_of_mem leads.member)
  have codec : plan.opened.trailer.codec = .stored := rfl
  obtain ⟨header, read⟩ := StoreFile.readBlock_of_holds codec leads.leads.holds sound.verifiable
    sound.stored size
  have format : plan.opened.format = plan.format := rfl
  have encoding : plan.opened.encoding = plan.encoding := rfl
  have small : (encodeBlock plan.encoding plan.format block).length < 0x8000_0000 := size.expanded
  rw [StoreFile.readRecords, read, ok_bind, format, encoding]
  cases given : plan.encoding with
  | plain => rfl
  | fastDiff =>
    rw [given] at small
    have decoded := decodeBlock_encodeBlock fits (families given) small
    have expected : Block.expect ⟨header, .encodedData, entry.offset,
        encodeBlock .fastDiff plan.format block⟩ [.data, .encodedData] = .ok () := rfl
    simp only [dataKind, expected, liftM_decoded_ok, ok_bind, if_true, decoded]

theorem covers_data {family : Bytes} {block : List Mutation} {entry : IndexEntry}
    (leads : plan.LeadsToData entry block) (fits : ∀ m ∈ block, m.Fits plan.format)
    (families : plan.encoding = .fastDiff → ∀ m ∈ block, m.family = family) :
    plan.opened.Covers 0 entry (block.map (·.stored plan.format)) := by
  have size : (encodeBlock plan.encoding plan.format block).length < 0x8000_0000 :=
    (fits_data sound _ (List.mem_map_of_mem leads.member)).expanded
  refine ⟨?_, _, readRecords_eq sound leads fits families, fun next => ?_⟩
  · have key := leads.leads.key
    cases block with
    | nil => exact (ne_nil_of_mem_cut leads.member rfl).elim
    | cons m block => exact congrArg some key.symm
  · have lengths (m : Mutation) (inside : m ∈ block) :
        m.key.length < 0x8000_0000 ∧ m.value.length < 0x8000_0000 := by
      have := lengths_le_encodeBlock plan.encoding fits families m inside
      omega
    exact Run.ofRecords_encode fits lengths (Nat.le_refl _) next _ 0

theorem covers_of_spans {family : Bytes} {height : Nat} {entry : IndexEntry}
    {blocks : List (List Mutation)}
    (spans : (Source.ofBytes plan.bytes).Spans plan.form plan.LeadsToData height entry blocks)
    (fits : ∀ m ∈ plan.sorted, m.Fits plan.format)
    (families : plan.encoding = .fastDiff → ∀ m ∈ plan.sorted, m.family = family) :
    plan.opened.Covers height entry (blocks.flatten.map (·.stored plan.format)) := by
  induction height generalizing entry blocks with
  | zero =>
    obtain ⟨block, leads, rfl⟩ := spans
    rw [List.flatten_singleton]
    exact covers_data sound leads (fun m inside => fits m (mem_of_mem_cut leads.member inside))
      fun delta m inside => families delta m (mem_of_mem_cut leads.member inside)
  | succ height ih =>
    obtain ⟨entries, parts, leads, each, rfl⟩ := spans
    have read : plan.opened.readIndexBlock entry.offset = .ok entries :=
      StoreFile.readIndexBlock_of_leads rfl leads sound.verifiable sound.stored
    have covers : List.Forall₂ (plan.opened.Covers height) entries
        (parts.map fun blocks => blocks.flatten.map (·.stored plan.format)) :=
      List.forall₂_map_right_iff.2 (each.imp fun _ _ spans => ih spans)
    have whole := StoreFile.covers_piece read leads.key leads.nonempty covers
    rwa [flatten_map_map_flatten] at whole

/-- The index of a file leads to its mutations in their order. Only differences between cells take
them to be of one family. -/
theorem contains_of_encoding {family : Bytes} (fits : ∀ m ∈ plan.sorted, m.Fits plan.format)
    (families : plan.encoding = .fastDiff → ∀ m ∈ plan.sorted, m.family = family) :
    plan.opened.Contains (plan.sorted.map (·.stored plan.format)) := by
  obtain ⟨parts, spans, whole⟩ := spans_index sound
  refine ⟨parts.map fun blocks => blocks.flatten.map (·.stored plan.format), ?_, ?_⟩
  · exact List.forall₂_map_right_iff.2 (spans.imp fun _ _ spans =>
      covers_of_spans sound spans fits families)
  · rw [flatten_map_map_flatten, whole, flatten_cut]

theorem contains_opened {family : Bytes} (fits : ∀ m ∈ plan.sorted, m.Fits plan.format)
    (families : ∀ m ∈ plan.sorted, m.family = family) :
    plan.opened.Contains (plan.sorted.map (·.stored plan.format)) :=
  contains_of_encoding sound fits fun _ => families

end Sound

end Blueprint

end CellStore
