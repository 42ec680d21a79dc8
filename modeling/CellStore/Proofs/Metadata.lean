import CellStore.Proofs.ReadBack

namespace CellStore

namespace Index

theorem length_le_encode (entries : List IndexEntry) :
    entries.length ≤ (encode entries).length := by
  have each := length_le_encodeEntries entries
  rw [encode_eq, List.length_append, List.length_append]
  omega

theorem readMidKey_encodeMidKey {midKey : MidKey}
    (offset : midKey.leafOffset < 0x1_0000_0000_0000_0000) (size : midKey.leafSize < 0x1_0000_0000)
    (entry : midKey.entry < 0x1_0000_0000) (total start : Nat) :
    readMidKey ⟨total, start, encodeMidKey midKey⟩ = some midKey := by
  have length : (encodeMidKey midKey).length = 16 := by simp [encodeMidKey]
  have taken := (Input.reads_take (encodeMidKey midKey) "mid-key metadata" length).eq total start []
  rw [List.append_nil] at taken
  have front : (encodeMidKey midKey).take 8 = Bytes.ofNat 8 midKey.leafOffset := by
    rw [encodeMidKey, List.append_assoc]
    exact List.take_left' (Bytes.length_ofNat ..)
  have behind : (encodeMidKey midKey).drop 8 =
      Bytes.ofNat 4 midKey.leafSize ++ Bytes.ofNat 4 midKey.entry := by
    rw [encodeMidKey, List.append_assoc]
    exact List.drop_left' (Bytes.length_ofNat ..)
  have last : (encodeMidKey midKey).drop 12 = Bytes.ofNat 4 midKey.entry :=
    Bytes.drop_past behind (Bytes.length_ofNat ..)
  simp only [readMidKey, taken, front, behind, last, List.take_left' (Bytes.length_ofNat 4 _),
    Bytes.toNat_ofNat]
  rw [Nat.mod_eq_of_lt offset, Nat.mod_eq_of_lt size, Nat.mod_eq_of_lt entry]

end Index

namespace IndexLevels

variable {index : IndexLevels} {writer : BlockWriter} {data : List IndexEntry} {fanout fuel : Nat}

theorem leaves_build (above : 1 < index.levels) :
    (build fanout fuel index writer).1.leaves = index.leaves := by
  induction fuel generalizing index writer with
  | zero => rfl
  | succ fuel ih =>
    by_cases few : index.top.length ≤ fanout
    · rw [build_done few]
    · have kept : (raise fanout index writer).1.leaves = index.leaves := if_neg (by omega)
      rw [build_raise few, ih (by rw [levels_raise]; omega), kept]

theorem blocks_build : index.blocks <+: (build fanout fuel index writer).1.blocks := by
  induction fuel generalizing index writer with
  | zero => exact List.prefix_rfl
  | succ fuel ih =>
    by_cases few : index.top.length ≤ fanout
    · have done : (build fanout (fuel + 1) index writer).1 = index := by rw [build_done few]
      exact done.symm ▸ List.prefix_rfl
    · have step : index.blocks <+: (raise fanout index writer).1.blocks := List.prefix_append ..
      rw [build_raise few]
      exact step.trans ih

theorem length_gt_of_levels (raised : 1 < (build fanout fuel (.ofData data) writer).1.levels) :
    fanout < data.length := by
  by_contra few
  have few : (ofData data).top.length ≤ fanout := Nat.le_of_not_lt few
  cases fuel with
  | zero => exact Nat.lt_irrefl 1 raised
  | succ fuel =>
    rw [build_done few] at raised
    exact Nat.lt_irrefl 1 raised

theorem build_ofData (many : fanout < data.length) :
    build fanout data.length (.ofData data) writer =
      build fanout (data.length - 1) (raise fanout (.ofData data) writer).1
        (raise fanout (.ofData data) writer).2 := by
  have fuel : data.length = data.length - 1 + 1 := by omega
  conv_lhs => rw [fuel]
  exact build_raise (Nat.not_le.2 many)

theorem exists_leaf {source : Source} (pos : 0 < fanout) (many : fanout < data.length)
    (consistent : writer.Consistent)
    (within : (build fanout data.length (.ofData data) writer).2.bytes <+: source.bytes)
    (small : source.bytes.length < 0x8000_0000_0000_0000) {i : Nat} (inside : i < data.length) :
    ∃ leaf piece, (build fanout data.length (.ofData data) writer).1.leaves[i / fanout]? =
        some leaf.place
      ∧ leaf.place ∈ (build fanout data.length (.ofData data) writer).1.blocks
      ∧ source.Leads writer.form .leafIndex leaf
        (piece.head?.elim [] (·.key), Index.encode piece)
      ∧ piece ∈ pieces fanout data ∧ piece[i % fanout]? = data[i]? := by
  let ground := ofData data
  let lowest := raise fanout ground writer
  have built : build fanout data.length (.ofData data) writer =
      build fanout (data.length - 1) lowest.1 lowest.2 := build_ofData many
  rw [built] at within ⊢
  have leaves : (build fanout (data.length - 1) lowest.1 lowest.2).1.leaves =
      lowest.1.top.map (·.place) := leaves_build (Nat.lt_succ_self 1)
  have blocks : lowest.1.blocks <+: (build fanout (data.length - 1) lowest.1 lowest.2).1.blocks :=
    blocks_build
  have later := extends_build fanout (data.length - 1) lowest.1 lowest.2
  have leads : List.Forall₂ (source.Leads writer.form ground.nextKind) lowest.1.top
      (blocksOf fanout ground.top) := leads_raise consistent (later.bytes.trans within) small
  rw [blocksOf, List.forall₂_map_right_iff] at leads
  obtain ⟨piece, cut, there⟩ := exists_piece pos inside
  obtain ⟨leaf, found, leadsHere⟩ := exists_of_forall₂ leads cut
  refine ⟨leaf, piece, ?_, ?_, leadsHere, List.mem_of_getElem? cut, there⟩
  · rw [leaves, List.getElem?_map, found, Option.map_some]
  · exact blocks.subset (List.mem_map_of_mem (List.mem_of_getElem? found))

theorem encode_mem_payloads (many : fanout < data.length) {piece : List IndexEntry}
    (member : piece ∈ pieces fanout data) :
    Index.encode piece ∈ payloads fanout data.length (.ofData data) writer := by
  have fuel : data.length = data.length - 1 + 1 := by omega
  have more : ¬ (ofData data).top.length ≤ fanout := Nat.not_le.2 many
  rw [fuel, payloads, if_neg more]
  exact List.mem_append_left _ (List.mem_map_of_mem member)

end IndexLevels

namespace Blueprint

variable {plan : Blueprint}

/-- An open file has all that its plan says of it. The middle of an index of several levels is an
entry of a leaf, that of the data block in the middle. -/
structure Describes (plan : Blueprint) (file : StoreFile) : Prop where
  entryCount : file.trailer.entryCount = plan.mutations.length
  levels : file.index.levels = plan.build.2.indexLevels
  encoding : file.encoding = plan.encoding
  format : file.format = plan.format
  bloomKind : file.bloomKind = plan.bloom.elim .absent (·.kind)
  lastKey : ∃ sorted, StableSort Mutation.order plan.mutations sorted
    ∧ file.info.get? FileInfo.lastKey = sorted.getLast?.map (·.key)
  extraInfo : ∀ entry ∈ plan.extraInfo,
    file.info.get? entry.1 = plan.extraInfo.reverse.lookup entry.1
  metaBlock : ∀ name, file.metaBlock name = .ok (plan.metaBlocks.lookup name)
  midKey : 1 < file.index.levels → ∃ leaf ∈ plan.build.2.indexBlocks, ∃ block entries i entry,
    file.index.midKey = some ⟨leaf.offset, leaf.size, i⟩
      ∧ file.readBlock leaf.offset = .ok block ∧ block.kind = .leafIndex
      ∧ Index.parse block.data = .ok entries ∧ entries[i]? = some entry
      ∧ plan.build.2.dataBlocks[(plan.build.2.dataBlocks.length - 1) / 2]? = some entry.place

theorem lastKey_info (others : ∀ entry ∈ plan.extraInfo, entry.1 ≠ FileInfo.lastKey)
    (sorted : List Mutation) :
    (plan.info sorted).get? FileInfo.lastKey = sorted.getLast?.map (·.key) := by
  rw [get?_info_of_ne sorted others]
  simp only [FileInfo.get?, info, FileInfo.ofList, Named.lookup_ofList, List.reverse_append,
    List.lookup_append]
  cases plan.format.tags <;> cases plan.format.mvcc <;> cases plan.bloom <;>
    cases sorted.getLast? <;> rfl

theorem extra_info (sorted : List Mutation) {entry : String × Bytes}
    (added : entry ∈ plan.extraInfo) :
    (plan.info sorted).get? entry.1 = plan.extraInfo.reverse.lookup entry.1 := by
  simp only [FileInfo.get?, info, FileInfo.ofList, Named.lookup_ofList, List.reverse_append,
    List.lookup_append]
  cases found : plan.extraInfo.reverse.lookup entry.1 with
  | none =>
    have differs := List.lookup_eq_none_iff.1 found entry (List.mem_reverse.2 added)
    simp at differs
  | some value => rfl

theorem find?_named {source : Source} {form : BlockForm} {entries : List IndexEntry} {named : Named}
    (leads : List.Forall₂ (source.Leads form .metadata) entries
      (named.map fun (name, bytes) => (Utf8.encode name, bytes))) (name : String) :
    (entries.find? (·.key = Utf8.encode name) = none ∧ named.lookup name = none)
      ∨ ∃ entry bytes, entries.find? (·.key = Utf8.encode name) = some entry
        ∧ named.lookup name = some bytes ∧ (name, bytes) ∈ named
        ∧ source.Holds form entry.offset .metadata bytes := by
  induction named generalizing entries with
  | nil =>
    cases leads
    exact .inl ⟨rfl, rfl⟩
  | cons first named ih =>
    obtain ⟨other, bytes⟩ := first
    obtain ⟨entry, entries, here, later, rfl⟩ := List.forall₂_cons_right_iff.1 leads
    have key : entry.key = Utf8.encode other := here.key
    by_cases same : other = name
    · subst same
      exact .inr ⟨entry, bytes, by simp [key], by simp, List.mem_cons_self, here.holds⟩
    · have differs : ¬ entry.key = Utf8.encode name := by
        intro equal
        have texts := congrArg Utf8.decodeLossy (key.symm.trans equal)
        rw [Utf8.decodeLossy_encode, Utf8.decodeLossy_encode] at texts
        exact same texts
      have passed : (name == other) = false := beq_false_of_ne (Ne.symm same)
      rcases ih later with ⟨absent, missing⟩ | ⟨found, bytes, there, given, member, holds⟩
      · exact .inl ⟨by simp [differs, absent], by simp [List.lookup_cons, passed, missing]⟩
      · exact .inr ⟨found, bytes, by simp [differs, there],
          by simp [List.lookup_cons, passed, given], List.mem_cons_of_mem _ member, holds⟩

theorem midKey_of_leaf (raised : 1 < plan.indexStage.1.levels) {leaf : IndexEntry}
    {piece : List IndexEntry}
    (found : plan.indexStage.1.leaves[(plan.dataStage.1.length - 1) / 2 / plan.fanout]? =
      some leaf.place)
    (place : leaf.Fits) (inside : (plan.dataStage.1.length - 1) / 2 % plan.fanout < piece.length)
    (small : (Index.encode piece).length < 0x8000_0000) :
    plan.opened.index.midKey =
      some ⟨leaf.offset, leaf.size, (plan.dataStage.1.length - 1) / 2 % plan.fanout⟩ := by
  have written : plan.indexStage.1.midKey? plan.fanout plan.dataStage.1.length =
      some ⟨leaf.offset, leaf.size, (plan.dataStage.1.length - 1) / 2 % plan.fanout⟩ := by
    rw [IndexLevels.midKey?, if_neg (by omega)]
    dsimp only
    rw [found]
    rfl
  have count := Index.length_le_encode piece
  have offset : leaf.offset < 0x1_0000_0000_0000_0000 := Nat.lt_trans place.offset (by decide)
  have entry : (plan.dataStage.1.length - 1) / 2 % plan.fanout < 0x1_0000_0000 := by omega
  have shown : plan.opened.index.midKey = Index.readMidKey plan.afterRoot := if_pos raised
  rw [shown, afterRoot, written]
  exact Index.readMidKey_encodeMidKey offset place.size entry _ _

section Sound

variable (sound : plan.Sound)

include sound

theorem metaBlock_opened (name : String) :
    plan.opened.metaBlock name = .ok (plan.metaBlocks.lookup name) := by
  have index : plan.opened.metaIndex = plan.metaStage.1 := rfl
  have codec : plan.opened.trailer.codec = .stored := rfl
  rcases find?_named (leads_metas sound) name with
    ⟨absent, missing⟩ | ⟨entry, bytes, found, given, member, holds⟩
  · rw [StoreFile.metaBlock, index, absent, missing]
    rfl
  · have fits : plan.form.Fits bytes :=
      fits_meta sound (Utf8.encode name, bytes) (List.mem_map_of_mem member)
    obtain ⟨header, read⟩ := StoreFile.readBlock_of_holds codec holds sound.verifiable sound.stored
      fits
    simp only [StoreFile.metaBlock, index, found, read, ok_bind, Block.expect_self,
      liftM_decoded_ok, given, pure_eq_ok]

theorem midKey_opened (raised : 1 < plan.indexStage.1.levels) :
    ∃ leaf ∈ plan.indexStage.1.blocks, ∃ block entries i entry,
      plan.opened.index.midKey = some ⟨leaf.offset, leaf.size, i⟩
        ∧ plan.opened.readBlock leaf.offset = .ok block ∧ block.kind = .leafIndex
        ∧ Index.parse block.data = .ok entries ∧ entries[i]? = some entry
        ∧ plan.dataStage.1[(plan.dataStage.1.length - 1) / 2]? = some entry := by
  have many : plan.fanout < plan.dataStage.1.length := IndexLevels.length_gt_of_levels raised
  have fanout := sound.fanout
  have pos : 0 < plan.fanout := by omega
  have inside : (plan.dataStage.1.length - 1) / 2 < plan.dataStage.1.length := by omega
  have within : plan.indexStage.2.bytes <+: (Source.ofBytes plan.bytes).bytes :=
    plan.stages.index.within
  obtain ⟨leaf, piece, found, member, leads, cut, there⟩ :=
    IndexLevels.exists_leaf pos many plan.stages.metas.consistent within sound.small inside
  rw [plan.stages.metas.form] at leads
  have fits : plan.form.Fits (Index.encode piece) :=
    fits_index sound _ (IndexLevels.encode_mem_payloads many cut)
  have entries : ∀ entry ∈ piece, entry.Fits := by
    intro entry inPiece
    apply fits_dataEntries sound
    rw [← flatten_pieces pos plan.dataStage.1]
    exact List.mem_flatten_of_mem cut inPiece
  have payload := fits.expanded
  have codec : plan.opened.trailer.codec = .stored := rfl
  obtain ⟨header, read⟩ := StoreFile.readBlock_of_holds codec leads.holds sound.verifiable
    sound.stored fits
  have parsed := Index.parse_encode entries
    (show (Index.encode piece).length < 0x1_0000_0000 by omega) []
  rw [List.append_nil] at parsed
  have middle := List.getElem?_eq_getElem inside
  rw [middle] at there
  exact ⟨leaf.place, member, _, piece, _, _, midKey_of_leaf raised found
    (leads.fits sound.small fits) (List.getElem?_eq_some_iff.1 there).1 payload, read, rfl, parsed,
    there, middle⟩

/-- A file is opened with the metadata that was written. -/
theorem load_describes (plain : plan.PlainInfo)
    (lastKey : ∀ entry ∈ plan.extraInfo, entry.1 ≠ FileInfo.lastKey) :
    ∃ file, StoreFile.load (Source.ofBytes plan.bytes) = .ok file ∧ plan.Describes file := by
  refine ⟨plan.opened, load_eq sound plain, ?_⟩
  exact {
    entryCount := plan.stableSort_sorted.perm.length_eq
    levels := (congrArg Layout.indexLevels plan.layout_eq).symm
    encoding := rfl
    format := rfl
    bloomKind := rfl
    lastKey := ⟨plan.sorted, plan.stableSort_sorted, lastKey_info lastKey plan.sorted⟩
    extraInfo := fun entry added => extra_info plan.sorted added
    metaBlock := metaBlock_opened sound
    midKey := by
      intro raised
      rw [plan.layout_eq, layout, List.length_map]
      obtain ⟨leaf, member, block, entries, i, entry, key, read, kind, parsed, here, middle⟩ :=
        midKey_opened sound raised
      exact ⟨leaf, member, block, entries, i, entry, key, read, kind, parsed, here, by
        rw [List.getElem?_map, middle, Option.map_some]⟩ }

end Sound

def annotated : Blueprint := { twoRows with extraInfo := [("origin", [1]), ("origin", [2])] }

theorem sound_annotated : annotated.Sound := by decide +kernel

theorem load_describes_annotated : annotated.Sound ∧ annotated.PlainInfo
    ∧ (∀ entry ∈ annotated.extraInfo, entry.1 ≠ FileInfo.lastKey)
    ∧ ∃ file, StoreFile.load (Source.ofBytes annotated.bytes) = .ok file
      ∧ annotated.Describes file := by
  have plain : annotated.PlainInfo := by decide
  have lastKey : ∀ entry ∈ annotated.extraInfo, entry.1 ≠ FileInfo.lastKey := by decide
  exact ⟨sound_annotated, plain, lastKey, load_describes sound_annotated plain lastKey⟩

/-- No bytes share a checksum, so that there are none, but they are asked for. -/
def unchecked : Blueprint := { standard with form := ⟨.stored, .crc32c, 0⟩ }

theorem load_unchecked : StoreFile.load (Source.ofBytes unchecked.bytes) =
    .error (.format (.flawed .emptyChecksumChunks)) := by
  have refused : (StoreFile.load (Source.ofBytes unchecked.bytes)).map (fun _ => ()) =
      .error (.format (.flawed .emptyChecksumChunks)) := by decide +kernel
  cases read : StoreFile.load (Source.ofBytes unchecked.bytes) with
  | ok file =>
    rw [read] at refused
    cases refused
  | error cause =>
    rw [read] at refused
    exact congrArg Except.error (Except.error.inj refused)

end Blueprint

end CellStore
