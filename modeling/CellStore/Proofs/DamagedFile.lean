import CellStore.Proofs.Cut
import CellStore.Proofs.Damage
import CellStore.Proofs.ReadBack

namespace CellStore

namespace Run

variable {next next' : Unit → Run}

theorem cut_ofRecords (cuts : Cut (fun _ => True) (next ()) (next' ())) (format : RecordFormat)
    (fuel : Nat) (input : Input) :
    Cut (fun _ => True) (ofRecords format next fuel input) (ofRecords format next' fuel input) := by
  induction fuel generalizing input with
  | zero => exact cuts
  | succ fuel ih =>
    rw [ofRecords, ofRecords]
    cases input.rest.isEmpty with
    | true => exact cuts
    | false =>
      cases StoredCell.parse format input with
      | error error => exact .failed trivial _
      | ok parsed => exact .cell rfl (ih parsed.2)

theorem cut_concat {α β : Type} {faults : ReadError → Prop} {R : α → β → Prop}
    {run run' : α → (Unit → Run) → Run} {as : List α} {bs : List β} (each : List.Forall₂ R as bs)
    (cut : ∀ a b, R a b → ∀ {next next' : Unit → Run}, Cut faults (next ()) (next' ()) →
      Cut faults (run a next) (run' a next')) (cuts : Cut faults (next ()) (next' ())) :
    Cut faults (concat run next as) (concat run' next' as) := by
  induction each with
  | nil => exact cuts
  | cons first _ ih => exact cut _ _ first ih

end Run

namespace CellIterator

variable {early whole : Run} {faults : ReadError → Prop}

theorem answers_cut (cut : Run.Cut faults early whole) (hurt file : StoreFile)
    (current current' : Option StoredCell) :
    (∃ n error, answers next (n + 1) (ofCursor ⟨hurt, .at current early⟩) =
      answers next n (ofCursor ⟨file, .at current' whole⟩) ++ [some (.error error)])
    ∨ ∀ n, answers next n (ofCursor ⟨hurt, .at current early⟩) =
      answers next n (ofCursor ⟨file, .at current' whole⟩) := by
  induction cut generalizing current current' with
  | failed _ run => exact .inl ⟨0, .read _, rfl⟩
  | finished =>
    refine .inr fun n => ?_
    have none (file : StoreFile) (current : Option StoredCell) :
        Cursor.Ahead ⟨file, .at current .finished⟩ [] := ⟨current, rfl⟩
    rw [answers_ofCursor (none hurt current), answers_ofCursor (none file current')]
  | @cell stored stored' _ _ same _ ih =>
    have step (file : StoreFile) (stored : StoredCell) (current : Option StoredCell)
        (rest : Unit → Run) (n : Nat) :
        answers next (n + 1) (ofCursor ⟨file, .at current (.cell stored rest)⟩) =
          some (.ok stored.cell) :: answers next n (ofCursor ⟨file, .at (some stored) (rest ())⟩) :=
      rfl
    rcases ih (some stored) (some stored') with ⟨n, error, later⟩ | later
    · refine .inl ⟨n + 1, error, ?_⟩
      rw [step, step, later, same, List.cons_append]
    · refine .inr fun n => ?_
      cases n with
      | zero => rfl
      | succ n => rw [step, step, later, same]

end CellIterator

namespace StoreFile

/-- A file was opened like another one, but from a source in which blocks may not be readable. -/
structure Shadows (hurt file : StoreFile) (form : BlockForm) : Prop where
  faithful : hurt.source.Faithful file.source form
  index : hurt.index = file.index
  encoding : hurt.encoding = file.encoding
  format : hurt.format = file.format
  codec : hurt.trailer.codec = .stored
  whole : file.trailer.codec = .stored

namespace Shadows

variable {hurt file : StoreFile} {form : BlockForm} {offset : Nat} {kind : BlockKind}
  {payload : Bytes} (shadows : hurt.Shadows file form) (verifiable : form.Verifiable)
  (stored : form.packing = .stored)

include shadows verifiable stored

theorem readBlock (holds : file.source.Holds form offset kind payload)
    (fits : form.Fits payload) :
    (∃ error, hurt.readBlock offset = .error error)
    ∨ ∃ header header', hurt.readBlock offset = .ok ⟨header, kind, offset, payload⟩
      ∧ file.readBlock offset = .ok ⟨header', kind, offset, payload⟩ := by
  obtain ⟨header', whole⟩ := readBlock_of_holds shadows.whole holds verifiable stored fits
  cases read : hurt.readBlock offset with
  | error error => exact .inl ⟨error, rfl⟩
  | ok block =>
    rw [StoreFile.readBlock, shadows.codec] at read
    obtain ⟨rfl, rfl, rfl, -⟩ := shadows.faithful holds fits read
    exact .inr ⟨block.header, header', rfl, whole⟩

theorem readRecords (holds : file.source.Holds form offset kind payload)
    (fits : form.Fits payload) :
    (∃ error, hurt.readRecords offset = .error error)
    ∨ hurt.readRecords offset = file.readRecords offset := by
  rcases shadows.readBlock verifiable stored holds fits with
    ⟨error, failed⟩ | ⟨header, header', read, whole⟩
  · exact .inl ⟨error, by rw [StoreFile.readRecords, failed, error_bind]⟩
  · right
    rw [StoreFile.readRecords, StoreFile.readRecords, read, whole, shadows.encoding,
      shadows.format]
    rfl

theorem readIndexBlock {entry : IndexEntry} {entries : List IndexEntry}
    (leads : file.source.LeadsToIndex form entry entries) :
    (∃ error, hurt.readIndexBlock entry.offset = .error error)
    ∨ hurt.readIndexBlock entry.offset = .ok entries
      ∧ file.readIndexBlock entry.offset = .ok entries := by
  have listed := readIndexBlock_of_leads shadows.whole leads verifiable stored
  obtain ⟨kind, -, holds⟩ := leads.holds
  rcases shadows.readBlock verifiable stored holds leads.fits with
    ⟨error, failed⟩ | ⟨header, header', read, whole⟩
  · exact .inl ⟨error, by rw [StoreFile.readIndexBlock, failed, error_bind]⟩
  · refine .inr ⟨?_, listed⟩
    rw [← listed, StoreFile.readIndexBlock, StoreFile.readIndexBlock, read, whole]
    rfl

variable {β : Type} {leaf : IndexEntry → β → Prop}
  (leaves : ∀ entry block, leaf entry block →
    ∃ kind payload, file.source.Holds form entry.offset kind payload ∧ form.Fits payload)

include leaves

theorem cut_subtree {height : Nat} {entry : IndexEntry} {blocks : List β}
    (spans : file.source.Spans form leaf height entry blocks) {next next' : Unit → Run}
    (cuts : Run.Cut (fun _ => True) (next ()) (next' ())) :
    Run.Cut (fun _ => True) (hurt.subtreeRun height entry next)
      (file.subtreeRun height entry next') := by
  -- The runs may differ in what follows, so that one subtree after another can be cut.
  induction height generalizing entry blocks next next' with
  | zero =>
    obtain ⟨block, leads, -⟩ := spans
    obtain ⟨kind, payload, holds, fits⟩ := leaves entry block leads
    rw [subtreeRun, subtreeRun, dataBlockRun, dataBlockRun]
    rcases shadows.readRecords verifiable stored holds fits with ⟨error, failed⟩ | same
    · rw [failed]
      exact .failed trivial _
    · rw [same, shadows.format]
      cases file.readRecords entry.offset with
      | error error => exact .failed trivial _
      | ok records => exact Run.cut_ofRecords cuts _ _ _
  | succ height ih =>
    obtain ⟨entries, parts, leads, each, -⟩ := spans
    rw [subtreeRun, subtreeRun]
    rcases shadows.readIndexBlock verifiable stored leads with ⟨error, failed⟩ | ⟨read, whole⟩
    · rw [failed]
      exact .failed trivial _
    · rw [read, whole]
      exact Run.cut_concat each (fun _ _ spans _ _ cuts => ih spans cuts) cuts

theorem cut_run {parts : List (List β)} (each : List.Forall₂
    (file.source.Spans form leaf file.indexHeight) file.index.entries parts) :
    Run.Cut (fun _ => True) hurt.run file.run := by
  have height : hurt.indexHeight = file.indexHeight := by
    rw [indexHeight, indexHeight, shadows.index]
  rw [run, run, height, shadows.index]
  exact Run.cut_concat each
    (fun _ _ spans _ _ cuts => shadows.cut_subtree verifiable stored leaves spans cuts) .finished

end Shadows

end StoreFile

theorem Trailer.read_flip {source : Source} {position : Nat} (mask : UInt8)
    (before : position < start source.size) :
    Trailer.read (source.flip position mask) = Trailer.read source := by
  have size : (source.flip position mask).size = source.size :=
    (Bytes.length_flip ..).trans source.size_eq.symm
  rw [read, read, size, SourceReader.readAt_eq, SourceReader.readAt_eq,
    Source.readAt_flip (.inl before)]

namespace Blueprint

variable {plan : Blueprint}

section Faithful

variable (sound : plan.Sound) (metas : plan.metaBlocks ≠ []) {hurt : Source}
  (faithful : hurt.Faithful (Source.ofBytes plan.bytes) plan.form)

include sound faithful metas

/-- The index of the meta blocks, which there has to be: without one, its header alone would say
where the file info is. -/
theorem readMetaIndex_of_faithful {result : List IndexEntry × Nat}
    (read : StoreFile.readMetaIndex hurt plan.openedTrailer plan.metaIndexStage.1.offset =
      .ok result) :
    result = (plan.metaStage.1, plan.infoStage.1.offset) := by
  have count : 0 < plan.openedTrailer.metaIndexCount := by
    have length : plan.metaStage.1.length = plan.metaBlocks.length := by
      rw [metaStage, BlockWriter.length_entries_appendAll, namedBlocks, List.length_map]
    have nonempty := List.length_pos_iff.2 metas
    change 0 < plan.metaStage.1.length
    omega
  rw [StoreFile.readMetaIndex, if_pos count] at read
  obtain ⟨block, readBlock, read⟩ := exists_of_bind read
  obtain ⟨header, rfl, size⟩ :=
    (faithful (holds_metaRoot sound) (fits_metaRoot sound) readBlock).exists_header
  obtain ⟨rest, entries⟩ := parse_metaRoot sound
  have number : plan.openedTrailer.metaIndexCount = plan.metaStage.1.length := rfl
  simp only [Block.expect_self, number, entries, Block.next, size, next_metaRoot, liftM_decoded_ok,
    ok_bind, pure_eq_ok] at read
  exact (Except.ok.inj read).symm

theorem load_of_faithful
    (trailer : Trailer.read hurt = Trailer.read (Source.ofBytes plan.bytes)) {opened : StoreFile}
    (loaded : StoreFile.load hurt = .ok opened) :
    ∃ file, StoreFile.load (Source.ofBytes plan.bytes) = .ok file
      ∧ opened.Shadows file plan.form ∧ file.source = Source.ofBytes plan.bytes
      ∧ file.index = plan.opened.index := by
  rw [StoreFile.load, trailer, read_trailer sound, ok_bind] at loaded
  obtain ⟨root, readRoot, loaded⟩ := exists_of_bind loaded
  obtain ⟨rootHeader, rfl, rootSize⟩ :=
    (faithful (holds_root sound) (fits_root sound) readRoot).exists_header
  have count : plan.openedTrailer.dataIndexCount = plan.indexStage.1.top.length := rfl
  have levels : plan.openedTrailer.indexLevels = plan.indexStage.1.levels := rfl
  simp only [Block.expect_self, count, levels, parse_root sound, Block.next, rootSize, next_root,
    liftM_decoded_ok, ok_bind] at loaded
  obtain ⟨result, readMeta, loaded⟩ := exists_of_bind loaded
  obtain rfl := readMetaIndex_of_faithful sound metas faithful readMeta
  obtain ⟨info, readInfo, loaded⟩ := exists_of_bind loaded
  obtain ⟨infoHeader, rfl, -⟩ :=
    (faithful (holds_info sound) (fits_info sound) readInfo).exists_header
  simp only [Block.expect_self, parse_info sound, liftM_decoded_ok, ok_bind] at loaded
  -- All that is left may fail in both files alike, but for the filter, which no cell is read by.
  obtain ⟨encoding, encodes, loaded⟩ := exists_of_bind loaded
  obtain ⟨format, formats, loaded⟩ := exists_of_bind loaded
  obtain ⟨bloom, -, loaded⟩ := exists_of_bind loaded
  obtain rfl := Except.ok.inj loaded
  let file : StoreFile := { plan.opened with
    bloomKind := (plan.info plan.sorted).bloomKind.toOption.getD .absent, encoding, format }
  refine ⟨file, ?_, ⟨faithful, rfl, rfl, rfl, rfl, rfl⟩, rfl, rfl⟩
  rw [load_of_info sound, encodes, ok_bind, formats, ok_bind, pure_eq_ok]

end Faithful

/-- A byte that is damaged anywhere before the trailer of a file with checksums does no silent harm:
the file is not opened, or its cells come out as those of the undamaged file, all of them or up to
an error. -/
theorem cells_of_damaged (sound : plan.Sound) (metas : plan.metaBlocks ≠ [])
    (checks : plan.form.checksumKind ≠ .null) {position : Nat}
    (before : position < Trailer.start plan.bytes.length) {mask : UInt8} (flips : mask ≠ 0) :
    (∃ error, StoreFile.load (.ofBytes (Bytes.flip plan.bytes position mask)) = .error error)
    ∨ ∃ hurt file, StoreFile.load (.ofBytes (Bytes.flip plan.bytes position mask)) = .ok hurt
      ∧ StoreFile.load (.ofBytes plan.bytes) = .ok file
      ∧ ((∃ n error, answers CellIterator.next (n + 1) (.ofCursor (.ofFile hurt)) =
          answers CellIterator.next n (.ofCursor (.ofFile file)) ++ [some (.error error)])
        ∨ ∀ n, answers CellIterator.next n (.ofCursor (.ofFile hurt)) =
          answers CellIterator.next n (.ofCursor (.ofFile file))) := by
  have faithful : ((Source.ofBytes plan.bytes).flip position mask).Faithful
      (Source.ofBytes plan.bytes) plan.form :=
    Source.faithful_flip _ sound.verifiable sound.stored checks flips
  have trailer : Trailer.read ((Source.ofBytes plan.bytes).flip position mask) =
      Trailer.read (Source.ofBytes plan.bytes) := Trailer.read_flip mask before
  cases loaded : StoreFile.load (.ofBytes (Bytes.flip plan.bytes position mask)) with
  | error error => exact .inl ⟨error, rfl⟩
  | ok hurt =>
    obtain ⟨file, whole, shadows, source, index⟩ :=
      load_of_faithful sound metas faithful trailer loaded
    refine .inr ⟨hurt, file, rfl, whole, ?_⟩
    obtain ⟨parts, spans, -⟩ := spans_index sound
    have leaves (entry : IndexEntry) (block : List Mutation)
        (leads : plan.LeadsToData entry block) :
        ∃ kind payload, file.source.Holds plan.form entry.offset kind payload
          ∧ plan.form.Fits payload :=
      ⟨_, _, source ▸ leads.leads.holds, fits_data sound _ (List.mem_map_of_mem leads.member)⟩
    have each : List.Forall₂ (file.source.Spans plan.form plan.LeadsToData file.indexHeight)
        file.index.entries parts := by
      rw [source, StoreFile.indexHeight, index]
      exact spans
    have cut := shadows.cut_run sound.verifiable sound.stored leaves each
    exact CellIterator.answers_cut cut hurt file none none

/-- The damaged byte is the one that names the checksums of the first block. Flipped so, it says
that there are none. -/
theorem cells_of_damaged_twoRows : twoRows.Sound ∧ twoRows.metaBlocks ≠ []
    ∧ twoRows.form.checksumKind ≠ .null ∧ 24 < Trailer.start twoRows.bytes.length
    ∧ (1 : UInt8) ≠ 0
    ∧ ((∃ error, StoreFile.load (.ofBytes (Bytes.flip twoRows.bytes 24 1)) = .error error)
      ∨ ∃ hurt file, StoreFile.load (.ofBytes (Bytes.flip twoRows.bytes 24 1)) = .ok hurt
        ∧ StoreFile.load (.ofBytes twoRows.bytes) = .ok file
        ∧ ((∃ n error, answers CellIterator.next (n + 1) (.ofCursor (.ofFile hurt)) =
            answers CellIterator.next n (.ofCursor (.ofFile file)) ++ [some (.error error)])
          ∨ ∀ n, answers CellIterator.next n (.ofCursor (.ofFile hurt)) =
            answers CellIterator.next n (.ofCursor (.ofFile file)))) := by
  have metas : twoRows.metaBlocks ≠ [] := by decide
  have checks : twoRows.form.checksumKind ≠ .null := by decide
  have before : 24 < Trailer.start twoRows.bytes.length := by
    rw [Trailer.start, length_bytes]
    decide +kernel
  have flips : (1 : UInt8) ≠ 0 := by decide
  exact ⟨sound_twoRows, metas, checks, before, flips,
    cells_of_damaged sound_twoRows metas checks before flips⟩

end Blueprint

end CellStore
