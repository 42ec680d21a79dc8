import CellStore.Proofs.Damage

namespace CellStore

namespace Checksum

variable {kind : ChecksumKind} {chunkSize position : Nat} {mask : UInt8} {header payload : Bytes}

/-- The chunk that a byte is in or, behind the `length` bytes of all chunks, whose checksum it
belongs to. -/
def chunkAt (chunkSize length position : Nat) : Nat :=
  if position < length then position / chunkSize else (position - length) / 4

theorem verify_eq_check (checks : kind ≠ .null) (pos : 0 < chunkSize) {stored : Bytes}
    (length : stored.length = sumsLength (header ++ payload).length chunkSize) :
    verify kind chunkSize header payload stored =
      check kind 0 (pieces chunkSize (header ++ payload)) stored := by
  have enough : ¬ stored.length < sumsLength (header ++ payload).length chunkSize := by omega
  rw [verify, if_neg checks, if_neg (by omega)]
  exact if_neg enough

theorem verify_flip (checks : kind ≠ .null) (pos : 0 < chunkSize) (flips : mask ≠ 0)
    (inside : position < (header ++ payload ++ sums kind chunkSize (header ++ payload)).length) :
    ∃ header' payload' stored word computed,
      Bytes.flip (header ++ payload ++ sums kind chunkSize (header ++ payload)) position mask =
        header' ++ (payload' ++ stored)
      ∧ header'.length = header.length ∧ payload'.length = payload.length
      ∧ stored.length = (sums kind chunkSize (header ++ payload)).length
      ∧ verify kind chunkSize header' payload' stored =
        .error (.checksumMismatch (chunkAt chunkSize (header ++ payload).length position) word
          computed) := by
  have count := length_sums pos kind (header ++ payload)
  by_cases early : position < (header ++ payload).length
  · obtain ⟨word, computed, mismatch⟩ := check_flip checks pos flips early 0
    have length := Bytes.length_flip (header ++ payload) position mask
    rw [Bytes.flip_append_of_lt early]
    generalize Bytes.flip (header ++ payload) position mask = found at mismatch length ⊢
    have split := List.take_append_drop header.length found
    refine ⟨found.take header.length, found.drop header.length,
      sums kind chunkSize (header ++ payload), word, computed, ?_, ?_, ?_, rfl, ?_⟩
    · rw [← List.append_assoc, split]
    · rw [List.length_take, length, List.length_append]
      omega
    · rw [List.length_drop, length, List.length_append]
      omega
    · rw [verify_eq_check checks pos (by rw [split, length, count]), split, mismatch, Nat.zero_add,
        chunkAt, if_pos early]
  · have chunks : (sums kind chunkSize (header ++ payload)).length =
        4 * (pieces chunkSize (header ++ payload)).length := by
      rw [count, sumsLength, length_pieces pos, Nat.mul_comm]
    rw [List.length_append] at inside
    have inSums : position - (header ++ payload).length <
        4 * (pieces chunkSize (header ++ payload)).length := by omega
    obtain ⟨word, computed, mismatch⟩ := check_flip_sums kind flips inSums 0
    rw [← sums] at mismatch
    rw [Bytes.flip_append_of_le (Nat.le_of_not_lt early), List.append_assoc]
    have length := Bytes.length_flip (sums kind chunkSize (header ++ payload))
      (position - (header ++ payload).length) mask
    refine ⟨header, payload, _, word, computed, rfl, rfl, rfl, length, ?_⟩
    rw [verify_eq_check checks pos (length.trans count), mismatch, Nat.zero_add, chunkAt,
      if_neg early]

end Checksum

namespace BlockHeader

variable {header : BlockHeader} {bytes : Bytes} {position : Nat} {mask : UInt8}

theorem parse_of_says (told : header.Says bytes) (room : size ≤ bytes.length) :
    parse bytes = .ok header := by
  have enough : ¬ (bytes.take size).length < size := by
    rw [List.length_take]
    omega
  simp only [parse, enough, if_false, told.onDiskSize, told.uncompressedSize, told.checksumChunk,
    told.dataSizeWithHeader, ok_bind, pure_eq_ok, ← told.magic, ← told.previous,
    ← told.checksumKind]

theorem parse_flip (parsed : parse bytes = .ok header) (room : size ≤ bytes.length)
    (damaged : position < 8 ∨ 16 ≤ position ∧ position < 24 ∨ size ≤ position) :
    ∃ magic previous,
      parse (Bytes.flip bytes position mask) = .ok { header with magic, previous } := by
  have told := says_of_parse parsed
  rw [size] at damaged
  have kind : ((Bytes.flip bytes position mask).drop 24).take 1 = (bytes.drop 24).take 1 :=
    Bytes.part_flip (by omega)
  refine ⟨(Bytes.flip bytes position mask).take 8,
    Bytes.toInt (((Bytes.flip bytes position mask).drop 16).take 8), parse_of_says ?_ ?_⟩
  · exact {
      magic := rfl
      onDiskSize := by rw [sizeField_flip (by omega), told.onDiskSize]
      uncompressedSize := by rw [sizeField_flip (by omega), told.uncompressedSize]
      previous := rfl
      checksumKind := kind ▸ told.checksumKind
      checksumChunk := by rw [sizeField_flip (by omega), told.checksumChunk]
      dataSizeWithHeader := by rw [sizeField_flip (by omega), told.dataSizeWithHeader] }
  · rwa [Bytes.length_flip]

end BlockHeader

/-- Nothing is expanded before the checksums are verified. -/
theorem Block.ofParts_of_refused {headerBytes payload stored : Bytes} {header : BlockHeader}
    {kind : ChecksumKind} {cause : FormatError} (dataSize : header.dataSize = .ok payload.length)
    (known : ChecksumKind.ofId header.checksumKind = .ok kind)
    (refused : Checksum.verify kind header.checksumChunk headerBytes payload stored = .error cause)
    (offset : Nat) (codec : Codec) :
    ofParts headerBytes header (payload ++ stored) offset codec = .error cause := by
  simp only [ofParts, dataSize, known, ok_bind, List.take_left, List.drop_left, refused, error_bind]

namespace BlockForm

variable {form : BlockForm} {magic body : Bytes} {previous : Option Nat} {size position : Nat}
  {mask : UInt8}

def packedHeader (form : BlockForm) (magic : Bytes) (previous : Option Nat) (size : Nat)
    (body : Bytes) : BlockHeader where
  magic
  onDiskSize := body.length +
    if form.checked then Checksum.sumsLength (BlockHeader.size + body.length) form.checksumChunk
    else 0
  uncompressedSize := size
  previous := previous.elim (-1) Int.ofNat
  checksumKind := form.checksumKind.id
  checksumChunk := form.checksumChunk
  dataSizeWithHeader := BlockHeader.size + body.length

/-- A block whose payload was packed by any means. -/
def encodePacked (form : BlockForm) (magic : Bytes) (previous : Option Nat) (size : Nat)
    (body : Bytes) : Bytes :=
  let covered := (form.packedHeader magic previous size body).encode ++ body
  covered ++ form.sums covered

theorem encode_eq_encodePacked (form : BlockForm) (kind : BlockKind) (previous : Option Nat)
    (payload : Bytes) : form.encode kind previous payload =
      form.encodePacked kind.magic previous payload.length (form.packing.compress payload) := rfl

theorem encodePacked_eq (checks : form.checksumKind ≠ .null) (pos : 0 < form.checksumChunk) :
    form.encodePacked magic previous size body =
      (form.packedHeader magic previous size body).encode ++ body
        ++ Checksum.sums form.checksumKind form.checksumChunk
          ((form.packedHeader magic previous size body).encode ++ body) := by
  have checked : form.checked = true := by simp [BlockForm.checked, checks, pos]
  rw [encodePacked, sums, if_pos checked]

theorem onDiskSize_packedHeader (checks : form.checksumKind ≠ .null)
    (pos : 0 < form.checksumChunk) :
    (form.packedHeader magic previous size body).onDiskSize = body.length
      + Checksum.sumsLength (BlockHeader.size + body.length) form.checksumChunk := by
  have checked : form.checked = true := by simp [BlockForm.checked, checks, pos]
  simp only [packedHeader, checked, if_true]

theorem parse_packedHeader (range : (form.packedHeader magic previous size body).InRange)
    (damaged : position < 8 ∨ 16 ≤ position ∧ position < 24 ∨ BlockHeader.size ≤ position)
    {behind : Bytes} (inside : position <
      ((form.packedHeader magic previous size body).encode ++ body ++ behind).length)
    (rest : Bytes) :
    ∃ magic' previous', BlockHeader.parse (Bytes.flip
        ((form.packedHeader magic previous size body).encode ++ body ++ behind) position mask
          ++ rest) =
      .ok { form.packedHeader magic previous size body with
        magic := magic', previous := previous' } := by
  rw [← Bytes.flip_append_of_lt inside, List.append_assoc, List.append_assoc]
  refine BlockHeader.parse_flip (BlockHeader.parse_encode range _) ?_ damaged
  rw [List.length_append, BlockHeader.length_encode range.magic]
  exact Nat.le_add_right ..

theorem parse_flip_sums (range : (form.packedHeader magic previous size body).InRange)
    (checks : form.checksumKind ≠ .null) (pos : 0 < form.checksumChunk) (flips : mask ≠ 0)
    (damaged : position < 8 ∨ 16 ≤ position ∧ position < 24 ∨ BlockHeader.size ≤ position)
    {sums : Bytes} (summed : Checksum.sums form.checksumKind form.checksumChunk
      ((form.packedHeader magic previous size body).encode ++ body) = sums)
    (inside : position <
      ((form.packedHeader magic previous size body).encode ++ body ++ sums).length)
    (rest : Bytes) (offset : Nat) (codec : Codec) :
    ∃ stored computed,
      Block.parse (Bytes.flip
          ((form.packedHeader magic previous size body).encode ++ body ++ sums) position mask
            ++ rest) offset codec =
        .error (.checksumMismatch
          (Checksum.chunkAt form.checksumChunk (BlockHeader.size + body.length) position)
          stored computed) := by
  obtain ⟨magic', previous', parsed⟩ := parse_packedHeader range damaged inside rest
  subst summed
  let header := form.packedHeader magic previous size body
  have length : header.encode.length = BlockHeader.size := BlockHeader.length_encode range.magic
  have covered : (header.encode ++ body).length = BlockHeader.size + body.length := by
    rw [List.length_append, length]
  obtain ⟨headerBytes, payload, stored, word, computed, parts, headerLength, payloadLength,
    storedLength, refused⟩ := Checksum.verify_flip checks pos flips inside
  rw [parts, List.append_assoc] at parsed
  rw [Checksum.length_sums pos, covered] at storedLength
  rw [covered] at refused
  have onDisk : (payload ++ stored).length = header.onDiskSize := by
    rw [List.length_append, payloadLength, storedLength, onDiskSize_packedHeader checks pos]
  have dataSize :
      ({ header with magic := magic', previous := previous' } : BlockHeader).dataSize =
        .ok payload.length := by
    simp [BlockHeader.dataSize, header, packedHeader, payloadLength]
  refine ⟨word, computed, ?_⟩
  rw [parts, List.append_assoc, Block.parse_parts parsed (headerLength.trans length) onDisk]
  exact Block.ofParts_of_refused dataSize (ChecksumKind.ofId_id _) refused offset codec

/-- A damaged byte is told by its chunk, whatever codec the block is to be expanded with. What says
how to verify the checksums is itself trusted before. -/
theorem mismatch_of_flip (range : (form.packedHeader magic previous size body).InRange)
    (checks : form.checksumKind ≠ .null) (pos : 0 < form.checksumChunk) (flips : mask ≠ 0)
    (damaged : position < 8 ∨ 16 ≤ position ∧ position < 24 ∨ BlockHeader.size ≤ position)
    (inside : position < (form.encodePacked magic previous size body).length) (rest : Bytes)
    (offset : Nat) (codec : Codec) :
    ∃ stored computed,
      Block.parse (Bytes.flip (form.encodePacked magic previous size body) position mask ++ rest)
          offset codec =
        .error (.checksumMismatch
          (Checksum.chunkAt form.checksumChunk (BlockHeader.size + body.length) position)
          stored computed) := by
  rw [encodePacked_eq checks pos] at inside ⊢
  exact parse_flip_sums range checks pos flips damaged rfl inside rest offset codec

def gzipped : BlockForm := ⟨.gzip, .crc32c, 16⟩

def threeBytes : Bytes := gzipped.packing.compress [1, 2, 3]

theorem mismatch_of_flip_threeBytes :
    (gzipped.packedHeader BlockKind.data.magic none 3 threeBytes).InRange
      ∧ gzipped.checksumKind ≠ .null ∧ 0 < gzipped.checksumChunk ∧ (128 : UInt8) ≠ 0
      ∧ (34 < 8 ∨ 16 ≤ 34 ∧ 34 < 24 ∨ BlockHeader.size ≤ 34)
      ∧ 34 < (gzipped.encodePacked BlockKind.data.magic none 3 threeBytes).length
      ∧ ∃ stored computed,
        Block.parse (Bytes.flip (gzipped.encodePacked BlockKind.data.magic none 3 threeBytes) 34 128
            ++ []) 0 .gzip =
          .error (.checksumMismatch 2 stored computed) := by
  have range : (gzipped.packedHeader BlockKind.data.magic none 3 threeBytes).InRange :=
    ⟨rfl, by decide +kernel, by decide, by decide, by decide, by decide, by decide +kernel⟩
  have flips : (128 : UInt8) ≠ 0 := by decide
  have inside : 34 < (gzipped.encodePacked BlockKind.data.magic none 3 threeBytes).length := by
    decide +kernel
  have told := mismatch_of_flip range (by decide) (by decide) flips (by decide) inside [] 0 .gzip
  have chunk : Checksum.chunkAt gzipped.checksumChunk (BlockHeader.size + threeBytes.length) 34 =
      2 := by decide +kernel
  rw [chunk] at told
  exact ⟨range, by decide, by decide, flips, by decide, inside, told⟩

/-- So it is for the blocks that are written, of any kind and packed in any form. -/
theorem mismatch_of_flip_encode {kind : BlockKind} {payload : Bytes} (verifiable : form.Verifiable)
    (checks : form.checksumKind ≠ .null) (fits : form.Fits payload)
    (small : ∀ start ∈ previous, start < 0x8000_0000_0000_0000) (flips : mask ≠ 0)
    (damaged : position < 8 ∨ 16 ≤ position ∧ position < 24 ∨ BlockHeader.size ≤ position)
    (inside : position < (form.encode kind previous payload).length) (rest : Bytes)
    (offset : Nat) (codec : Codec) :
    ∃ stored computed,
      Block.parse (Bytes.flip (form.encode kind previous payload) position mask ++ rest)
          offset codec =
        .error (.checksumMismatch (Checksum.chunkAt form.checksumChunk
          (BlockHeader.size + (form.packing.compress payload).length) position)
          stored computed) := by
  have pos := verifiable.checked checks
  have range : (form.header kind previous payload).InRange :=
    inRange_header verifiable fits small
  rw [encode_eq_encodePacked, encodePacked_eq checks pos] at inside ⊢
  exact parse_flip_sums range checks pos flips damaged rfl inside rest offset codec

end BlockForm

end CellStore
