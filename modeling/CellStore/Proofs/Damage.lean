import CellStore.Proofs.Checksum
import CellStore.Proofs.Writer

/-! A block with a damaged byte is read as it was written, or not at all. -/

namespace CellStore

namespace BlockHeader

/-- What a header says is what the bytes it was read from say. -/
structure Says (header : BlockHeader) (bytes : Bytes) : Prop where
  magic : header.magic = bytes.take 8
  onDiskSize : sizeField bytes 8 "on-disk size" = .ok header.onDiskSize
  uncompressedSize : sizeField bytes 12 "uncompressed size" = .ok header.uncompressedSize
  previous : header.previous = Bytes.toInt ((bytes.drop 16).take 8)
  checksumKind : header.checksumKind = Bytes.toNat ((bytes.drop 24).take 1)
  checksumChunk : sizeField bytes 25 "bytes per checksum" = .ok header.checksumChunk
  dataSizeWithHeader :
    sizeField bytes 29 "on-disk data size" = .ok header.dataSizeWithHeader

variable {header : BlockHeader} {bytes : Bytes}

theorem says_of_parse (parsed : parse bytes = .ok header) : header.Says bytes := by
  rw [parse] at parsed
  split at parsed
  · cases parsed
  · obtain ⟨onDiskSize, readOnDiskSize, parsed⟩ := exists_of_bind parsed
    obtain ⟨uncompressedSize, readUncompressedSize, parsed⟩ := exists_of_bind parsed
    obtain ⟨checksumChunk, readChunk, parsed⟩ := exists_of_bind parsed
    obtain ⟨dataSizeWithHeader, readDataSize, parsed⟩ := exists_of_bind parsed
    obtain rfl := Except.ok.inj parsed
    exact ⟨rfl, readOnDiskSize, readUncompressedSize, rfl, rfl, readChunk, readDataSize⟩

variable {position start : Nat} {mask : UInt8} {field : String}

theorem sizeField_flip (outside : position < start ∨ start + 4 ≤ position) :
    sizeField (Bytes.flip bytes position mask) start field = sizeField bytes start field := by
  rw [sizeField, Bytes.part_flip outside, ← sizeField]

theorem size_eq_of_flip {a b : Nat}
    (read : sizeField (Bytes.flip bytes position mask) start field = .ok a)
    (was : sizeField bytes start field = .ok b)
    (outside : position < start ∨ start + 4 ≤ position) : a = b := by
  rw [sizeField_flip outside, was] at read
  exact (Except.ok.inj read).symm

end BlockHeader

theorem take_parts {α : Type} (xs : List α) {a b c m : Nat} (room : b + c ≤ m) :
    xs.take a ++ (xs.drop a).take b ++ (((xs.drop a).take m).drop b).take c =
      xs.take (a + b + c) := by
  rw [List.drop_take, List.take_take, Nat.min_eq_left (by omega), List.drop_drop, List.take_add,
    List.take_add]

namespace Block

structure ReadFrom (bytes : Bytes) (block : Block) : Prop where
  header : block.header.Says (bytes.take BlockHeader.size)
  room : BlockHeader.size + block.header.onDiskSize ≤ bytes.length
  dataSize : block.header.dataSizeWithHeader = BlockHeader.size + block.data.length
  within : block.data.length ≤ block.header.onDiskSize
  data : block.data = (bytes.drop BlockHeader.size).take block.data.length
  expanded : block.data.length = block.header.uncompressedSize
  kind : block.header.kind = .ok block.kind
  verified : ∃ kind, ChecksumKind.ofId block.header.checksumKind = .ok kind
    ∧ Checksum.verify kind block.header.checksumChunk (bytes.take BlockHeader.size) block.data
      (((bytes.drop BlockHeader.size).take block.header.onDiskSize).drop block.data.length) = .ok ()

variable {source : Source} {offset length : Nat} {bytes : Bytes} {block : Block}

theorem of_fetch {what : String} (fetched : fetch source what offset length = .ok bytes) :
    bytes = (source.bytes.drop offset).take length ∧ offset + length ≤ source.bytes.length := by
  by_cases fits : offset + length ≤ source.size
  · rw [fetch_of_fits fits] at fetched
    exact ⟨(Except.ok.inj fetched).symm, source.size_eq ▸ fits⟩
  · rw [fetch_of_short (Nat.lt_of_not_le fits)] at fetched
    cases fetched

theorem readFrom_of_read (made : read source offset .stored = .ok block) :
    block.offset = offset ∧ block.ReadFrom (source.bytes.drop offset) := by
  obtain ⟨headerBytes, fetchedHeader, made⟩ := exists_of_bind made
  obtain ⟨header, parsed, made⟩ := exists_of_bind made
  obtain ⟨onDisk, fetchedBody, made⟩ := exists_of_bind made
  obtain ⟨dataSize, dataSized, made⟩ := exists_of_bind (ok_of_liftM_decoded made)
  obtain ⟨checksumKind, known, made⟩ := exists_of_bind made
  obtain ⟨_, verified, made⟩ := exists_of_bind made
  obtain ⟨kind, kinds, made⟩ := exists_of_bind made
  obtain ⟨data, expanded, made⟩ := exists_of_bind made
  obtain rfl := Except.ok.inj made
  obtain ⟨rfl, -⟩ := of_fetch fetchedHeader
  obtain ⟨rfl, inside⟩ := of_fetch fetchedBody
  have told := BlockHeader.says_of_parse (ok_of_liftM_decoded parsed)
  rw [BlockHeader.dataSize] at dataSized
  split at dataSized
  · rename_i sizes
    obtain rfl := Except.ok.inj dataSized
    rw [Codec.decompress, Codec.expand, ok_bind] at expanded
    split at expanded
    · cases expanded
    · rename_i whole
      obtain rfl := Except.ok.inj expanded
      have length : ((((source.bytes.drop (offset + BlockHeader.size)).take header.onDiskSize).take
          (header.dataSizeWithHeader - BlockHeader.size))).length =
            header.dataSizeWithHeader - BlockHeader.size := by
        simp only [List.length_take, List.length_drop]
        omega
      refine ⟨rfl, told, ?_, ?_, ?_, ?_, Decidable.not_not.1 whole, kinds, checksumKind, known, ?_⟩
      · simp only [List.length_drop]
        omega
      · simp only [length]
        omega
      · rw [length]
        exact sizes.2
      · rw [length, List.drop_drop, List.take_take, Nat.min_eq_left sizes.2]
      · rw [length, List.drop_drop]
        exact verified
  · cases dataSized

theorem ReadFrom.starts (read : block.ReadFrom bytes) {kind : ChecksumKind} {chunkSize : Nat}
    (known : ChecksumKind.ofId block.header.checksumKind = .ok kind) (checks : kind ≠ .null)
    (chunk : block.header.checksumChunk = chunkSize) (pos : 0 < chunkSize) :
    ∃ covered : Bytes, covered.length = BlockHeader.size + block.data.length ∧
      bytes.take (covered.length + Checksum.sumsLength covered.length chunkSize) =
        covered ++ Checksum.sums kind chunkSize covered := by
  subst chunk
  obtain ⟨found, named, verified⟩ := read.verified
  rw [known] at named
  obtain rfl := Except.ok.inj named
  have own := Checksum.eq_sums_of_verify checks verified
  have room := read.room
  have within := read.within
  have enough := congrArg List.length own
  have length : (bytes.take BlockHeader.size ++ block.data).length =
      BlockHeader.size + block.data.length := by
    rw [List.length_append, List.length_take, Nat.min_eq_left (by omega)]
  rw [Checksum.length_sums pos, length, List.length_take, List.length_drop, List.length_take,
    List.length_drop] at enough
  refine ⟨bytes.take BlockHeader.size ++ block.data, length, ?_⟩
  rw [← own]
  nth_rewrite 3 [read.data]
  rw [length, take_parts]
  omega

end Block

namespace BlockForm

variable {form : BlockForm} {kind : BlockKind} {previous : Option Nat} {payload after : Bytes}
  {position : Nat} {mask : UInt8} {block : Block}

def covered (form : BlockForm) (kind : BlockKind) (previous : Option Nat) (payload : Bytes) :
    Bytes := (form.header kind previous payload).encode ++ payload

theorem length_header (form : BlockForm) (kind : BlockKind) (previous : Option Nat)
    (payload : Bytes) :
    (form.header kind previous payload).encode.length = BlockHeader.size :=
  BlockHeader.length_encode kind.length_magic

theorem length_covered : (form.covered kind previous payload).length =
    BlockHeader.size + payload.length := by
  rw [covered, List.length_append, length_header]

theorem take_flip_covered (rest : Bytes) :
    ((Bytes.flip (form.covered kind previous payload ++ rest) position mask ++ after).take
      BlockHeader.size) = Bytes.flip (form.header kind previous payload).encode position mask := by
  have length := length_header form kind previous payload
  rw [List.take_append_of_le_length (by simp [covered, length]), Bytes.take_flip, covered,
    List.append_assoc, List.take_left' length]

theorem encode_stored (stored : form.packing = .stored) : form.encode kind previous payload =
    form.covered kind previous payload ++ form.sums (form.covered kind previous payload) := by
  have body : form.packing.compress payload = payload := by rw [stored]; rfl
  rw [encode_eq, body, ← List.append_assoc]
  rfl

theorem sums_checked (verifiable : form.Verifiable) (checks : form.checksumKind ≠ .null)
    (bytes : Bytes) :
    form.sums bytes = Checksum.sums form.checksumKind form.checksumChunk bytes := by
  have checked : form.checked = true := by
    simp [BlockForm.checked, checks, verifiable.checked checks]
  exact if_pos checked

section Flip

variable (verifiable : form.Verifiable) (fits : form.Fits payload)
  (small : ∀ start ∈ previous, start < 0x8000_0000_0000_0000)

include verifiable fits small

theorem says_header :
    (form.header kind previous payload).Says (form.header kind previous payload).encode := by
  have range : (form.header kind previous payload).InRange :=
    inRange_header verifiable fits small
  have parsed := BlockHeader.parse_encode range []
  rw [List.append_nil] at parsed
  exact BlockHeader.says_of_parse parsed

/-- No block is read when the damage is not to what the header says about checksums and the size of
the payload: these then lead to the checksums, and find it. -/
theorem not_readFrom_flip (stored : form.packing = .stored) (checks : form.checksumKind ≠ .null)
    (flips : mask ≠ 0)
    (inside : position < (form.encode kind previous payload).length)
    (outside : position < 24 ∨ BlockHeader.size ≤ position) :
    ¬ block.ReadFrom (Bytes.flip (form.encode kind previous payload) position mask ++ after) := by
  intro read
  have told : (form.header kind previous payload).Says _ := says_header verifiable fits small
  have hurt := read.header
  rw [encode_stored stored, sums_checked verifiable checks] at inside read hurt
  rw [take_flip_covered] at hurt
  rw [BlockHeader.size] at outside
  have dataSize := BlockHeader.size_eq_of_flip hurt.dataSizeWithHeader told.dataSizeWithHeader
    (by omega)
  have chunk : block.header.checksumChunk = form.checksumChunk :=
    BlockHeader.size_eq_of_flip hurt.checksumChunk told.checksumChunk (by omega)
  have checksumKind : block.header.checksumKind = form.checksumKind.id := by
    rw [hurt.checksumKind, Bytes.part_flip (by omega), ← told.checksumKind]
    rfl
  have known := ChecksumKind.ofId_id form.checksumKind
  rw [← checksumKind] at known
  have pos := verifiable.checked checks
  obtain ⟨other, length, starts⟩ := read.starts known checks chunk pos
  have same : other.length = (form.covered kind previous payload).length := by
    rw [length, ← read.dataSize, dataSize, length_covered, header, stored]
    rfl
  have size : other.length + Checksum.sumsLength other.length form.checksumChunk =
      (Bytes.flip (form.covered kind previous payload ++ Checksum.sums form.checksumKind
        form.checksumChunk (form.covered kind previous payload)) position mask).length := by
    rw [Bytes.length_flip, List.length_append, Checksum.length_sums pos, same]
  rw [size, List.take_left] at starts
  exact Checksum.flip_sums_ne checks pos flips inside same starts

/-- Damage to what the header says about checksums and the size of the payload may keep them from
being checked, but the block is what it was. -/
theorem restores_of_flip_rule (stored : form.packing = .stored)
    (rule : 24 ≤ position ∧ position < BlockHeader.size)
    (read : block.ReadFrom
      (Bytes.flip (form.encode kind previous payload) position mask ++ after)) :
    block.kind = kind ∧ block.data = payload
      ∧ block.header.onDiskSizeWithHeader = form.size payload := by
  have told : (form.header kind previous payload).Says _ := says_header verifiable fits small
  have hurt := read.header
  have same := read.data
  have kinds := read.kind
  have length := length_header form kind previous payload
  rw [encode_stored stored] at hurt same
  rw [take_flip_covered] at hurt
  have onDisk := BlockHeader.size_eq_of_flip hurt.onDiskSize told.onDiskSize (by omega)
  have expanded : block.data.length = payload.length := by
    rw [read.expanded]
    exact BlockHeader.size_eq_of_flip hurt.uncompressedSize told.uncompressedSize (by omega)
  have body : (Bytes.flip (form.covered kind previous payload
      ++ form.sums (form.covered kind previous payload)) position mask ++ after).drop
        BlockHeader.size =
      payload ++ (form.sums (form.covered kind previous payload) ++ after) := by
    rw [List.drop_append_of_le_length (by simp [covered, length]), Bytes.drop_flip_of_lt rule.2,
      covered, List.append_assoc, List.drop_left' length, List.append_assoc]
  refine ⟨?_, ?_, ?_⟩
  · have magic : block.header.magic = (form.header kind previous payload).magic := by
      rw [hurt.magic, Bytes.take_flip, Bytes.flip_of_le (by rw [List.length_take]; omega),
        ← told.magic]
    have written : (form.header kind previous payload).kind = .ok kind := kind_header
    rw [BlockHeader.kind, magic, ← BlockHeader.kind, written] at kinds
    exact (Except.ok.inj kinds).symm
  · rw [same, body, expanded, List.take_left]
  · rw [BlockHeader.onDiskSizeWithHeader, onDisk]
    rfl

end Flip

end BlockForm

namespace Source

def flip (source : Source) (position : Nat) (mask : UInt8) : Source :=
  .ofBytes (Bytes.flip source.bytes position mask)

variable {source : Source} {form : BlockForm} {offset position : Nat} {kind : BlockKind}
  {payload : Bytes} {mask : UInt8} {block : Block}

theorem readAt_flip {length : Nat} (outside : position < offset ∨ offset + length ≤ position) :
    (source.flip position mask).readAt offset length = source.readAt offset length := by
  have size : (source.flip position mask).size = source.size :=
    (Bytes.length_flip ..).trans source.size_eq.symm
  have part : (((source.flip position mask).bytes.drop offset).take length) =
      (source.bytes.drop offset).take length := Bytes.part_flip outside
  rw [readAt, readAt, size, part]

/-- A block that was read at `offset` is the one that stands there. -/
structure Restores (form : BlockForm) (offset : Nat) (kind : BlockKind) (payload : Bytes)
    (block : Block) : Prop where
  offset : block.offset = offset
  kind : block.kind = kind
  data : block.data = payload
  size : block.header.onDiskSizeWithHeader = form.size payload

theorem Restores.exists_header (restores : Restores form offset kind payload block) :
    ∃ header, block = ⟨header, kind, offset, payload⟩
      ∧ header.onDiskSizeWithHeader = form.size payload := by
  obtain ⟨rfl, rfl, rfl, size⟩ := restores
  exact ⟨block.header, rfl, size⟩

theorem Holds.restores (holds : source.Holds form offset kind payload)
    (verifiable : form.Verifiable) (stored : form.packing = .stored) (fits : form.Fits payload)
    (read : Block.read source offset .stored = .ok block) :
    Restores form offset kind payload block := by
  obtain ⟨header, whole, size⟩ := holds.read verifiable stored fits
  obtain rfl := Except.ok.inj (whole.symm.trans read)
  exact ⟨rfl, rfl, rfl, size⟩

theorem Holds.restores_of_flip (holds : source.Holds form offset kind payload)
    (verifiable : form.Verifiable) (stored : form.packing = .stored) (fits : form.Fits payload)
    (checks : form.checksumKind ≠ .null) (flips : mask ≠ 0)
    (read : Block.read (source.flip position mask) offset .stored = .ok block) :
    Restores form offset kind payload block := by
  obtain ⟨before, previous, after, whole, length, small⟩ := holds
  have bytes : (source.flip position mask).bytes =
      Bytes.flip (before ++ (form.encode kind previous payload ++ after)) position mask :=
    congrArg (Bytes.flip · position mask) whole
  -- The byte stands before the block, in it, or behind it.
  by_cases early : position < before.length
  · rw [Bytes.flip_append_of_lt early] at bytes
    have holds : (source.flip position mask).Holds form offset kind payload :=
      ⟨_, previous, after, bytes, by rw [Bytes.length_flip, length], small⟩
    exact holds.restores verifiable stored fits read
  · rw [Bytes.flip_append_of_le (by omega)] at bytes
    by_cases inside : position - before.length < (form.encode kind previous payload).length
    · rw [Bytes.flip_append_of_lt inside] at bytes
      obtain ⟨same, read⟩ := Block.readFrom_of_read read
      rw [bytes, List.drop_left' length] at read
      by_cases rule : 24 ≤ position - before.length ∧ position - before.length < BlockHeader.size
      · obtain ⟨kinds, data, size⟩ :=
          BlockForm.restores_of_flip_rule verifiable fits small stored rule read
        exact ⟨same, kinds, data, size⟩
      · exact (BlockForm.not_readFrom_flip verifiable fits small stored checks flips inside
          (by omega) read).elim
    · rw [Bytes.flip_append_of_le (by omega)] at bytes
      have holds : (source.flip position mask).Holds form offset kind payload :=
        ⟨before, previous, _, bytes, length, small⟩
      exact holds.restores verifiable stored fits read

/-- Where blocks stand in `source`, nothing else is read from `hurt` than these blocks. -/
def Faithful (hurt source : Source) (form : BlockForm) : Prop :=
  ∀ {offset : Nat} {kind : BlockKind} {payload : Bytes} {block : Block},
    source.Holds form offset kind payload → form.Fits payload →
      Block.read hurt offset .stored = .ok block → Restores form offset kind payload block

theorem faithful_flip (source : Source) (verifiable : form.Verifiable)
    (stored : form.packing = .stored) (checks : form.checksumKind ≠ .null) (flips : mask ≠ 0) :
    (source.flip position mask).Faithful source form :=
  fun holds fits read => holds.restores_of_flip verifiable stored fits checks flips read

end Source

end CellStore
