import CellStore.Block.Writer
import CellStore.Proofs.Input
import CellStore.Proofs.Pieces

namespace CellStore

namespace Bytes

@[simp] theorem length_ofInt (width : Nat) (n : Int) : (ofInt width n).length = width :=
  length_ofNat ..

theorem toInt_ofNat {width n : Nat} (small : 2 * n < 256 ^ width) :
    toInt (ofNat width n) = n := by
  have same : n % 256 ^ width = n := Nat.mod_eq_of_lt (by omega)
  simp [toInt, same, small]

theorem toInt_ofInt {width : Nat} {n : Int} (low : -(256 ^ width) ≤ 2 * n)
    (high : 2 * n < 256 ^ width) : toInt (ofInt width n) = n := by
  have pos : (0 : Int) < 256 ^ width := Int.pow_pos (by decide)
  have residue := Int.emod_nonneg n (Int.ne_of_gt pos)
  have below := Int.emod_lt_of_pos n pos
  have cast : ((256 ^ width : Nat) : Int) = 256 ^ width := by simp
  have same : (n % 256 ^ width).toNat % 256 ^ width = (n % 256 ^ width).toNat :=
    Nat.mod_eq_of_lt (by omega)
  by_cases negative : n < 0
  · have wrapped : n % 256 ^ width = n + 256 ^ width := by
      rw [← Int.add_emod_right, Int.emod_eq_of_lt (by omega) (by omega)]
    simp only [toInt, ofInt, toNat_ofNat, same, length_ofNat]
    rw [if_neg (by omega)]
    omega
  · have kept : n % 256 ^ width = n := Int.emod_eq_of_lt (by omega) (by omega)
    simp only [toInt, ofInt, toNat_ofNat, same, length_ofNat]
    rw [if_pos (by omega)]
    omega

theorem drop_past {bytes part after : Bytes} {start width : Nat}
    (here : bytes.drop start = part ++ after) (length : part.length = width) :
    bytes.drop (start + width) = after := by
  rw [← List.drop_drop, here, List.drop_left' length]

end Bytes

namespace BlockHeader

structure InRange (header : BlockHeader) : Prop where
  magic : header.magic.length = 8
  onDiskSize : header.onDiskSize < 0x8000_0000
  uncompressedSize : header.uncompressedSize < 0x8000_0000
  previous : -0x8000_0000_0000_0000 ≤ header.previous ∧ header.previous < 0x8000_0000_0000_0000
  checksumKind : header.checksumKind < 256
  checksumChunk : header.checksumChunk < 0x8000_0000
  dataSizeWithHeader : header.dataSizeWithHeader < 0x8000_0000

variable {header : BlockHeader}

@[simp] theorem length_encode (magic : header.magic.length = 8) :
    header.encode.length = size := by
  simp [encode, Bytes.ofInt, magic, size]

theorem sizeField_ofNat {bytes : Bytes} {start n : Nat} {what : String}
    (field : (bytes.drop start).take 4 = Bytes.ofNat 4 n) (small : n < 0x8000_0000) :
    sizeField bytes start what = .ok n := by
  have value : Bytes.toInt (Bytes.ofNat 4 n) = n := Bytes.toInt_ofNat (by omega)
  simp [sizeField, field, value]

theorem parse_encode (range : header.InRange) (rest : Bytes) :
    parse (header.encode ++ rest) = .ok header := by
  have magic := range.magic
  have enough : ¬ ((header.encode ++ rest).take size).length < size := by
    simp [magic]
  have start : (header.encode ++ rest).take 8 = header.magic := by
    simp only [encode, List.append_assoc]
    exact List.take_left' magic
  have at8 : (header.encode ++ rest).drop 8 = Bytes.ofNat 4 header.onDiskSize
      ++ (Bytes.ofNat 4 header.uncompressedSize ++ (Bytes.ofInt 8 header.previous
      ++ (Bytes.ofNat 1 header.checksumKind ++ (Bytes.ofNat 4 header.checksumChunk
      ++ (Bytes.ofNat 4 header.dataSizeWithHeader ++ rest))))) := by
    simp only [encode, List.append_assoc]
    exact List.drop_left' magic
  generalize header.encode ++ rest = bytes at enough start at8 ⊢
  have at12 : bytes.drop 12 = _ := Bytes.drop_past at8 (Bytes.length_ofNat 4 _)
  have at16 : bytes.drop 16 = _ := Bytes.drop_past at12 (Bytes.length_ofNat 4 _)
  have at24 : bytes.drop 24 = _ := Bytes.drop_past at16 (Bytes.length_ofInt 8 _)
  have at25 : bytes.drop 25 = _ := Bytes.drop_past at24 (Bytes.length_ofNat 1 _)
  have at29 : bytes.drop 29 = _ := Bytes.drop_past at25 (Bytes.length_ofNat 4 _)
  have field {start n : Nat} {after : Bytes} (here : bytes.drop start = Bytes.ofNat 4 n ++ after)
      (small : n < 0x8000_0000) (what : String) : sizeField bytes start what = .ok n :=
    sizeField_ofNat (here ▸ List.take_left' (Bytes.length_ofNat 4 n)) small
  have previous : Bytes.toInt ((bytes.drop 16).take 8) = header.previous := by
    rw [at16, List.take_left' (Bytes.length_ofInt 8 _)]
    exact Bytes.toInt_ofInt (by have := range.previous; omega) (by have := range.previous; omega)
  have checksumKind : Bytes.toNat ((bytes.drop 24).take 1) = header.checksumKind := by
    rw [at24, List.take_left' (Bytes.length_ofNat 1 _), Bytes.toNat_ofNat]
    exact Nat.mod_eq_of_lt range.checksumKind
  simp only [parse, enough, if_false, start, field at8 range.onDiskSize,
    field at12 range.uncompressedSize, field at25 range.checksumChunk,
    field at29 range.dataSizeWithHeader, previous, checksumKind, ok_bind, pure_eq_ok]

end BlockHeader

namespace Checksum

theorem length_sums {chunkSize : Nat} (pos : 0 < chunkSize) (kind : ChecksumKind)
    (covered : Bytes) :
    (sums kind chunkSize covered).length = sumsLength covered.length chunkSize := by
  have each (chunks : List Bytes) :
      (chunks.flatMap fun chunk => Bytes.ofNat 4 (kind.compute chunk).toNat).length =
        chunks.length * 4 := by
    induction chunks with
    | nil => rfl
    | cons chunk chunks ih => simp [ih]; omega
  rw [sums, each, length_pieces pos, sumsLength]

theorem check_cons (kind : ChecksumKind) (index : Nat) (chunk : Bytes) (chunks : List Bytes)
    (word : UInt32) (stored : Bytes) :
    check kind index (chunk :: chunks) (Bytes.ofNat 4 word.toNat ++ stored) =
      if kind.compute chunk = word then check kind (index + 1) chunks stored
      else .error (.checksumMismatch index word (kind.compute chunk)) := by
  have bound := word.toNat_lt
  have same : UInt32.ofNat (word.toNat % 256 ^ 4) = word := by
    rw [Nat.mod_eq_of_lt (by omega), UInt32.ofNat_toNat]
  rw [check, List.take_left' (Bytes.length_ofNat 4 _), Bytes.toNat_ofNat, same,
    List.drop_left' (Bytes.length_ofNat 4 _)]

theorem check_sums (kind : ChecksumKind) (index : Nat) (chunks : List Bytes) :
    check kind index chunks
      (chunks.flatMap fun chunk => Bytes.ofNat 4 (kind.compute chunk).toNat) = .ok () := by
  induction chunks generalizing index with
  | nil => rfl
  | cons chunk chunks ih => rw [List.flatMap_cons, check_cons, if_pos rfl, ih]

theorem verify_sums {chunkSize : Nat} (pos : 0 < chunkSize) (kind : ChecksumKind)
    (header payload : Bytes) :
    verify kind chunkSize header payload (sums kind chunkSize (header ++ payload)) = .ok () := by
  have enough : ¬ (sums kind chunkSize (header ++ payload)).length <
      sumsLength (header ++ payload).length chunkSize := by
    rw [length_sums pos]
    omega
  simp only [verify, Nat.pos_iff_ne_zero.1 pos, if_false, enough]
  split
  · rfl
  · exact check_sums kind 0 _

end Checksum

namespace BlockForm

variable {form : BlockForm} {kind : BlockKind} {previous : Option Nat} {payload : Bytes}

def sumsLength (form : BlockForm) (payload : Bytes) : Nat :=
  if form.checked then
    Checksum.sumsLength (BlockHeader.size + (form.packing.compress payload).length)
      form.checksumChunk
  else 0

def header (form : BlockForm) (kind : BlockKind) (previous : Option Nat) (payload : Bytes) :
    BlockHeader where
  magic := kind.magic
  onDiskSize := (form.packing.compress payload).length + form.sumsLength payload
  uncompressedSize := payload.length
  previous := previous.elim (-1) Int.ofNat
  checksumKind := form.checksumKind.id
  checksumChunk := form.checksumChunk
  dataSizeWithHeader := BlockHeader.size + (form.packing.compress payload).length

def sums (form : BlockForm) (covered : Bytes) : Bytes :=
  if form.checked then Checksum.sums form.checksumKind form.checksumChunk covered else []

theorem encode_eq (form : BlockForm) (kind : BlockKind) (previous : Option Nat) (payload : Bytes) :
    form.encode kind previous payload = (form.header kind previous payload).encode
      ++ (form.packing.compress payload ++ form.sums
        ((form.header kind previous payload).encode ++ form.packing.compress payload)) := by
  rw [← List.append_assoc]
  rfl

def size (form : BlockForm) (payload : Bytes) : Nat :=
  BlockHeader.size + ((form.packing.compress payload).length + form.sumsLength payload)

structure Verifiable (form : BlockForm) : Prop where
  chunk : form.checksumChunk < 0x8000_0000
  checked : form.checksumKind ≠ .null → 0 < form.checksumChunk

/-- The sizes of a block can be told by its header. -/
structure Fits (form : BlockForm) (payload : Bytes) : Prop where
  onDisk : (form.packing.compress payload).length + form.sumsLength payload < 0x8000_0000
  withHeader : BlockHeader.size + (form.packing.compress payload).length < 0x8000_0000
  expanded : payload.length < 0x8000_0000

instance (form : BlockForm) : Decidable form.Verifiable :=
  decidable_of_iff
    (form.checksumChunk < 0x8000_0000 ∧ (form.checksumKind ≠ .null → 0 < form.checksumChunk))
    ⟨fun ⟨chunk, checked⟩ => ⟨chunk, checked⟩, fun ⟨chunk, checked⟩ => ⟨chunk, checked⟩⟩

instance (form : BlockForm) (payload : Bytes) : Decidable (form.Fits payload) :=
  decidable_of_iff ((form.packing.compress payload).length + form.sumsLength payload < 0x8000_0000
      ∧ BlockHeader.size + (form.packing.compress payload).length < 0x8000_0000
      ∧ payload.length < 0x8000_0000)
    ⟨fun ⟨onDisk, withHeader, expanded⟩ => ⟨onDisk, withHeader, expanded⟩,
      fun ⟨onDisk, withHeader, expanded⟩ => ⟨onDisk, withHeader, expanded⟩⟩

theorem inRange_header (verifiable : form.Verifiable) (fits : form.Fits payload)
    (small : ∀ start ∈ previous, start < 0x8000_0000_0000_0000) :
    (form.header kind previous payload).InRange where
  magic := kind.length_magic
  onDiskSize := fits.onDisk
  uncompressedSize := fits.expanded
  previous := by
    cases previous with
    | none => simp [header]
    | some start =>
      have := small start rfl
      simp only [header, Option.elim_some, Int.ofNat_eq_natCast]
      omega
  checksumKind := by cases given : form.checksumKind <;> simp [header, given, ChecksumKind.id]
  checksumChunk := verifiable.chunk
  dataSizeWithHeader := fits.withHeader

theorem length_sums (form : BlockForm) (payload : Bytes) {covered : Bytes}
    (length : covered.length = BlockHeader.size + (form.packing.compress payload).length) :
    (form.sums covered).length = form.sumsLength payload := by
  rw [sums, sumsLength]
  split
  · rename_i checked
    rw [BlockForm.checked, Bool.and_eq_true, decide_eq_true_eq, decide_eq_true_eq] at checked
    rw [Checksum.length_sums checked.2, length]
  · rfl

theorem encode_eq_of_stored (stored : form.packing = .stored) (kind : BlockKind)
    (previous : Option Nat) (payload : Bytes) :
    form.encode kind previous payload = (form.header kind previous payload).encode
      ++ (payload ++ form.sums ((form.header kind previous payload).encode ++ payload)) := by
  rw [encode_eq, stored]
  rfl

theorem length_onDisk (stored : form.packing = .stored) (kind : BlockKind) (previous : Option Nat)
    (payload : Bytes) :
    (payload ++ form.sums ((form.header kind previous payload).encode ++ payload)).length =
      (form.header kind previous payload).onDiskSize := by
  have length : (form.header kind previous payload).encode.length = BlockHeader.size :=
    BlockHeader.length_encode kind.length_magic
  have body : form.packing.compress payload = payload := by rw [stored]; rfl
  rw [List.length_append, length_sums form payload (by rw [List.length_append, length, body])]
  simp [header, body]

theorem length_encode (form : BlockForm) (kind : BlockKind) (previous : Option Nat)
    (payload : Bytes) : (form.encode kind previous payload).length = form.size payload := by
  have length : (form.header kind previous payload).encode.length = BlockHeader.size :=
    BlockHeader.length_encode kind.length_magic
  rw [encode_eq, List.length_append, List.length_append, length,
    length_sums form payload (by rw [List.length_append, length]), size]

theorem verify_sums (verifiable : form.Verifiable) (headerBytes body : Bytes) :
    Checksum.verify form.checksumKind form.checksumChunk headerBytes body
      (form.sums (headerBytes ++ body)) = .ok () := by
  by_cases null : form.checksumKind = .null
  · simp [Checksum.verify, null]
  · have pos := verifiable.checked null
    have checked : form.checked = true := by simp [BlockForm.checked, null, pos]
    rw [sums, if_pos checked]
    exact Checksum.verify_sums pos ..

theorem kind_header : (form.header kind previous payload).kind = .ok kind := by
  simp only [BlockHeader.kind, BlockKind.ofMagic, header,
    List.take_of_length_le (Nat.le_of_eq kind.length_magic), kind.length_magic]
  simp

theorem ofParts_encode (verifiable : form.Verifiable) (stored : form.packing = .stored)
    (kind : BlockKind) (previous : Option Nat) (payload : Bytes) (offset : Nat) :
    Block.ofParts (form.header kind previous payload).encode (form.header kind previous payload)
        (payload ++ form.sums ((form.header kind previous payload).encode ++ payload))
        offset .stored =
      .ok ⟨form.header kind previous payload, kind, offset, payload⟩ := by
  have dataSize : (form.header kind previous payload).dataSize = .ok payload.length := by
    simp [BlockHeader.dataSize, header, stored, Packing.compress]
  have checksumKind : ChecksumKind.ofId (form.header kind previous payload).checksumKind =
      .ok form.checksumKind := ChecksumKind.ofId_id _
  have verified := verify_sums verifiable (form.header kind previous payload).encode payload
  have whole : Codec.stored.decompress (form.header kind previous payload).uncompressedSize
      payload = .ok payload := by
    simp [Codec.decompress, Codec.expand, header]
  have chunk : (form.header kind previous payload).checksumChunk = form.checksumChunk := rfl
  simp only [Block.ofParts, dataSize, checksumKind, chunk, List.take_left, List.drop_left, verified,
    kind_header, whole, ok_bind, pure_eq_ok]

end BlockForm

namespace Block

theorem expect_self (header : BlockHeader) (kind : BlockKind) (offset : Nat) (data : Bytes) :
    expect ⟨header, kind, offset, data⟩ [kind] = .ok () := if_pos List.mem_cons_self

variable {source : Source} {offset length : Nat} {before after : Bytes}

theorem fetch_of_fits (fits : offset + length ≤ source.size) (what : String) :
    fetch source what offset length = .ok ((source.bytes.drop offset).take length) := by
  rw [fetch, if_neg (Nat.not_lt_of_le fits), SourceReader.readAt_eq, Source.readAt, if_pos fits]
  rfl

theorem fetch_of_short (short : source.size < offset + length) (what : String) :
    fetch source what offset length =
      .error (.format
        (.truncated what (min (offset + length) 0xFFFF_FFFF_FFFF_FFFF) source.size)) := by
  rw [fetch, if_pos short]
  rfl

theorem fetch_eq {bytes : Bytes} (whole : source.bytes = before ++ (bytes ++ after))
    (what : String) : fetch source what before.length bytes.length = .ok bytes := by
  have inside : before.length + bytes.length ≤ source.size := by
    simp only [source.size_eq, whole, List.length_append]
    omega
  rw [fetch_of_fits inside, whole, List.drop_left, List.take_left]

variable {form : BlockForm} {kind : BlockKind} {previous : Option Nat} {payload : Bytes}

theorem readHeader_encode (verifiable : form.Verifiable) (fits : form.Fits payload)
    (small : ∀ start ∈ previous, start < 0x8000_0000_0000_0000)
    (whole : source.bytes = before ++ (form.encode kind previous payload ++ after)) :
    readHeader source before.length = .ok (form.header kind previous payload) := by
  have range : (form.header kind previous payload).InRange :=
    BlockForm.inRange_header verifiable fits small
  rw [BlockForm.encode_eq, List.append_assoc] at whole
  have fetched := fetch_eq whole "block header"
  rw [BlockHeader.length_encode range.magic] at fetched
  have parsed := BlockHeader.parse_encode range []
  rw [List.append_nil] at parsed
  simp only [readHeader, fetched, ok_bind, parsed, liftM_decoded_ok]

theorem read_encode (verifiable : form.Verifiable) (stored : form.packing = .stored)
    (fits : form.Fits payload) (small : ∀ start ∈ previous, start < 0x8000_0000_0000_0000)
    (whole : source.bytes = before ++ (form.encode kind previous payload ++ after)) :
    read source before.length .stored =
      .ok ⟨form.header kind previous payload, kind, before.length, payload⟩ := by
  have range : (form.header kind previous payload).InRange :=
    BlockForm.inRange_header verifiable fits small
  have length := BlockHeader.length_encode range.magic
  have onDisk := BlockForm.length_onDisk stored kind previous payload
  rw [BlockForm.encode_eq_of_stored stored, List.append_assoc] at whole
  have fetched := fetch_eq whole "block header"
  rw [length] at fetched
  have parsed := BlockHeader.parse_encode range []
  rw [List.append_nil] at parsed
  have rest := whole
  rw [← List.append_assoc] at rest
  have fetchedBody := fetch_eq rest "block body"
  rw [onDisk, List.length_append, length] at fetchedBody
  have taken := BlockForm.ofParts_encode verifiable stored kind previous payload before.length
  simp only [read, fetched, ok_bind, parsed, liftM_decoded_ok, fetchedBody, taken]

theorem parse_parts {headerBytes onDisk rest : Bytes} {header : BlockHeader}
    (parsed : BlockHeader.parse (headerBytes ++ (onDisk ++ rest)) = .ok header)
    (length : headerBytes.length = BlockHeader.size) (size : onDisk.length = header.onDiskSize)
    (offset : Nat) (codec : Codec) :
    parse (headerBytes ++ (onDisk ++ rest)) offset codec =
      ofParts headerBytes header onDisk offset codec := by
  have stop : header.onDiskSizeWithHeader = (headerBytes ++ onDisk).length := by
    rw [List.length_append, length, size, BlockHeader.onDiskSizeWithHeader]
  have whole : (headerBytes ++ (onDisk ++ rest)).take header.onDiskSizeWithHeader =
      headerBytes ++ onDisk := by
    rw [← List.append_assoc, stop, List.take_left]
  have enough : ¬ (headerBytes ++ onDisk).length < header.onDiskSizeWithHeader := by omega
  simp only [parse, parsed, ok_bind, whole, enough, if_false, List.take_left' length,
    List.drop_left' length]

theorem parse_encode (verifiable : form.Verifiable) (stored : form.packing = .stored)
    (fits : form.Fits payload) (small : ∀ start ∈ previous, start < 0x8000_0000_0000_0000)
    (rest : Bytes) (offset : Nat) :
    parse (form.encode kind previous payload ++ rest) offset .stored =
      .ok ⟨form.header kind previous payload, kind, offset, payload⟩ := by
  have range : (form.header kind previous payload).InRange :=
    BlockForm.inRange_header verifiable fits small
  rw [BlockForm.encode_eq_of_stored stored, List.append_assoc,
    parse_parts (BlockHeader.parse_encode range _) (BlockHeader.length_encode range.magic)
      (BlockForm.length_onDisk stored kind previous payload)]
  exact BlockForm.ofParts_encode verifiable stored kind previous payload offset

end Block

end CellStore
