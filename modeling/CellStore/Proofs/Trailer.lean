import CellStore.Proofs.Message
import CellStore.Trailer

namespace CellStore

theorem Wire.length_writeNumber (n : Nat) : (Wire.writeNumber n).length ≤ 10 :=
  Septets.length_writeGroups 10 n

theorem TrailerFields.length_encode (m : TrailerFields) :
    m.encode.length ≤ 240 + (m.comparator.elim 0 fun text => (Utf8.encode text).length) := by
  have number (tag : Nat) (n : Option Nat) :
      (n.elim [] (Wire.writeNumberField tag)).length ≤ 20 := by
    cases n with
    | none => simp
    | some n =>
      have key := Wire.length_writeNumber (tag * 8)
      have value := Wire.length_writeNumber n
      simp only [Option.elim_some, Wire.writeNumberField, List.length_append]
      omega
  have text : (m.comparator.elim [] fun text =>
      Wire.writeBytesField 11 (Utf8.encode text)).length ≤
        20 + (m.comparator.elim 0 fun text => (Utf8.encode text).length) := by
    cases m.comparator with
    | none => simp
    | some text =>
      have key := Wire.length_writeNumber (11 * 8 + 2)
      have length := Wire.length_writeNumber (Utf8.encode text).length
      simp only [Option.elim_some, Wire.writeBytesField, List.length_append]
      omega
  simp only [encode, List.length_append]
  have := number 1 m.fileInfoOffset
  have := number 2 m.loadOnOpenOffset
  have := number 3 m.uncompressedIndexSize
  have := number 4 m.totalUncompressedBytes
  have := number 5 m.dataIndexCount
  have := number 6 m.metaIndexCount
  have := number 7 m.entryCount
  have := number 8 m.indexLevels
  have := number 9 m.firstDataOffset
  have := number 10 m.lastDataOffset
  have := number 12 m.codecId
  omega

namespace TrailerFields

/-- Every number is one that its field can hold: all have 64 bits at most, and the counts, the
levels and the codec have 32. -/
structure InRange (m : TrailerFields) : Prop where
  wide : ∀ n ∈ m.numbers, ∀ v ∈ n, v < 0x1_0000_0000_0000_0000
  narrow : ∀ n ∈ [m.dataIndexCount, m.metaIndexCount, m.indexLevels, m.codecId],
    ∀ v ∈ n, v < 0x1_0000_0000

theorem length_comparator_le {m : TrailerFields} {text : String}
    (given : m.comparator = some text) : (Utf8.encode text).length ≤ m.encode.length := by
  simp only [encode, given, Option.elim_some, Wire.writeBytesField, List.length_append]
  omega

namespace InRange

variable {m : TrailerFields} (inRange : m.InRange)

include inRange

theorem fits (short : m.encode.length < 0x1_0000_0000_0000_0000) : m.Fits :=
  ⟨inRange.wide, fun _ given => Nat.lt_of_le_of_lt (length_comparator_le given) short⟩

theorem wrap_eq : m.wrap = m := by
  have keep {n : Option Nat} (member : n ∈ [m.dataIndexCount, m.metaIndexCount, m.indexLevels,
      m.codecId]) : n.map (· % 0x1_0000_0000) = n := by
    cases n with
    | none => rfl
    | some v => exact congrArg some (Nat.mod_eq_of_lt (inRange.narrow _ member v rfl))
  rw [wrap, keep (by simp), keep (by simp), keep (by simp), keep (by simp)]

end InRange

end TrailerFields

namespace Codec

theorem id_of_ofId? {id : Nat} {codec : Codec} (known : ofId? id = some codec) : codec.id = id := by
  rw [ofId?.eq_def] at known
  split at known <;> cases known <;> rfl

theorem ofId_eq_ok_iff {id : Nat} {codec : Codec} : ofId id = .ok codec ↔ id = codec.id := by
  constructor
  · intro known
    rw [ofId] at known
    split at known
    · cases known
      exact (id_of_ofId? ‹_›).symm
    · cases known
  · rintro rfl
    simp [ofId]

end Codec

namespace Trailer

variable {fields : TrailerFields} {minor : UInt8}

theorem length_encode (fields : TrailerFields) (minor : UInt8) :
    (encode fields minor).length = size := by
  simp [encode, size]
  omega

theorem parse_encode (minor : UInt8) (fits : fields.Fits)
    (room : (Wire.writeDelimited fields.encode).length ≤ size - 12) (fileSize : Nat) :
    parse (encode fields minor) fileSize =
      (ofFields supportedMajor minor.toNat fields.wrap).bind fun trailer =>
        if start fileSize ≤ trailer.loadOnOpenOffset then
          .error (.flawed (.loadOnOpenPastTrailer trailer.loadOnOpenOffset (start fileSize)))
        else .ok trailer := by
  have small : fields.encode.length < 0x1_0000_0000_0000_0000 := by
    simp only [Wire.writeDelimited, List.length_append, size] at room
    omega
  let message := Wire.writeDelimited fields.encode
  let padding := List.replicate (size - 12 - message.length) (0 : UInt8)
  let version := minor :: Bytes.ofNat 3 supportedMajor
  have untouched : (BlockKind.trailer.magic ++ message).take (size - 4) =
      BlockKind.trailer.magic ++ message := by
    apply List.take_of_length_le
    simp only [List.length_append, BlockKind.length_magic, message, size] at room ⊢
    omega
  have left : size - 4 - (BlockKind.trailer.magic ++ message).length =
      size - 12 - message.length := by
    simp only [List.length_append, BlockKind.length_magic, size]
    omega
  have whole : encode fields minor =
      BlockKind.trailer.magic ++ ((message ++ padding) ++ version) := by
    rw [encode]
    simp only [message] at untouched left
    simp only [untouched, left, List.append_assoc, message, padding, version]
  have middle : (message ++ padding).length = size - 12 := by
    simp only [List.length_append, List.length_replicate, padding, message]
    omega
  have magic : BlockKind.trailer.checkMagic (encode fields minor) = .ok () := by
    rw [whole, BlockKind.checkMagic, List.take_left' (by simp)]
    simp
  have ending : (encode fields minor).drop (size - 4) = version := by
    rw [whole, ← List.append_assoc, List.drop_left' (by simp [middle, size])]
  have body : ((encode fields minor).drop 8).take (size - 12) = message ++ padding := by
    rw [whole, List.drop_left' (by simp), List.take_left' middle]
  have read : (Wire.delimited? (message ++ padding)).bind TrailerFields.decode? =
      some fields.wrap := by
    rw [Wire.delimited?_writeDelimited small, Option.bind_some, TrailerFields.decode?_encode fits]
  have minorByte : Bytes.toNat (version.take 1) = minor.toNat := by
    simp [version, Bytes.toNat_cons]
  have major : Bytes.toNat (version.drop 1) = supportedMajor := by
    simp [version, supportedMajor]
  simp only [parse, length_encode, magic, ending, body, read, minorByte, major, ne_eq,
    not_true_eq_false, if_false, ok_bind, pure_eq_ok, throw_eq_error, error_bind]
  rfl

def filled (minor : Nat) (fields : TrailerFields) (codec : Codec) : Trailer where
  major := 3
  minor
  fileInfoOffset := fields.fileInfoOffset.getD 0
  loadOnOpenOffset := fields.loadOnOpenOffset.getD 0
  uncompressedIndexSize := fields.uncompressedIndexSize.getD 0
  totalUncompressedBytes := fields.totalUncompressedBytes.getD 0
  dataIndexCount := fields.dataIndexCount.getD 0
  metaIndexCount := fields.metaIndexCount.getD 0
  entryCount := fields.entryCount.getD 0
  indexLevels := fields.indexLevels.getD 1
  firstDataOffset := fields.firstDataOffset.getD 0
  lastDataOffset := fields.lastDataOffset.getD 0
  comparator := fields.comparator.getD ""
  codec

def Names (id : Option Nat) (codec : Codec) : Prop :=
  id = some codec.id ∨ id = none ∧ codec = .stored

theorem exists_names_iff {id : Option Nat} :
    (∃ codec, Names id codec) ↔ ∀ n ∈ id, n ∈ [1, 2, 3, 6] := by
  constructor
  · rintro ⟨codec, rfl | ⟨rfl, -⟩⟩ n given
    · cases given
      cases codec <;> decide
    · cases given
  · intro known
    cases id with
    | none => exact ⟨.stored, .inr ⟨rfl, rfl⟩⟩
    | some n =>
      have member := known n rfl
      simp only [List.mem_cons, List.not_mem_nil, or_false] at member
      rcases member with rfl | rfl | rfl | rfl
      · exact ⟨.gzip, .inl rfl⟩
      · exact ⟨.stored, .inl rfl⟩
      · exact ⟨.snappy, .inl rfl⟩
      · exact ⟨.zstd, .inl rfl⟩

theorem ofFields_eq_ok_iff {minor : Nat} {trailer : Trailer} :
    ofFields supportedMajor minor fields = .ok trailer ↔
      ∃ codec, Names fields.codecId codec ∧ trailer = filled minor fields codec := by
  have made : ofFields supportedMajor minor fields =
      (fields.codecId.elim (.ok .stored) Codec.ofId).map (filled minor fields) := by
    rw [ofFields]
    cases fields.codecId.elim (.ok .stored) Codec.ofId <;> rfl
  have named (codec : Codec) :
      fields.codecId.elim (.ok .stored) Codec.ofId = .ok codec ↔ Names fields.codecId codec := by
    cases fields.codecId with
    | none => simp [Names, eq_comm]
    | some id => simp [Names, Codec.ofId_eq_ok_iff]
  rw [made]
  constructor
  · intro read
    obtain ⟨codec, known, rfl⟩ := exists_of_map read
    exact ⟨codec, (named codec).1 known, rfl⟩
  · rintro ⟨codec, known, rfl⟩
    rw [(named codec).2 known]
    rfl

theorem parse_eq_ok_iff (minor : UInt8) (inRange : fields.InRange)
    (room : (Wire.writeDelimited fields.encode).length ≤ size - 12) {fileSize : Nat}
    {trailer : Trailer} :
    parse (encode fields minor) fileSize = .ok trailer ↔
      ∃ codec, Names fields.codecId codec ∧ trailer = filled minor.toNat fields codec
        ∧ fields.loadOnOpenOffset.getD 0 < start fileSize := by
  have short : fields.encode.length < 0x1_0000_0000_0000_0000 := by
    simp only [Wire.writeDelimited, List.length_append, size] at room
    omega
  rw [parse_encode minor (inRange.fits short) room, inRange.wrap_eq]
  constructor
  · intro read
    obtain ⟨made, known, inside⟩ := exists_of_bind read
    obtain ⟨codec, named, rfl⟩ := ofFields_eq_ok_iff.1 known
    split at inside
    · cases inside
    · rename_i before
      cases inside
      exact ⟨codec, named, rfl, Nat.not_le.1 before⟩
  · rintro ⟨codec, named, rfl, before⟩
    have inside : ¬ start fileSize ≤ (filled minor.toNat fields codec).loadOnOpenOffset :=
      Nat.not_le.2 before
    simp only [ofFields_eq_ok_iff.2 ⟨codec, named, rfl⟩, Except.bind, if_neg inside]

/-- A trailer that was written is read back, provided that its codec, if it has one, is known and
that what is loaded on opening starts before it. -/
theorem parse_written (minor : UInt8) (inRange : fields.InRange)
    (room : (Wire.writeDelimited fields.encode).length ≤ 4084) (fileSize : Nat) :
    ((∃ trailer, parse (encode fields minor) fileSize = .ok trailer) ↔
      (∀ id ∈ fields.codecId, id ∈ [1, 2, 3, 6])
        ∧ fields.loadOnOpenOffset.getD 0 < fileSize - 4096)
      ∧ ∀ trailer, parse (encode fields minor) fileSize = .ok trailer →
        ∃ codec, Names fields.codecId codec ∧ trailer = filled minor.toNat fields codec := by
  have read {trailer : Trailer} : parse (encode fields minor) fileSize = .ok trailer ↔ _ :=
    parse_eq_ok_iff minor inRange room
  refine ⟨⟨?_, ?_⟩, ?_⟩
  · rintro ⟨trailer, parsed⟩
    obtain ⟨codec, named, -, before⟩ := read.1 parsed
    exact ⟨exists_names_iff.1 ⟨codec, named⟩, before⟩
  · rintro ⟨known, before⟩
    obtain ⟨codec, named⟩ := exists_names_iff.2 known
    exact ⟨filled minor.toNat fields codec, read.2 ⟨codec, named, rfl, before⟩⟩
  · intro trailer parsed
    obtain ⟨codec, named, made, -⟩ := read.1 parsed
    exact ⟨codec, named, made⟩

def extreme : TrailerFields where
  fileInfoOffset := some 0xFFFF_FFFF_FFFF_FFFF
  loadOnOpenOffset := some 400
  uncompressedIndexSize := none
  totalUncompressedBytes := some 0
  dataIndexCount := some 0xFFFF_FFFF
  metaIndexCount := none
  entryCount := none
  indexLevels := none
  firstDataOffset := none
  lastDataOffset := some 128
  comparator := some "é"
  codecId := some 3

theorem parse_written_extreme :
    extreme.InRange ∧ (Wire.writeDelimited extreme.encode).length ≤ 4084
      ∧ ∃ trailer, parse (encode extreme 7) 4497 = .ok trailer
        ∧ trailer = ⟨3, 7, 0xFFFF_FFFF_FFFF_FFFF, 400, 0, 0, 0xFFFF_FFFF, 0, 0, 1, 0, 128, "é",
          .snappy⟩ := by
  have inRange : extreme.InRange := by
    constructor <;> decide
  have room : (Wire.writeDelimited extreme.encode).length ≤ 4084 := by decide
  obtain ⟨succeeds, unchanged⟩ := parse_written 7 inRange room 4497
  obtain ⟨trailer, parsed⟩ := succeeds.2 ⟨by decide, by decide⟩
  obtain ⟨codec, named, rfl⟩ := unchanged trailer parsed
  refine ⟨inRange, room, _, parsed, ?_⟩
  obtain known | ⟨missing, -⟩ := named
  · cases codec with
    | snappy => rfl
    | gzip | stored | zstd => cases known
  · cases missing

end Trailer

end CellStore
