import CellStore.Mutation
import CellStore.Proofs.Steady

/-! Records of mutations are read back as the cells they were written from, and any record that can
be read is written as the bytes it was read from. -/

namespace CellStore

structure Record.Fits (format : RecordFormat) (record : Record) : Prop where
  keyLength : record.key.length < 0x1_0000_0000
  valueLength : record.value.length < 0x1_0000_0000
  tagged : record.tags.isSome = format.tags
  tagsLength : ∀ tags ∈ record.tags, tags.length ≤ 65535

namespace StoredCell

variable {format : RecordFormat} {record : Record}

theorem reads_tags {tags : Option Bytes} (tagged : tags.isSome = format.tags)
    (short : ∀ t ∈ tags, t.length ≤ 65535) :
    Reads (parseTags format) (Record.encodeTags tags) tags := by
  intro size offset rest
  rw [parseTags, ← tagged]
  cases tags with
  | none => rfl
  | some tags =>
    have small : tags.length < 256 ^ 2 := Nat.lt_succ_of_le (short tags rfl)
    have length := (Input.reads_number 2 tags.length "cell tags length" small).eq size offset
      (tags ++ rest)
    have taken := (Input.reads_take tags "cell tags" rfl).eq size (offset + 2) rest
    simp only [Bytes.length_ofNat] at length
    simp only [Record.encodeTags, Option.isSome_some, if_true, List.append_assoc, length, ok_bind,
      taken, pure_eq_ok, List.length_append, Bytes.length_ofNat, Nat.add_assoc]

def stampStart (record : Record) : Nat :=
  4 + (4 + (record.key.length + (record.value.length + (Record.encodeTags record.tags).length)))

theorem length_encode (record : Record) :
    record.encode.length = stampStart record + (record.stamp.getD []).length := by
  simp only [Record.encode, List.length_append, Bytes.length_ofNat, stampStart]
  omega

/-- What can go wrong with a record is the sign of its lengths, its key or its memstore
timestamp. -/
theorem parse_encode (fits : record.Fits format) (size offset : Nat) (rest : Bytes) :
    parse format ⟨size, offset, record.encode ++ rest⟩ =
      if 0x8000_0000 ≤ record.key.length ∨ 0x8000_0000 ≤ record.value.length then
        .error (.flawed (.negativeCellLength offset))
      else do
        let column ← column record.key
        let (stamp, sequenceId, input) ← parseStamp format
          ⟨size, offset + stampStart record, record.stamp.getD [] ++ rest⟩
        return (⟨⟨record.key, record.value, record.tags, stamp⟩, ⟨column.row, column.family,
          column.qualifier, column.timestamp, column.kind, record.value, record.tags,
          sequenceId⟩⟩, input) := by
  have keyLength := (Input.reads_number 4 record.key.length "cell key length"
    fits.keyLength).eq size
  have valueLength := (Input.reads_number 4 record.value.length "cell value length"
    fits.valueLength).eq size
  have keyBytes := (Input.reads_take record.key "cell key" rfl).eq size
  have valueBytes := (Input.reads_take record.value "cell value" rfl).eq size
  have tags := (reads_tags fits.tagged fits.tagsLength).eq size
  simp only [Bytes.length_ofNat] at keyLength valueLength
  simp only [Record.encode, List.append_assoc, parse, keyLength, ok_bind, valueLength]
  by_cases long : 0x8000_0000 ≤ record.key.length ∨ 0x8000_0000 ≤ record.value.length
  · simp only [long, if_true, throw_eq_error, error_bind]
  · simp only [long, if_false, keyBytes, valueBytes, ok_bind, tags, stampStart, Nat.add_assoc]

end StoredCell

namespace Mutation

/-- The parts of a mutation are not longer than the length fields of a key and a record can tell,
and the memstore timestamp, where it is recorded, is not negative as a signed number. -/
structure Fits (format : RecordFormat) (m : Mutation) : Prop where
  row : m.row.length ≤ 65535
  family : m.family.length ≤ 255
  tags : format.tags = true → m.tags.length ≤ 65535
  sequenceId : format.mvcc = true → m.sequenceId.toNat < 0x8000_0000_0000_0000

instance (format : RecordFormat) (m : Mutation) : Decidable (m.Fits format) :=
  decidable_of_iff (m.row.length ≤ 65535 ∧ m.family.length ≤ 255
      ∧ (format.tags = true → m.tags.length ≤ 65535)
      ∧ (format.mvcc = true → m.sequenceId.toNat < 0x8000_0000_0000_0000))
    ⟨fun ⟨row, family, tags, sequenceId⟩ => ⟨row, family, tags, sequenceId⟩,
    fun ⟨row, family, tags, sequenceId⟩ => ⟨row, family, tags, sequenceId⟩⟩

def stored (format : RecordFormat) (m : Mutation) : StoredCell := ⟨m.record format, m.cell format⟩

@[simp] theorem key_stored (format : RecordFormat) (m : Mutation) :
    (m.stored format).key = m.key := rfl

variable {format : RecordFormat} {m : Mutation}

theorem key_eq (m : Mutation) :
    m.key = Bytes.ofNat 2 m.row.length ++ (m.row ++ (UInt8.ofNat m.family.length ::
      (m.family ++ (m.qualifier ++ (Bytes.ofNat 8 m.timestamp.toNat ++ [m.kind.code]))))) := by
  simp [key, Bytes.ofNat]

theorem length_key (m : Mutation) : m.key.length =
    m.row.length + m.family.length + m.qualifier.length + 12 := by
  simp [key]
  omega

theorem drop_row_key (m : Mutation) :
    m.key.drop (2 + m.row.length) = UInt8.ofNat m.family.length ::
      (m.family ++ (m.qualifier ++ (Bytes.ofNat 8 m.timestamp.toNat ++ [m.kind.code]))) := by
  rw [key_eq, ← List.drop_drop, List.drop_left' (by simp), List.drop_left]

theorem drop_qualifier_key (m : Mutation) :
    m.key.drop (m.key.length - Key.suffixLength) =
      Bytes.ofNat 8 m.timestamp.toNat ++ [m.kind.code] := by
  have split : m.key = (Bytes.ofNat 2 m.row.length ++ m.row ++ Bytes.ofNat 1 m.family.length
      ++ m.family ++ m.qualifier) ++ (Bytes.ofNat 8 m.timestamp.toNat ++ [m.kind.code]) := by
    simp [key]
  conv => lhs; arg 2; rw [split]
  apply List.drop_left'
  simp [length_key, Key.suffixLength]
  omega

theorem rowLength_key (row : m.row.length ≤ 65535) :
    Bytes.toNat (m.key.take 2) = m.row.length := by
  rw [key_eq, List.take_left' (by simp), Bytes.toNat_ofNat]
  omega

theorem column_key (row : m.row.length ≤ 65535) (family : m.family.length ≤ 255) :
    StoredCell.column m.key =
      .ok ⟨m.row, m.family, m.qualifier, m.timestamp, m.kind⟩ := by
  have long : ¬ m.key.length < Key.minLength := by simp [length_key, Key.minLength]
  have start : (m.key.drop 2).take m.row.length = m.row := by
    rw [key_eq, List.drop_left' (by simp), List.take_left]
  have familyLength : (UInt8.ofNat m.family.length).toNat = m.family.length := by
    simp
    omega
  have inside : ¬ 2 + m.row.length + 1 + m.family.length + Key.suffixLength > m.key.length := by
    simp [length_key, Key.suffixLength]
    omega
  have stamp : UInt64.ofNat (Bytes.toNat ((m.key.drop (m.key.length - Key.suffixLength)).take 8))
      = m.timestamp := by
    rw [drop_qualifier_key, List.take_left' (by simp), Bytes.toNat_ofNat,
      Nat.mod_eq_of_lt m.timestamp.toNat_lt, UInt64.ofNat_toNat]
  have last : m.key.getLastD 0 = m.kind.code := by
    simp [key]
  have middle : m.key.length - Key.suffixLength - (2 + m.row.length + 1 + m.family.length)
      = m.qualifier.length := by
    simp [length_key, Key.suffixLength]
    omega
  simp only [StoredCell.column, long, if_false, rowLength_key row, drop_row_key, start,
    familyLength, inside, stamp, last, middle, CellKind.ofCode_code, pure_eq_ok, ok_bind,
    List.take_left, List.drop_left]

theorem fits_record (fits : m.Fits format) (key : m.key.length < 0x8000_0000)
    (value : m.value.length < 0x8000_0000) : (m.record format).Fits format where
  keyLength := Nat.lt_trans key (by decide)
  valueLength := Nat.lt_trans value (by decide)
  tagged := by
    rw [record]
    cases format.tags <;> rfl
  tagsLength tags member := by
    rw [record] at member
    split at member
    · rename_i tagged
      cases member
      exact fits.tags tagged
    · cases member

theorem reads_stamp (sequenceId : format.mvcc = true → m.sequenceId.toNat < 0x8000_0000_0000_0000)
    (size offset : Nat) (rest : Bytes) :
    StoredCell.parseStamp format ⟨size, offset, (m.record format).stamp.getD [] ++ rest⟩ =
      .ok ((m.record format).stamp, (m.cell format).sequenceId,
        ⟨size, offset + ((m.record format).stamp.getD []).length, rest⟩) := by
  cases recorded : format.mvcc with
  | false => simp [StoredCell.parseStamp, record, cell, recorded]
  | true =>
    have number := (VarLong.reads_write m.sequenceId.toInt64).eq size offset rest
    have positive : ¬ m.sequenceId.toInt64 < 0 := by
      have small : 2 * m.sequenceId.toBitVec.toNat < 0x1_0000_0000_0000_0000 := by
        have same : m.sequenceId.toBitVec.toNat = m.sequenceId.toNat := rfl
        have bound := sequenceId recorded
        omega
      have whole : m.sequenceId.toInt64.toInt = m.sequenceId.toBitVec.toNat :=
        BitVec.toInt_eq_toNat_of_lt small
      rw [Int64.lt_iff_toInt_lt, whole]
      simp
    simp [StoredCell.parseStamp, record, cell, recorded, number, positive]

theorem reads_record (fits : m.Fits format) (key : m.key.length < 0x8000_0000)
    (value : m.value.length < 0x8000_0000) :
    Reads (StoredCell.parse format) (m.record format).encode (m.stored format) := by
  intro size offset rest
  have small : ¬ (0x8000_0000 ≤ (m.record format).key.length
      ∨ 0x8000_0000 ≤ (m.record format).value.length) := by
    rw [record]
    dsimp only
    omega
  have column : StoredCell.column (m.record format).key = .ok _ := column_key fits.row fits.family
  have stamp := reads_stamp fits.sequenceId size
  rw [StoredCell.parse_encode (fits_record fits key value), if_neg small, column, ok_bind, stamp,
    StoredCell.length_encode, ← Nat.add_assoc]
  rfl

end Mutation

namespace StoredCell

variable {format : RecordFormat}

theorem exists_of_parseTags {size offset : Nat} {rest : Bytes} {tags : Option Bytes} {after : Input}
    (read : parseTags format ⟨size, offset, rest⟩ = .ok (tags, after)) :
    tags.isSome = format.tags ∧ ∃ behind, rest = Record.encodeTags tags ++ behind
      ∧ after = ⟨size, offset + (Record.encodeTags tags).length, behind⟩ := by
  rw [parseTags] at read
  split at read
  · rename_i tagged
    obtain ⟨⟨length, atTags⟩, number, read⟩ := exists_of_bind read
    obtain ⟨⟨bytes, atEnd⟩, taken, given⟩ := exists_of_bind read
    obtain ⟨behindLength, rfl, rfl⟩ := Input.exists_of_number number
    obtain ⟨behind, rfl, rfl, rfl⟩ := Input.exists_of_take taken
    cases given
    refine ⟨tagged.symm, behind, ?_, ?_⟩
    · rw [Record.encodeTags, List.append_assoc]
    · rw [Record.encodeTags, List.length_append, Bytes.length_ofNat, Nat.add_assoc]
  · rename_i untagged
    cases read
    exact ⟨(Bool.eq_false_iff.2 untagged).symm, rest, rfl, rfl⟩

theorem exists_of_parseStamp {size offset : Nat} {rest : Bytes} {stamp : Option Bytes}
    {sequenceId : UInt64} {after : Input}
    (read : parseStamp format ⟨size, offset, rest⟩ = .ok (stamp, sequenceId, after)) :
    stamp.isSome = format.mvcc ∧ (∀ raw ∈ stamp, Reads VarLong.read raw sequenceId.toInt64)
      ∧ ∃ behind, rest = stamp.getD [] ++ behind
        ∧ after = ⟨size, offset + (stamp.getD []).length, behind⟩ := by
  rw [parseStamp] at read
  split at read
  · rename_i recorded
    obtain ⟨⟨n, atEnd⟩, number, read⟩ := exists_of_bind read
    dsimp only at read
    split at read
    · cases read
    · obtain ⟨raw, split, takes⟩ := VarLong.steady_read _ _ _ number
      obtain ⟨size', offset', behind⟩ := atEnd
      obtain rfl : rest = raw ++ behind := split
      rw [takes.reads.eq] at number
      cases number
      cases read
      rw [Nat.add_sub_cancel_left, List.take_left, Option.isSome_some, Option.getD_some]
      refine ⟨recorded.symm, fun other member => ?_, _, rfl, rfl⟩
      cases member
      exact takes.reads
  · rename_i unrecorded
    cases read
    have none : ∀ raw ∈ (none : Option Bytes), Reads VarLong.read raw (0 : UInt64).toInt64 :=
      fun _ member => nomatch member
    exact ⟨(Bool.eq_false_iff.2 unrecorded).symm, none, rest, rfl, rfl⟩

/-- What a record has, and the cell that is read off it. -/
structure Agrees (format : RecordFormat) (stored : StoredCell) : Prop where
  column : column stored.key = .ok ⟨stored.cell.row, stored.cell.family, stored.cell.qualifier,
    stored.cell.timestamp, stored.cell.kind⟩
  value : stored.cell.value = stored.record.value
  tags : stored.cell.tags = stored.record.tags
  tagged : stored.record.tags.isSome = format.tags
  stamped : stored.record.stamp.isSome = format.mvcc
  stamp : ∀ raw ∈ stored.record.stamp, Reads VarLong.read raw stored.cell.sequenceId.toInt64

theorem exists_of_parse {size offset : Nat} {rest : Bytes} {stored : StoredCell} {after : Input}
    (read : parse format ⟨size, offset, rest⟩ = .ok (stored, after)) :
    Agrees format stored ∧ ∃ behind, rest = stored.record.encode ++ behind
      ∧ after = ⟨size, offset + stored.record.encode.length, behind⟩ := by
  obtain ⟨⟨keyLength, atSecond⟩, first, read⟩ := exists_of_bind read
  obtain ⟨behindFirst, rfl, rfl⟩ := Input.exists_of_number first
  obtain ⟨⟨valueLength, atKey⟩, second, read⟩ := exists_of_bind read
  obtain ⟨behindSecond, rfl, rfl⟩ := Input.exists_of_number second
  dsimp only at read
  split at read
  · cases read
  · obtain ⟨⟨key, atValue⟩, keyTaken, read⟩ := exists_of_bind read
    obtain ⟨behindKey, rfl, rfl, rfl⟩ := Input.exists_of_take keyTaken
    obtain ⟨⟨value, atTags⟩, valueTaken, read⟩ := exists_of_bind read
    obtain ⟨behindValue, rfl, rfl, rfl⟩ := Input.exists_of_take valueTaken
    obtain ⟨column, found, read⟩ := exists_of_bind read
    obtain ⟨⟨tags, atStamp⟩, tagsRead, read⟩ := exists_of_bind read
    obtain ⟨tagged, behindTags, rfl, rfl⟩ := exists_of_parseTags tagsRead
    obtain ⟨⟨stamp, sequenceId, atEnd⟩, stampRead, given⟩ := exists_of_bind read
    obtain ⟨stamped, stamp, behind, rfl, rfl⟩ := exists_of_parseStamp stampRead
    cases given
    refine ⟨⟨found, rfl, rfl, tagged, stamped, stamp⟩, behind, ?_, ?_⟩
    · simp only [Record.encode, List.append_assoc]
    · simp only [Record.encode, List.length_append, Bytes.length_ofNat, Nat.add_assoc]

theorem length_of_parse {input after : Input} {stored : StoredCell}
    (read : parse format input = .ok (stored, after)) :
    after.rest.length + 8 ≤ input.rest.length := by
  obtain ⟨-, behind, rest, rfl⟩ := exists_of_parse read
  rw [rest, List.length_append, length_encode, stampStart]
  dsimp only
  omega

end StoredCell

end CellStore
