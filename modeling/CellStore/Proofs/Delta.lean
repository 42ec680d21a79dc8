import CellStore.Delta.Writer
import CellStore.Proofs.DeltaKeys
import CellStore.Proofs.Record

/-! FAST_DIFF blocks decode to the plain records of the mutations they were written from. The
invariant of the decoder is that its last record is that of the mutation before. -/

namespace CellStore

namespace Bytes

theorem take_append_drop_take {a b : Nat} (le : a ≤ b) (bytes : Bytes) :
    bytes.take a ++ (bytes.take b).drop a = bytes.take b := by
  have := List.take_append_drop a (bytes.take b)
  rwa [List.take_take, Nat.min_eq_left le] at this

theorem drop_take_append {a b c : Nat} (ab : a ≤ b) (bc : b ≤ c) (bytes : Bytes) :
    (bytes.take b).drop a ++ (bytes.take c).drop b = (bytes.take c).drop a := by
  have whole := congrArg (List.drop a) (take_append_drop_take bc bytes)
  rw [List.drop_append] at whole
  by_cases short : b ≤ bytes.length
  · rwa [List.length_take, Nat.min_eq_left short, Nat.sub_eq_zero_of_le ab, List.drop_zero] at whole
  · rw [List.take_of_length_le (by omega : bytes.length ≤ b),
      List.take_of_length_le (by omega : bytes.length ≤ c),
      List.drop_of_length_le (by omega : bytes.length ≤ b), List.append_nil]

theorem length_drop_take {a b : Nat} {bytes : Bytes} (inside : b ≤ bytes.length) :
    ((bytes.take b).drop a).length = b - a := by
  simp
  omega

end Bytes

namespace Delta

theorem sharedLength_le (a b : Bytes) :
    sharedLength a b ≤ a.length ∧ sharedLength a b ≤ b.length := by
  fun_induction sharedLength a b with
  | case1 a as bs ih => simp; omega
  | case2 => simp
  | case3 => simp

theorem take_sharedLength (a b : Bytes) :
    a.take (sharedLength a b) = b.take (sharedLength a b) := by
  fun_induction sharedLength a b with
  | case1 a as bs ih => simp [ih]
  | case2 => simp
  | case3 => simp

theorem eq_of_sharedLength {a b : Bytes} (whole : sharedLength a b = a.length)
    (length : a.length = b.length) : a = b := by
  have same := take_sharedLength a b
  rwa [whole, List.take_length, List.take_of_length_le (by omega)] at same

theorem ofByte_toByte {flags : Flags} (small : flags.timestamp ≤ 7) :
    Flags.ofByte flags.toByte = flags := by
  obtain ⟨timestamp, sameKeyLength, sameValueLength, sameKind, sameValue⟩ := flags
  have cases : ∀ t : Fin 8, ∀ a b c d : Bool,
      ((Flags.toByte ⟨t.val, a, b, c, d⟩ &&& 7).toNat = t.val
        ∧ (decide (Flags.toByte ⟨t.val, a, b, c, d⟩ &&& 8 ≠ 0) = a)
        ∧ (decide (Flags.toByte ⟨t.val, a, b, c, d⟩ &&& 16 ≠ 0) = b)
        ∧ (decide (Flags.toByte ⟨t.val, a, b, c, d⟩ &&& 32 ≠ 0) = c)
        ∧ (decide (Flags.toByte ⟨t.val, a, b, c, d⟩ &&& 64 ≠ 0) = d)) := by
    decide
  obtain ⟨h1, h2, h3, h4, h5⟩ := cases ⟨timestamp, by simp at small; omega⟩ sameKeyLength
    sameValueLength sameKind sameValue
  simp only [Flags.ofByte, h1, h2, h3, h4, h5]

structure Fits (format : RecordFormat) (family : Bytes) (m : Mutation) : Prop where
  row : m.row.length ≤ 65535
  sameFamily : m.family = family
  familyLength : family.length ≤ 255
  key : m.key.length < 0x1_0000_0000
  value : m.value.length < 0x1_0000_0000
  tags : format.tags = true → m.tags.length ≤ 65535

def qualifierStart (m : Mutation) : Nat := 2 + m.row.length + 1 + m.family.length

variable {format : RecordFormat} {family : Bytes} {m previous : Mutation}

theorem Fits.families (fits : Fits format family m) (before : Fits format family previous) :
    m.family = previous.family := fits.sameFamily.trans before.sameFamily.symm

theorem take_row_key (m : Mutation) :
    m.key.take (2 + m.row.length) = Bytes.ofNat 2 m.row.length ++ m.row := by
  rw [Mutation.key_eq, ← List.append_assoc, List.take_left' (by simp)]

def keyStart (m : Mutation) : Bytes :=
  Bytes.ofNat 2 m.row.length ++ m.row ++ UInt8.ofNat m.family.length :: m.family

theorem length_keyStart (m : Mutation) : (keyStart m).length = qualifierStart m := by
  simp [keyStart, qualifierStart]
  omega

theorem key_eq_start (m : Mutation) : m.key =
    keyStart m ++ (m.qualifier ++ (Bytes.ofNat 8 m.timestamp.toNat ++ [m.kind.code])) := by
  rw [Mutation.key_eq]
  simp [keyStart]

theorem take_qualifierStart (m : Mutation) : m.key.take (qualifierStart m) = keyStart m := by
  rw [key_eq_start, List.take_left' (length_keyStart m)]

theorem drop_qualifierStart (m : Mutation) : m.key.drop (qualifierStart m) =
    m.qualifier ++ (Bytes.ofNat 8 m.timestamp.toNat ++ [m.kind.code]) := by
  rw [key_eq_start, List.drop_left' (length_keyStart m)]

theorem qualifier_key (m : Mutation) :
    (m.key.take (m.key.length - Key.suffixLength)).drop (qualifierStart m) = m.qualifier := by
  rw [List.drop_take, drop_qualifierStart]
  apply List.take_left'
  simp [Mutation.length_key, qualifierStart, Key.suffixLength]
  omega

theorem rowLength_key (fits : Fits format family m) : rowLength m.key = m.row.length :=
  Mutation.rowLength_key fits.row

theorem familyLength_key (fits : Fits format family m) :
    familyLength m.key = m.family.length := by
  rw [familyLength, rowLength_key fits, Mutation.drop_row_key, fits.sameFamily]
  have bound := fits.familyLength
  simp
  omega

theorem family_key (fits : Fits format family m) :
    (m.key.drop (2 + rowLength m.key)).take (1 + familyLength m.key) =
      UInt8.ofNat family.length :: family := by
  rw [rowLength_key fits, familyLength_key fits, Mutation.drop_row_key, fits.sameFamily,
    Nat.add_comm 1]
  simp

theorem reads_newRow (fits : Fits format family m) (before : Fits format family previous)
    {shared : Nat} (inRow : shared < 2 + m.row.length)
    (same : previous.key.take shared = m.key.take shared) :
    Reads (newRow previous.key shared) ((m.key.take (2 + m.row.length)).drop shared)
      (m.key.take (qualifierStart m)) := by
  intro size offset rest
  -- The row length is complete after `cut` bytes, whether or not it was shared.
  let cut := shared + (2 - shared)
  have inside : 2 + m.row.length ≤ m.key.length := by
    rw [Mutation.length_key]
    omega
  have split := Bytes.drop_take_append (show shared ≤ cut by omega)
    (show cut ≤ 2 + m.row.length by omega) m.key
  have lengthBytes := (Input.reads_take ((m.key.take cut).drop shared) "FAST_DIFF row length"
    (show _ = 2 - shared by rw [Bytes.length_drop_take (by omega)]; omega)).eq size offset
      ((m.key.take (2 + m.row.length)).drop cut ++ rest)
  have start : previous.key.take shared ++ (m.key.take cut).drop shared = m.key.take cut := by
    rw [same, Bytes.take_append_drop_take (by omega)]
  have known : rowLength (m.key.take cut) = m.row.length := by
    rw [rowLength_take (by omega), rowLength_key fits]
  have row := (Input.reads_take ((m.key.take (2 + m.row.length)).drop cut) "FAST_DIFF row"
    (show _ = 2 + m.row.length - cut by rw [Bytes.length_drop_take (by omega)])).eq size
      (offset + ((m.key.take cut).drop shared).length) rest
  have cutLength : (m.key.take cut).length = cut := by
    simp only [List.length_take]
    omega
  rw [← split, List.append_assoc, newRow, lengthBytes]
  simp only [ok_bind, start, known, cutLength, row, pure_eq_ok, family_key before,
    Bytes.take_append_drop_take (show cut ≤ 2 + m.row.length by omega)]
  simp [take_row_key, take_qualifierStart, keyStart, fits.sameFamily, Nat.add_assoc]

/-- The start of a key that a mutation shares with the one before ends inside both rows, or the
rows are the same and it reaches into the qualifiers. -/
inductive SharedStart (m previous : Mutation) (shared : Nat) : Prop
  | row (inRow : shared < 2 + m.row.length) (inPrevious : shared < 2 + previous.row.length)
  | qualifier (past : qualifierStart m ≤ shared) (sameRow : m.row = previous.row)
      (inKey : shared + Key.suffixLength ≤ m.key.length)
      (inPrevious : shared + Key.suffixLength ≤ previous.key.length)

theorem SharedStart.inside {shared : Nat} (start : SharedStart m previous shared) :
    ¬ (previous.key.length < shared ∨ m.key.length < shared) := by
  cases start with
  | row inRow inPrevious => simp [Mutation.length_key]; omega
  | qualifier past sameRow inKey inPrevious => omega

theorem length_ofNat_inj {a b : Nat} (ha : a ≤ 65535) (hb : b ≤ 65535)
    (same : Bytes.ofNat 2 a = Bytes.ofNat 2 b) : a = b := by
  have values := congrArg Bytes.toNat same
  simp only [Bytes.toNat_ofNat] at values
  omega

theorem take_of_row {n : Nat} (length : m.row.length = previous.row.length)
    (same : m.row.take n = previous.row.take n) (short : n ≤ m.row.length) :
    previous.key.take (2 + n) = m.key.take (2 + n) := by
  have start (m : Mutation) (short : n ≤ m.row.length) :
      m.key.take (2 + n) = Bytes.ofNat 2 m.row.length ++ m.row.take n := by
    have := congrArg (List.take (2 + n)) (take_row_key m)
    rw [List.take_take, Nat.min_eq_left (by omega)] at this
    rw [this, List.take_append, Bytes.length_ofNat, List.take_of_length_le (by simp),
      Nat.add_sub_cancel_left]
  rw [start m short, start previous (by omega), length, same]

theorem take_add_qualifierStart {n : Nat} (m : Mutation) (short : n ≤ m.qualifier.length) :
    m.key.take (qualifierStart m + n) =
      m.key.take (qualifierStart m) ++ m.qualifier.take n := by
  rw [List.take_add, drop_qualifierStart, List.take_append_of_le_length short]

theorem sharedKeyLength_spec (row : m.row.length ≤ 65535) (before : previous.row.length ≤ 65535)
    (families : m.family = previous.family) :
    SharedStart m previous (sharedKeyLength m previous) ∧
      previous.key.take (sharedKeyLength m previous) = m.key.take (sharedKeyLength m previous) := by
  simp only [sharedKeyLength]
  -- Rows of other lengths share at most a byte of the length; only equal rows lead to qualifiers.
  split
  · split
    · rename_i same
      refine ⟨.row (by omega) (by omega), ?_⟩
      simp only [Mutation.key_eq, Bytes.ofNat] at same ⊢
      simpa using same.symm
    · exact ⟨.row (by omega) (by omega), by simp⟩
  · rename_i same
    have length := length_ofNat_inj row before (by simpa using same)
    have shorter := sharedLength_le m.row previous.row
    split
    · refine ⟨.row (by omega) (by omega), ?_⟩
      exact take_of_row length (take_sharedLength ..) shorter.1
    · rename_i whole
      have row := eq_of_sharedLength (by simpa using whole) length
      have start : qualifierStart previous = qualifierStart m := by
        rw [qualifierStart, qualifierStart, row, families]
      have bounds := sharedLength_le m.qualifier previous.qualifier
      have shared : 2 + sharedLength m.row previous.row + 1 + m.family.length
          = qualifierStart m := by
        simp only [ne_eq, Decidable.not_not] at whole
        rw [qualifierStart, whole]
      rw [shared]
      refine ⟨.qualifier (by omega) row ?_ ?_, ?_⟩
      · simp [Mutation.length_key, qualifierStart, Key.suffixLength]
        omega
      · simp [Mutation.length_key, qualifierStart, Key.suffixLength, length, families]
        omega
      · rw [take_add_qualifierStart m bounds.1, ← start,
          take_add_qualifierStart previous bounds.2, start, take_qualifierStart m, ← start,
          take_qualifierStart previous, take_sharedLength, keyStart, keyStart, row, families]

theorem reads_start (fits : Fits format family m) (before : Fits format family previous) :
    ∃ start more,
      writeColumn m (sharedKeyLength m previous) =
        start ++ (m.key.take (m.key.length - Key.suffixLength)).drop more
      ∧ more + Key.suffixLength ≤ m.key.length
      ∧ Reads (readStart previous.key (sharedKeyLength m previous)) start (m.key.take more) := by
  obtain ⟨cases, same⟩ := sharedKeyLength_spec fits.row before.row (fits.families before)
  cases cases with
  | row inRow inPrevious =>
    refine ⟨(m.key.take (2 + m.row.length)).drop (sharedKeyLength m previous), qualifierStart m,
      ?_, ?_, fun size offset rest => ?_⟩
    · rw [writeColumn, if_pos inRow, qualifier_key]
    · simp [Mutation.length_key, qualifierStart, Key.suffixLength]
      omega
    · rw [readStart, if_pos (by rwa [rowLength_key before])]
      exact reads_newRow fits before inRow same size offset rest
  | qualifier past sameRow inKey inPrevious =>
    refine ⟨[], sharedKeyLength m previous, ?_, inKey, fun size offset rest => ?_⟩
    · rw [writeColumn, if_neg (by simp only [qualifierStart] at past; omega), List.nil_append]
    · have past' : ¬ sharedKeyLength m previous < 2 + previous.row.length := by
        simp only [qualifierStart, sameRow] at past
        omega
      rw [readStart, rowLength_key before, if_neg past', same]
      rfl

theorem timestampBytes_key (m : Mutation) :
    timestampBytes m.key = Bytes.ofNat 8 m.timestamp.toNat := by
  rw [timestampBytes, Mutation.drop_qualifier_key, List.take_left' (by simp)]

theorem timestamp_ofPair_le (m previous : Mutation) :
    (Flags.ofPair m previous).timestamp ≤ 7 := by
  have := (sharedLength_le ((Bytes.ofNat 8 m.timestamp.toNat).take 7)
    ((Bytes.ofNat 8 previous.timestamp.toNat).take 7)).1
  simp at this
  simp [Flags.ofPair]
  omega

theorem timestamp_ofPair (m previous : Mutation) :
    (Bytes.ofNat 8 previous.timestamp.toNat).take (Flags.ofPair m previous).timestamp ++
      (Bytes.ofNat 8 m.timestamp.toNat).drop (Flags.ofPair m previous).timestamp =
        Bytes.ofNat 8 m.timestamp.toNat := by
  have same := take_sharedLength ((Bytes.ofNat 8 m.timestamp.toNat).take 7)
    ((Bytes.ofNat 8 previous.timestamp.toNat).take 7)
  have small := timestamp_ofPair_le m previous
  simp only [Flags.ofPair] at small ⊢
  rw [List.take_take, List.take_take, Nat.min_eq_left small] at same
  rw [← same, List.take_append_drop]

def writeKey (m previous : Mutation) : Bytes :=
  writeColumn m (sharedKeyLength m previous)
    ++ (Bytes.ofNat 8 m.timestamp.toNat).drop (Flags.ofPair m previous).timestamp
    ++ (if (Flags.ofPair m previous).sameKind then [] else [m.kind.code])

theorem reads_kind (m previous : Mutation) :
    Reads (readKind (Flags.ofPair m previous).sameKind (previous.key.getLastD 0))
      (if (Flags.ofPair m previous).sameKind then [] else [m.kind.code]) [m.kind.code] := by
  intro size offset rest
  by_cases same : m.kind = previous.kind
  · simp [readKind, Flags.ofPair, same, Mutation.key]
  · have taken := (Input.reads_take [m.kind.code] "FAST_DIFF type" rfl).eq size offset rest
    simpa [readKind, Flags.ofPair, same] using taken

theorem key_of_parts {more : Nat} (previous : Mutation)
    (inKey : more + Key.suffixLength ≤ m.key.length) :
    m.key.take more ++ (m.key.take (m.key.length - Key.suffixLength)).drop more
      ++ ((timestampBytes previous.key).take (Flags.ofPair m previous).timestamp
        ++ (Bytes.ofNat 8 m.timestamp.toNat).drop (Flags.ofPair m previous).timestamp)
      ++ [m.kind.code] = m.key := by
  rw [timestampBytes_key, timestamp_ofPair, Bytes.take_append_drop_take (by omega),
    List.append_assoc, ← Mutation.drop_qualifier_key, List.take_append_drop]

theorem reads_laterKey (fits : Fits format family m) (before : Fits format family previous) :
    Reads (laterKey previous.key (Flags.ofPair m previous) m.key.length
      (sharedKeyLength m previous)) (writeKey m previous) m.key := by
  intro size offset rest
  obtain ⟨start, more, written, inKey, reads⟩ := reads_start fits before
  have shared := (sharedKeyLength_spec fits.row before.row (fits.families before)).1.inside
  have parts := key_of_parts previous inKey
  have qualifierLength : ((m.key.take (m.key.length - Key.suffixLength)).drop more).length
      = m.key.length - (more + Key.suffixLength) := by
    rw [Bytes.length_drop_take (by omega)]
    omega
  have timestampLength : ((Bytes.ofNat 8 m.timestamp.toNat).drop
      (Flags.ofPair m previous).timestamp).length = 8 - (Flags.ofPair m previous).timestamp := by
    simp
  have startLength : (m.key.take more).length = more := by
    simp only [List.length_take]
    omega
  have long : ¬ m.key.length < more + Key.suffixLength := by omega
  have whole : ¬ m.key.length < 2 + rowLength m.key + 1 + familyLength m.key
      + Key.suffixLength := by
    rw [rowLength_key fits, familyLength_key fits]
    simp [Mutation.length_key, Key.suffixLength]
    omega
  rw [writeKey, written]
  generalize (m.key.take (m.key.length - Key.suffixLength)).drop more = qualifier at *
  generalize (Bytes.ofNat 8 m.timestamp.toNat).drop (Flags.ofPair m previous).timestamp = timestamp
    at *
  have startRead := reads.eq size
  have qualifierRead := (Input.reads_take qualifier "FAST_DIFF qualifier" qualifierLength).eq size
  have timestampRead := (Input.reads_take timestamp "FAST_DIFF timestamp" timestampLength).eq size
  have kindRead := (reads_kind m previous).eq size
  simp only [laterKey, shared, if_false, List.append_assoc, startRead, ok_bind, startLength,
    long, qualifierRead, timestampRead, kindRead, pure_eq_ok]
  simp only [List.append_assoc] at parts
  simp only [parts, whole, if_false]
  simp only [List.length_append, Nat.add_assoc]

theorem reads_length {same : Bool} {before length : Nat} (fits : length < 0x1_0000_0000)
    (equal : same = true → before = length) :
    Reads (readLength same before) (if same then [] else Septets.write length) length := by
  intro size offset rest
  cases same with
  | true => simp [readLength, equal]
  | false => simpa [readLength] using (Septets.reads_write fits).eq size offset rest

theorem reads_tags (tags : format.tags = true → m.tags.length ≤ 65535) :
    Reads (readTags format)
      ((m.record format).tags.elim [] fun tags => Septets.write tags.length ++ tags)
      (m.record format).tags := by
  intro size offset rest
  cases tagged : format.tags with
  | false => simp [readTags, Mutation.record, tagged]
  | true =>
    have small := tags tagged
    have length := (Septets.reads_write (show m.tags.length < 0x1_0000_0000 by omega)).eq size
      offset (m.tags ++ rest)
    have taken := (Input.reads_take m.tags "FAST_DIFF tags" rfl).eq size
    have short : ¬ 65535 < m.tags.length := by omega
    simp [readTags, Mutation.record, tagged, length, taken, short, Nat.add_assoc]

theorem reads_stamp (format : RecordFormat) (m : Mutation) :
    Reads (readStamp format) ((m.record format).stamp.getD []) (m.record format).stamp := by
  intro size offset rest
  cases recorded : format.mvcc with
  | false => simp [readStamp, Mutation.record, recorded]
  | true =>
    obtain ⟨first, more, written, length, -⟩ := VarLong.write_eq_cons m.sequenceId.toInt64
    have number := (VarLong.reads_write m.sequenceId.toInt64).eq size offset rest
    rw [written] at number
    simp only [List.cons_append] at number
    simp [readStamp, Mutation.record, recorded, written, number, length]

theorem writeTail_eq : writeTail (m.record format) =
    ((m.record format).tags.elim [] fun tags => Septets.write tags.length ++ tags) ++
      (m.record format).stamp.getD [] := rfl

theorem reads_firstKey (fits : Fits format family m) :
    Reads (firstKey m.key.length) m.key m.key := by
  intro size offset rest
  have taken := (Input.reads_take m.key "FAST_DIFF key" rfl).eq size offset rest
  have long : ¬ m.key.length < Key.minLength := by simp [Mutation.length_key, Key.minLength]
  have row : ¬ m.key.length ≤ 2 + rowLength m.key := by
    rw [rowLength_key fits]
    simp [Mutation.length_key]
    omega
  have column : ¬ m.key.length < 2 + rowLength m.key + 1 + familyLength m.key
      + Key.suffixLength := by
    rw [rowLength_key fits, familyLength_key fits]
    simp [Mutation.length_key, Key.suffixLength]
    omega
  simp only [firstKey, taken, ok_bind, long, row, column, if_false, pure_eq_ok]

theorem reads_firstRecord (fits : Fits format family m) :
    Reads (readRecord format none (Flags.ofByte 0)) (writeFirst format m).tail
      (m.record format) := by
  intro size offset rest
  have flags : Flags.ofByte 0 = ⟨0, false, false, false, false⟩ := by
    simp [Flags.ofByte]
  have keyLength := (Septets.reads_write fits.key).eq size
  have valueLength := (Septets.reads_write fits.value).eq size
  have shared := (Septets.reads_write (show 0 < 0x1_0000_0000 by decide)).eq size
  have key := (reads_firstKey fits).eq size
  have value := (Input.reads_take m.value "FAST_DIFF value" rfl).eq size
  have tags := (reads_tags fits.tags).eq size
  have stamp := (reads_stamp format m).eq size
  have record : (⟨m.key, m.value, (m.record format).tags, (m.record format).stamp⟩ : Record) =
      m.record format := rfl
  simp [writeFirst, flags, readRecord, readLength, keyLength, valueLength, shared, readKey, key,
    readValue, value, writeTail_eq, tags, stamp, record, Nat.add_assoc]

theorem writeLater_eq (format : RecordFormat) (m previous : Mutation) :
    writeLater format m previous = (Flags.ofPair m previous).toByte :: (
      (if (Flags.ofPair m previous).sameKeyLength then [] else Septets.write m.key.length)
      ++ ((if (Flags.ofPair m previous).sameValueLength then []
        else Septets.write m.value.length)
      ++ (Septets.write (sharedKeyLength m previous) ++ (writeKey m previous
      ++ ((if (Flags.ofPair m previous).sameValue then [] else m.value)
      ++ writeTail (m.record format)))))) := by
  simp [writeLater, writeKey]

theorem reads_value (m previous : Mutation) :
    Reads (readValue
        (if (Flags.ofPair m previous).sameValue then some previous.value else none)
        m.value.length)
      (if (Flags.ofPair m previous).sameValue then [] else m.value) m.value := by
  intro size offset rest
  by_cases same : m.value = previous.value
  · simp [readValue, Flags.ofPair, same]
  · simpa [readValue, Flags.ofPair, same] using
      (Input.reads_take m.value "FAST_DIFF value" rfl).eq size offset rest

theorem reads_laterRecord (fits : Fits format family m) (before : Fits format family previous) :
    Reads (readRecord format (some (previous.record format)) (Flags.ofPair m previous))
      (writeLater format m previous).tail (m.record format) := by
  intro size offset rest
  have shared := (sharedKeyLength_spec fits.row before.row (fits.families before)).1.inside
  have keyBound := fits.key
  have keyLength := (reads_length fits.key
    (show (Flags.ofPair m previous).sameKeyLength = true → previous.key.length = m.key.length by
      simp only [Flags.ofPair, decide_eq_true_eq]; omega)).eq size
  have valueLength := (reads_length fits.value
    (show (Flags.ofPair m previous).sameValueLength = true →
        previous.value.length = m.value.length by
      simp only [Flags.ofPair, decide_eq_true_eq]; omega)).eq size
  have sharedLength := (Septets.reads_write
    (show sharedKeyLength m previous < 0x1_0000_0000 by omega)).eq size
  have key := (reads_laterKey fits before).eq size
  have value := (reads_value m previous).eq size
  have tags := (reads_tags fits.tags).eq size
  have stamp := (reads_stamp format m).eq size
  have record : (⟨m.key, m.value, (m.record format).tags, (m.record format).stamp⟩ : Record) =
      m.record format := rfl
  have previousKey : (previous.record format).key = previous.key := rfl
  have previousValue : (previous.record format).value = previous.value := rfl
  simp only [writeLater_eq, List.tail_cons, List.append_assoc, readRecord, Option.isNone_some,
    Bool.false_eq_true, false_and, if_false, Option.elim_some, previousKey, previousValue,
    keyLength, ok_bind, valueLength, sharedLength, readKey, key, Option.map_some, value,
    writeTail_eq, tags, stamp, record, pure_eq_ok, List.length_append, Nat.add_assoc]

/-- After the record of `previous`, the decoder reads those of the mutations that follow it. -/
theorem readRecords_writeAfter {ms : List Mutation} (before : Fits format family previous)
    (fits : ∀ m ∈ ms, Fits format family m) {fuel : Nat}
    (enough : (writeAfter format previous ms).length ≤ fuel) (found : List Record)
    (size offset : Nat) :
    readRecords format fuel (previous.record format :: found)
        ⟨size, offset, writeAfter format previous ms⟩ =
      .ok (found.reverse ++ (previous :: ms).map (·.record format)) := by
  induction ms generalizing previous fuel found offset with
  | nil =>
    cases fuel <;> simp [writeAfter, readRecords]
  | cons m ms ih =>
    have now := fits m (by simp)
    have flags := ofByte_toByte (timestamp_ofPair_le m previous)
    have record := (reads_laterRecord now before).eq size (offset + 1) (writeAfter format m ms)
    obtain ⟨more, written⟩ : ∃ more, writeLater format m previous =
        (Flags.ofPair m previous).toByte :: more := ⟨_, writeLater_eq ..⟩
    rw [written, List.tail_cons] at record
    rw [writeAfter, written] at enough ⊢
    cases fuel with
    | zero => simp at enough
    | succ fuel =>
      simp only [List.cons_append, List.length_cons, List.length_append] at enough
      have later := ih now (fun m member => fits m (by simp [member]))
        (show (writeAfter format m ms).length ≤ fuel by omega) (previous.record format :: found)
        (offset + 1 + more.length)
      simp only [List.cons_append, readRecords, List.head?_cons, flags, Input.skip,
        List.drop_succ_cons, List.drop_zero, record, later]
      simp

theorem records_encode {ms : List Mutation} (fits : ∀ m ∈ ms, Fits format family m) :
    records format (encode format ms) = .ok (ms.map (·.record format)) := by
  cases ms with
  | nil => simp [records, encode, readRecords]
  | cons m ms =>
    have now := fits m (by simp)
    have later := fun m member => fits m (List.mem_cons_of_mem _ member)
    have record := (reads_firstRecord now).eq (encode format (m :: ms)).length 1
      (writeAfter format m ms)
    obtain ⟨more, written⟩ : ∃ more, writeFirst format m = 0 :: more := ⟨_, rfl⟩
    rw [written, List.tail_cons] at record
    have after := readRecords_writeAfter now later
      (show (writeAfter format m ms).length ≤ (more ++ writeAfter format m ms).length by simp)
      [] (more ++ writeAfter format m ms).length.succ (1 + more.length)
    simp only [encode, written, List.cons_append, List.length_cons] at record ⊢
    simp only [records, Input.ofBytes, List.length_cons, readRecords, List.head?_nil, Input.skip,
      List.drop_succ_cons, List.drop_zero, Nat.zero_add, record, after]
    simp

/-- A FAST_DIFF block of mutations of one family decodes to their plain records. -/
theorem decode_encode {ms : List Mutation} (fits : ∀ m ∈ ms, Fits format family m) :
    decode format (encode format ms) = .ok (ms.flatMap fun m => (m.record format).encode) := by
  rw [decode, records_encode fits, ok_bind, pure_eq_ok, List.flatMap_map]

def newRowAndTombstone : List Mutation := [
  ⟨[97], [102], [113], 256, .put, [1, 2], [7], 5⟩,
  ⟨[97, 98], [102], [113], 255, .put, [1, 2], [], 200⟩,
  ⟨[97, 98], [102], [113, 113], 255, .delete, [], [], 0⟩]

theorem decode_encode_newRowAndTombstone :
    (∀ m ∈ newRowAndTombstone, Fits ⟨true, true⟩ [102] m) ∧
      decode ⟨true, true⟩ (encode ⟨true, true⟩ newRowAndTombstone) =
        .ok (newRowAndTombstone.flatMap fun m => (m.record ⟨true, true⟩).encode) := by
  have fits : ∀ m ∈ newRowAndTombstone, Fits ⟨true, true⟩ [102] m := by
    intro m member
    simp only [newRowAndTombstone, List.mem_cons, List.not_mem_nil, or_false] at member
    rcases member with rfl | rfl | rfl <;>
      exact ⟨by decide, rfl, by decide, by decide, by decide, by decide⟩
  exact ⟨fits, decode_encode fits⟩

end Delta

end CellStore
