import CellStore.Proofs.CellLayout
import CellStore.Proofs.DeltaChain
import CellStore.Proofs.DeltaInPlace

/-! Whatever a FAST_DIFF block says, what it decodes to is well framed: plain records one after
another, with whole keys, which are parsed as themselves. The invariant is that the record before
has a whole key and lengths that can be written. -/

namespace CellStore

/-- A record that can be written and parsed, if its lengths, its kind and its timestamp allow it. -/
structure Record.Framed (format : RecordFormat) (record : Record) : Prop
    extends record.Fits format where
  whole : Key.Whole record.key
  stamped : record.stamp.isSome = format.mvcc
  stamp : ∀ raw ∈ record.stamp, ∃ n, Reads VarLong.read raw n

namespace Delta

variable {format : RecordFormat} {flags : Flags} {input after : Input}

theorem lt_of_readLength {same : Bool} {previous n : Nat} (before : previous < 0x1_0000_0000)
    (made : readLength same previous input = .ok (n, after)) : n < 0x1_0000_0000 := by
  rw [readLength] at made
  split at made
  · cases made
    exact before
  · exact Septets.lt_of_read made

theorem length_readValue {repeated : Option Bytes} {length : Nat} {value : Bytes}
    (made : readValue repeated length input = .ok (value, after)) : value.length = length := by
  cases repeated with
  | none => exact (Input.take_eq_ok_iff.1 made).1
  | some other =>
    rw [readValue] at made
    split at made
    · cases made
    · rename_i same
      cases made
      exact Decidable.not_not.1 same

theorem framed_of_readTags {tags : Option Bytes}
    (made : readTags format input = .ok (tags, after)) :
    tags.isSome = format.tags ∧ ∀ t ∈ tags, t.length ≤ 65535 := by
  rw [readTags] at made
  split at made
  · rename_i tagged
    obtain ⟨⟨length, atTags⟩, -, made⟩ := exists_of_bind made
    dsimp only at made
    split at made
    · cases made
    · rename_i short
      obtain ⟨⟨bytes, atEnd⟩, taken, made⟩ := exists_of_bind made
      cases made
      have same : bytes.length = length := (Input.take_eq_ok_iff.1 taken).1
      refine ⟨tagged.symm, fun t member => ?_⟩
      cases member
      exact same ▸ Nat.not_lt.1 short
  · rename_i untagged
    cases made
    exact ⟨(Bool.eq_false_iff.2 untagged).symm, fun t member => by cases member⟩

theorem framed_of_readStamp {stamp : Option Bytes}
    (made : readStamp format input = .ok (stamp, after)) :
    stamp.isSome = format.mvcc ∧ ∀ raw ∈ stamp, ∃ n, Reads VarLong.read raw n := by
  cases recorded : format.mvcc with
  | false =>
    rw [readStamp, recorded, if_neg Bool.false_ne_true] at made
    cases made
    exact ⟨rfl, fun raw member => by cases member⟩
  | true =>
    obtain ⟨raw, n, rfl, -, takes, -⟩ := takes_of_readStamp recorded made
    refine ⟨rfl, fun other member => ?_⟩
    cases member
    exact ⟨n, takes.reads⟩

theorem framed_of_readRecord {previous : Option Record} {record : Record}
    (before : ∀ r ∈ previous, Record.Framed format r) (small : flags.timestamp ≤ 8)
    (made : readRecord format previous flags input = .ok (record, after)) :
    Record.Framed format record := by
  rw [readRecord] at made
  split at made
  · cases made
  · obtain ⟨⟨keyLength, atSecond⟩, keyed, made⟩ := exists_of_bind made
    obtain ⟨⟨valueLength, atShared⟩, valued, made⟩ := exists_of_bind made
    obtain ⟨⟨shared, atKey⟩, -, made⟩ := exists_of_bind made
    obtain ⟨⟨key, atValue⟩, keyRead, made⟩ := exists_of_bind made
    obtain ⟨⟨value, atTags⟩, valueRead, made⟩ := exists_of_bind made
    obtain ⟨⟨tags, atStamp⟩, tagsRead, made⟩ := exists_of_bind made
    obtain ⟨⟨stamp, atEnd⟩, stampRead, made⟩ := exists_of_bind made
    cases made
    have keyBound : keyLength < 0x1_0000_0000 := by
      refine lt_of_readLength ?_ keyed
      cases previous with
      | none => decide
      | some r => exact (before r rfl).keyLength
    have valueBound : valueLength < 0x1_0000_0000 := by
      refine lt_of_readLength ?_ valued
      cases previous with
      | none => decide
      | some r => exact (before r rfl).valueLength
    obtain ⟨keyLength, whole⟩ : key.length = keyLength ∧ Key.Whole key := by
      cases previous with
      | none => exact whole_of_firstKey keyRead
      | some r => exact whole_of_laterKey (before r rfl).whole small keyRead
    have valueLength := length_readValue valueRead
    obtain ⟨tagged, tagsLength⟩ := framed_of_readTags tagsRead
    obtain ⟨stamped, stamp⟩ := framed_of_readStamp stampRead
    exact ⟨⟨keyLength ▸ keyBound, valueLength ▸ valueBound, tagged, tagsLength⟩, whole, stamped,
      stamp⟩

theorem Chain.framed {previous : Option Record} {coded : List Coded}
    (chain : Chain format previous coded) (before : ∀ r ∈ previous, Record.Framed format r) :
    ∀ c ∈ coded, Record.Framed format c.record := by
  induction chain with
  | nil => exact List.forall_mem_nil _
  | @cons previous c coded takes later ih =>
    have framed := framed_of_readRecord before (timestamp_ofByte_le c.flags)
      (takes.reads.eq 0 0 [])
    refine List.forall_mem_cons.2 ⟨framed, ih fun r member => ?_⟩
    cases member
    exact framed

end Delta

namespace StoredCell

theorem column_of_whole {key : Bytes} (whole : Key.Whole key) :
    ∃ row family qualifier timestamp, column key =
      (CellKind.ofCode (key.getLastD 0)).map (Column.mk row family qualifier timestamp) := by
  have long : ¬ key.length < Key.minLength := Nat.not_lt.2 whole.minLength_le
  rw [Key.Whole, Delta.familyLength] at whole
  rw [column, if_neg long]
  cases behind : key.drop (2 + Delta.rowLength key) with
  | nil =>
    have short := List.drop_eq_nil_iff.1 behind
    omega
  | cons familyLength rest =>
    rw [behind, List.headD_cons] at whole
    have room : ¬ 2 + Delta.rowLength key + 1 + familyLength.toNat + Key.suffixLength >
        key.length := Nat.not_lt.2 whole
    rw [Delta.rowLength] at behind room
    simp only [pure_eq_ok, behind, if_neg room]
    exact ⟨_, _, _, _, by cases CellKind.ofCode (key.getLastD 0) <;> rfl⟩

theorem ofCode_eq_error {code : UInt8} {e : FormatError}
    (failed : CellKind.ofCode code = .error e) :
    e = .flawed (.unknownCellKind code.toNat) ∧ ∀ kind : CellKind, code ≠ kind.code := by
  refine ⟨?_, ?_⟩
  · unfold CellKind.ofCode at failed
    split at failed <;> cases failed
    rfl
  · rintro kind rfl
    rw [CellKind.ofCode_code] at failed
    cases failed

variable {format : RecordFormat} {record : Record}

theorem parseStamp_eq {stamp : Option Bytes} (given : stamp.isSome = format.mvcc)
    (reads : ∀ raw ∈ stamp, ∃ n, Reads VarLong.read raw n) (size offset : Nat) (rest : Bytes) :
    (∃ sequenceId, parseStamp format ⟨size, offset, stamp.getD [] ++ rest⟩ =
        .ok (stamp, sequenceId, ⟨size, offset + (stamp.getD []).length, rest⟩))
      ∨ ∃ raw n, stamp = some raw ∧ Reads VarLong.read raw n ∧ n < 0
        ∧ parseStamp format ⟨size, offset, stamp.getD [] ++ rest⟩ =
          .error (.flawed (.negativeStamp n.toInt)) := by
  cases stamp with
  | none =>
    rw [parseStamp, ← given]
    exact .inl ⟨0, rfl⟩
  | some raw =>
    obtain ⟨n, number⟩ := reads raw rfl
    have read := number.eq size offset rest
    by_cases below : n < 0
    · refine .inr ⟨raw, n, rfl, number, below, ?_⟩
      simp only [parseStamp, ← given, Option.isSome_some, if_true, Option.getD_some, read, ok_bind,
        below, throw_eq_error, error_bind]
    · refine .inl ⟨n.toUInt64, ?_⟩
      simp only [parseStamp, ← given, Option.isSome_some, if_true, Option.getD_some, read, ok_bind,
        below, if_false, pure_eq_ok, Nat.add_sub_cancel_left, List.take_left]

end StoredCell

namespace CellLayout

/-- How a record that stands at `start` is parsed: as itself, unless a length is past the signed
range, the kind is unknown or the memstore timestamp is negative. -/
inductive ParsesAt (format : RecordFormat) (out : Bytes) (start : Nat) (record : Record) : Prop
  | cell (layout : CellLayout) (cell : Cell) (parsed : parse format out start = .ok layout)
      (length : layout.length = record.encode.length)
      (viewed : layout.view? out = some (record.key, cell))
      (value : cell.value = record.value) (tags : cell.tags = record.tags)
  | long (past : 0x8000_0000 ≤ record.key.length ∨ 0x8000_0000 ≤ record.value.length)
      (parsed : parse format out start = .error (.flawed (.negativeCellLength start)))
  | unknown (other : ∀ kind : CellKind, record.key.getLastD 0 ≠ kind.code)
      (parsed : parse format out start =
        .error (.flawed (.unknownCellKind (record.key.getLastD 0).toNat)))
  | negative (raw : Bytes) (n : Int64) (stamped : record.stamp = some raw)
      (written : Reads VarLong.read raw n) (below : n < 0)
      (parsed : parse format out start = .error (.flawed (.negativeStamp n.toInt)))

variable {format : RecordFormat} {record : Record}

theorem parsesAt_of_framed (framed : Record.Framed format record) (before after : Bytes) :
    ParsesAt format (before ++ (record.encode ++ after)) before.length record := by
  have parses := parse_eq format (before ++ (record.encode ++ after)) before.length
  have parsed := StoredCell.parse_encode framed.toFits (before ++ (record.encode ++ after)).length
    before.length after
  rw [Input.startingAt, List.drop_left] at parses
  by_cases long : 0x8000_0000 ≤ record.key.length ∨ 0x8000_0000 ≤ record.value.length
  · rw [parsed, if_pos long] at parses
    exact .long long parses
  · rw [if_neg long] at parsed
    obtain ⟨row, family, qualifier, timestamp, column⟩ := StoredCell.column_of_whole framed.whole
    rw [column] at parsed
    cases known : CellKind.ofCode (record.key.getLastD 0) with
    | error e =>
      obtain ⟨rfl, other⟩ := StoredCell.ofCode_eq_error known
      rw [parsed, known] at parses
      exact .unknown other parses
    | ok kind =>
      rw [known] at parsed
      obtain ⟨sequenceId, read⟩ | ⟨raw, n, stamped, written, below, read⟩ :=
        StoredCell.parseStamp_eq framed.stamped framed.stamp
          (before ++ (record.encode ++ after)).length
          (before.length + StoredCell.stampStart record) after
      · simp only [Except.map, ok_bind, read, pure_eq_ok] at parsed
        rw [parsed] at parses
        obtain ⟨agrees, -⟩ := StoredCell.exists_of_parse parsed
        refine .cell _ _ parses ?_ (view?_of agrees before after _) rfl rfl
        dsimp only [of]
        rw [StoredCell.length_encode]
        omega
      · simp only [Except.map, ok_bind, read, error_bind] at parsed
        rw [parsed] at parses
        exact .negative raw n stamped written below parses

end CellLayout

namespace Delta

/-- A block decodes to records with whole keys, one after another, and each of them is parsed as
itself or has a length, a kind or a memstore timestamp that no cell has. The values that repeat
others are copied from within the output. -/
theorem decode_framed {bytes out : Bytes} (decoded : decode format bytes = .ok out) :
    ∃ coded, Chain format none coded ∧ bytes = spelled coded ∧ out = plain coded
      ∧ (∀ before c after, coded = before ++ c :: after →
        Key.minLength ≤ c.record.key.length ∧ Key.Whole c.record.key
          ∧ CellLayout.ParsesAt format out (plain before).length c.record)
      ∧ decodeInPlace format bytes = some (.ok out) := by
  have inPlace := decodeInPlace_eq format bytes
  rw [decoded] at inPlace
  obtain ⟨coded, chain, rfl, rfl⟩ := decode_eq_ok_iff.1 decoded
  refine ⟨coded, chain, rfl, rfl, ?_, inPlace⟩
  rintro before c after rfl
  have framed : Record.Framed format c.record :=
    chain.framed (fun r none => nomatch none) c (List.mem_append_right before (.head after))
  refine ⟨framed.whole.minLength_le, framed.whole, ?_⟩
  have split : plain (before ++ c :: after) = plain before ++ (c.record.encode ++ plain after) := by
    rw [plain, List.flatMap_append, List.flatMap_cons, plain, plain]
  rw [split]
  exact CellLayout.parsesAt_of_framed framed (plain before) (plain after)

theorem decode_framed_olderVersion :
    decode ⟨true, true⟩ olderVersion = .ok olderVersionRecords
    ∧ ∃ coded, Chain ⟨true, true⟩ none coded ∧ olderVersion = spelled coded
      ∧ olderVersionRecords = plain coded
      ∧ (∀ before c after, coded = before ++ c :: after →
        Key.minLength ≤ c.record.key.length ∧ Key.Whole c.record.key
          ∧ CellLayout.ParsesAt ⟨true, true⟩ olderVersionRecords (plain before).length c.record)
      ∧ decodeInPlace ⟨true, true⟩ olderVersion = some (.ok olderVersionRecords) := by
  have decoded : decode ⟨true, true⟩ olderVersion = .ok olderVersionRecords := by rfl
  exact ⟨decoded, decode_framed decoded⟩

end Delta

end CellStore
