import CellStore.Cell.Layout
import CellStore.Proofs.OneOrder
import Mathlib.Data.List.TakeDrop

namespace CellStore

namespace Key

theorem drop_suffix {key : Bytes} (long : suffixLength ≤ key.length) :
    key.drop (key.length - suffixLength) =
      Bytes.ofNat 8 (UInt64.ofNat (Bytes.toNat
        ((key.drop (key.length - suffixLength)).take 8))).toNat ++ [key.getLastD 0] := by
  rw [suffixLength] at long ⊢
  have eight : ((key.drop (key.length - 9)).take 8).length = 8 := by
    rw [List.length_take, List.length_drop]
    omega
  have small : Bytes.toNat ((key.drop (key.length - 9)).take 8) < 0x1_0000_0000_0000_0000 := by
    have bound := Bytes.toNat_lt ((key.drop (key.length - 9)).take 8)
    rw [eight] at bound
    exact bound
  have stamp := Bytes.ofNat_toNat ((key.drop (key.length - 9)).take 8)
  rw [eight] at stamp
  have last : (key.drop (key.length - 9)).drop 8 = [key.getLastD 0] := by
    have filled : key ≠ [] := List.ne_nil_of_length_pos (by omega)
    rw [List.drop_drop, show key.length - 9 + 8 = key.length - 1 by omega,
      List.drop_length_sub_one filled, List.getLastD_eq_getLast?,
      List.getLast?_eq_some_getLast filled]
    rfl
  rw [UInt64.toNat_ofNat', Nat.mod_eq_of_lt small, stamp, ← last, List.take_append_drop]

theorem encode_of_drop {key rest : Bytes} {familyLength : UInt8}
    (behindRow : key.drop (2 + Bytes.toNat (key.take 2)) = familyLength :: rest)
    (room : 2 + Bytes.toNat (key.take 2) + 1 + familyLength.toNat + suffixLength ≤ key.length) :
    Holds ((key.drop 2).take (Bytes.toNat (key.take 2))) (rest.take familyLength.toNat) ∧
      encode ((key.drop 2).take (Bytes.toNat (key.take 2))) (rest.take familyLength.toNat)
        ((rest.drop familyLength.toNat).take
          (key.length - suffixLength - (2 + Bytes.toNat (key.take 2) + 1 + familyLength.toNat)))
        (UInt64.ofNat (Bytes.toNat ((key.drop (key.length - suffixLength)).take 8)))
        (key.getLastD 0) = key := by
  have two : (key.take 2).length = 2 := by
    rw [List.length_take]
    omega
  have number := Bytes.ofNat_toNat (key.take 2)
  have small := Bytes.toNat_lt (key.take 2)
  rw [two] at number small
  generalize Bytes.toNat (key.take 2) = n at *
  have restLength := congrArg List.length behindRow
  rw [List.length_drop, List.length_cons] at restLength
  have rowLength : ((key.drop 2).take n).length = n := by
    rw [List.length_take, List.length_drop]
    omega
  have familySize : (rest.take familyLength.toNat).length = familyLength.toNat := by
    rw [List.length_take]
    omega
  have holds : Holds ((key.drop 2).take n) (rest.take familyLength.toNat) := by
    have byte := familyLength.toNat_lt
    exact ⟨by omega, by omega⟩
  have behindQualifier : (rest.drop familyLength.toNat).drop
      (key.length - suffixLength - (2 + n + 1 + familyLength.toNat)) =
        key.drop (key.length - suffixLength) := by
    have behindLength : key.drop (2 + n + 1) = rest := by
      rw [← List.drop_drop, behindRow, List.drop_succ_cons, List.drop_zero]
    simp only [← behindLength, List.drop_drop]
    congr 1
    omega
  refine ⟨holds, ?_⟩
  rw [encode_eq holds.row holds.family, rowLength, familySize, number, UInt8.ofNat_toNat,
    ← drop_suffix (by omega), ← behindQualifier, List.take_append_drop, List.take_append_drop,
    ← behindRow, ← List.drop_drop, List.take_append_drop, List.take_append_drop]

theorem encode_of_column {key : Bytes} {column : StoredCell.Column}
    (read : StoredCell.column key = .ok column) :
    Holds column.row column.family ∧
      encode column.row column.family column.qualifier column.timestamp column.kind.code = key := by
  rw [StoredCell.column] at read
  split at read
  · cases read
  · dsimp only at read
    split at read
    · cases read
    · rename_i behindRow
      split at read
      · cases read
      · rename_i room
        obtain ⟨kind, known, given⟩ := exists_of_bind read
        cases given
        rw [CellKind.code_of_ofCode known]
        exact encode_of_drop behindRow (Nat.not_lt.1 room)

end Key

namespace CellLayout

variable {format : RecordFormat} {data : Bytes} {start n offset : Nat}

def of (stored : StoredCell) (offset stop : Nat) : CellLayout :=
  let tagsStart := offset + 8 + stored.key.length + stored.record.value.length + 2
  ⟨offset + 8, stored.key.length, stored.cell.row.length, stored.cell.family.length,
    stored.record.value.length, stored.record.tags.map fun tags => (tagsStart, tags.length),
    stored.cell.timestamp, stored.cell.kind, stored.cell.sequenceId, stop - offset⟩

theorem take_startingAt (inside : start ≤ data.length ∨ 0 < n) (what : String) :
    (Input.startingAt data start).take what n =
      (bytesAt data what start n).map (·, .startingAt data (start + n)) := by
  have length : ((data.drop start).take n).length = n ↔ start + n ≤ data.length := by
    rw [List.length_take, List.length_drop]
    omega
  rw [Input.take, bytesAt, Bytes.slice?]
  simp only [Input.startingAt, length]
  split
  · simp only [Except.map, Input.skip, List.drop_drop]
  · rfl

theorem number_startingAt (inside : start ≤ data.length ∨ 0 < n) (what : String) :
    (Input.startingAt data start).number what n =
      (numberAt data what start n).map (·, .startingAt data (start + n)) := by
  rw [Input.number, take_startingAt inside, numberAt]
  cases bytesAt data what start n <;> rfl

theorem le_of_bytesAt {what : String} {bytes : Bytes}
    (found : bytesAt data what start n = .ok bytes) :
    start + n ≤ data.length ∧ bytes.length = n := by
  rw [bytesAt] at found
  split at found
  · rename_i cut
    cases found
    obtain ⟨before, after, rfl, rfl, rfl⟩ := Bytes.slice?_eq_some_iff.1 cut
    rw [List.length_append, List.length_append]
    exact ⟨by omega, rfl⟩
  · cases found

theorem le_of_numberAt {what : String} {number : Nat}
    (found : numberAt data what start n = .ok number) : start + n ≤ data.length := by
  obtain ⟨bytes, found, -⟩ := exists_of_bind found
  exact (le_of_bytesAt found).1

theorem startingAt_add {bytes behind : Bytes} (split : data.drop start = bytes ++ behind) :
    (⟨data.length, start + bytes.length, behind⟩ : Input) =
      .startingAt data (start + bytes.length) := by
  rw [Input.startingAt, ← List.drop_drop, split, List.drop_left]

theorem checkKey_eq (key : Bytes) : checkKey key = (StoredCell.column key).map fun column =>
    (column.row.length, column.family.length, column.timestamp, column.kind) := by
  rw [checkKey, StoredCell.column]
  split
  · rfl
  · dsimp only
    cases behindRow : key.drop (2 + Bytes.toNat (key.take 2)) with
    | nil =>
      rw [← List.head?_drop, behindRow]
      rfl
    | cons familyLength rest =>
      rw [← List.head?_drop, behindRow, List.head?_cons]
      dsimp only
      split
      · rfl
      · rename_i room
        have restLength := congrArg List.length behindRow
        rw [List.length_drop, List.length_cons] at restLength
        cases CellKind.ofCode (key.getLastD 0) with
        | error e => rfl
        | ok kind =>
          have row : ((key.drop 2).take (Bytes.toNat (key.take 2))).length =
              Bytes.toNat (key.take 2) := by
            rw [List.length_take, List.length_drop]
            omega
          have family : (rest.take familyLength.toNat).length = familyLength.toNat := by
            rw [List.length_take]
            omega
          simp only [ok_bind, pure_eq_ok, Except.map, row, family]

theorem findTags_eq (inside : start ≤ data.length) : findTags format data start =
    (StoredCell.parseTags format (.startingAt data start)).map fun read =>
      (read.1.map fun tags => (start + 2, tags.length), read.2.offset) := by
  rw [findTags, StoredCell.parseTags]
  split
  · rw [number_startingAt (.inl inside), bind_map, map_bind]
    refine bind_congr_ok fun length numbered => ?_
    dsimp only
    rw [take_startingAt (.inl (le_of_numberAt numbered)), bind_map, map_bind]
    refine bind_congr_ok fun tags found => ?_
    obtain ⟨-, rfl⟩ := le_of_bytesAt found
    rfl
  · rfl

theorem findStamp_eq (format : RecordFormat) (data : Bytes) (start : Nat) :
    findStamp format data start =
      (StoredCell.parseStamp format (.startingAt data start)).map fun read =>
        (read.2.1, read.2.2.offset) := by
  rw [findStamp, StoredCell.parseStamp]
  split
  · rw [map_bind]
    refine bind_congr_ok fun number _ => ?_
    dsimp only
    split <;> rfl
  · rfl

/-- Where a record stands is found as the record is read, and so is what is wrong with it. -/
theorem parse_eq (format : RecordFormat) (data : Bytes) (offset : Nat) :
    parse format data offset =
      (StoredCell.parse format (.startingAt data offset)).map fun read =>
        of read.1 offset read.2.offset := by
  rw [parse, StoredCell.parse, number_startingAt (.inr (by decide)), bind_map, map_bind]
  refine bind_congr_ok fun keyLength first => ?_
  dsimp only
  rw [number_startingAt (.inl (le_of_numberAt first)), bind_map, map_bind]
  refine bind_congr_ok fun valueLength second => ?_
  dsimp only
  split
  · rfl
  · rw [take_startingAt (.inl (le_of_numberAt second)), bind_map, map_bind]
    refine bind_congr_ok fun key keyed => ?_
    obtain ⟨keyInside, rfl⟩ := le_of_bytesAt keyed
    dsimp only
    rw [take_startingAt (.inl keyInside), bind_map, map_bind]
    refine bind_congr_ok fun value valued => ?_
    obtain ⟨valueInside, rfl⟩ := le_of_bytesAt valued
    dsimp only
    rw [checkKey_eq, bind_map, map_bind]
    refine bind_congr_ok fun column _ => ?_
    dsimp only
    rw [findTags_eq valueInside, bind_map, map_bind]
    refine bind_congr_ok fun found tagged => ?_
    obtain ⟨tags, atStamp⟩ := found
    obtain ⟨-, behind, split, ends⟩ := StoredCell.exists_of_parseTags tagged
    rw [startingAt_add split] at ends
    subst ends
    dsimp only
    rw [findStamp_eq, bind_map, map_bind]
    rfl

theorem slice?_key {row family : Bytes} (holds : Key.Holds row family) (qualifier : Bytes)
    (timestamp : UInt64) (kind : UInt8) :
    (Key.encode row family qualifier timestamp kind).slice? 2 row.length = some row
      ∧ (Key.encode row family qualifier timestamp kind).slice? (2 + row.length + 1) family.length =
        some family
      ∧ qualifier? (Key.encode row family qualifier timestamp kind)
        (2 + row.length + 1 + family.length) = some qualifier := by
  rw [Key.encode_eq holds.row holds.family]
  generalize ends : Bytes.ofNat 8 timestamp.toNat ++ [kind] = suffix
  have nine : suffix.length = Key.suffixLength := by
    rw [← ends, List.length_append, Bytes.length_ofNat]
    rfl
  refine ⟨?_, ?_, ?_⟩
  · refine Bytes.slice?_eq_some_iff.2 ⟨Bytes.ofNat 2 row.length,
      UInt8.ofNat family.length :: (family ++ (qualifier ++ suffix)), rfl, ?_, rfl⟩
    exact Bytes.length_ofNat 2 row.length
  · refine Bytes.slice?_eq_some_iff.2 ⟨Bytes.ofNat 2 row.length ++ (row ++
      [UInt8.ofNat family.length]), qualifier ++ suffix, ?_, ?_, rfl⟩
    · simp only [List.append_assoc, List.cons_append, List.nil_append]
    · simp only [List.length_append, List.length_singleton, Bytes.length_ofNat]
      omega
  · rw [qualifier?, if_pos]
    · refine Bytes.slice?_eq_some_iff.2 ⟨Bytes.ofNat 2 row.length ++ (row ++
        UInt8.ofNat family.length :: family), suffix, ?_, ?_, ?_⟩
      · simp only [List.append_assoc, List.cons_append]
      · simp only [List.length_append, List.length_cons, Bytes.length_ofNat]
        omega
      · simp only [List.length_append, List.length_cons, Bytes.length_ofNat]
        omega
    · simp only [List.length_append, List.length_cons, Bytes.length_ofNat]
      omega

theorem slice?_record (record : Record) (before after : Bytes) :
    let data := before ++ (record.encode ++ after)
    let keyStart := before.length + 8
    let valueStart := keyStart + record.key.length
    data.slice? keyStart record.key.length = some record.key
      ∧ data.slice? valueStart record.value.length = some record.value
      ∧ tags? data (record.tags.map fun tags =>
        (valueStart + record.value.length + 2, tags.length)) = some record.tags := by
  obtain ⟨key, value, tags, stamp⟩ := record
  simp only [Record.encode, List.append_assoc]
  generalize lengths : before ++ (Bytes.ofNat 4 key.length ++ Bytes.ofNat 4 value.length) = start
  have eight : start.length = before.length + 8 := by
    rw [← lengths, List.length_append, List.length_append, Bytes.length_ofNat, Bytes.length_ofNat]
  refine ⟨?_, ?_, ?_⟩
  · exact Bytes.slice?_eq_some_iff.2 ⟨start,
      value ++ (Record.encodeTags tags ++ (stamp.getD [] ++ after)),
      by simp only [← lengths, List.append_assoc], eight, rfl⟩
  · exact Bytes.slice?_eq_some_iff.2 ⟨start ++ key,
      Record.encodeTags tags ++ (stamp.getD [] ++ after),
      by simp only [← lengths, List.append_assoc], by rw [List.length_append, eight], rfl⟩
  · cases tags with
    | none => rfl
    | some tags =>
      refine congrArg (Option.map some) (Bytes.slice?_eq_some_iff.2 ⟨start ++ (key ++ (value ++
        Bytes.ofNat 2 tags.length)), stamp.getD [] ++ after, ?_, ?_, rfl⟩)
      · simp only [← lengths, Record.encodeTags, List.append_assoc]
      · simp only [List.length_append, eight, Bytes.length_ofNat]
        omega

theorem view?_of {stored : StoredCell} (agrees : stored.Agrees format) (before after : Bytes)
    (stop : Nat) :
    (of stored before.length stop).view? (before ++ (stored.record.encode ++ after)) =
      some (stored.key, stored.cell) := by
  obtain ⟨holds, whole⟩ := Key.encode_of_column agrees.column
  obtain ⟨row, family, qualifier⟩ := slice?_key holds stored.cell.qualifier stored.cell.timestamp
    stored.cell.kind.code
  obtain ⟨key, value, tags⟩ := slice?_record stored.record before after
  dsimp only at whole
  rw [whole] at row family qualifier
  simp only [view?, of, StoredCell.key] at row family qualifier ⊢
  simp only [key, row, family, qualifier, value, tags, Option.bind_eq_bind, Option.bind_some,
    Option.pure_def]
  rw [← agrees.value, ← agrees.tags]

theorem exists_split {stored : StoredCell} {after : Input}
    (read : StoredCell.parse format (.startingAt data offset) = .ok (stored, after)) :
    after = .startingAt data (offset + stored.record.encode.length)
      ∧ ∃ before behind, before.length = offset
        ∧ data = before ++ (stored.record.encode ++ behind) := by
  obtain ⟨-, behind, split, rfl⟩ := StoredCell.exists_of_parse read
  refine ⟨startingAt_add split, data.take offset, behind, ?_, ?_⟩
  · have length := congrArg List.length split
    simp only [List.length_drop, Record.encode, List.length_append, Bytes.length_ofNat] at length
    rw [List.length_take]
    omega
  · rw [← split, List.take_append_drop]

theorem exists_of_parse {layout : CellLayout} (parsed : parse format data offset = .ok layout) :
    ∃ stored, StoredCell.parse format (.startingAt data offset) =
        .ok (stored, .startingAt data (offset + layout.length))
      ∧ layout.view? data = some (stored.key, stored.cell) ∧ 0 < layout.length := by
  rw [parse_eq] at parsed
  obtain ⟨⟨stored, after⟩, read, given⟩ := exists_of_map parsed
  obtain ⟨agrees, -⟩ := StoredCell.exists_of_parse read
  obtain ⟨rfl, before, behind, rfl, rfl⟩ := exists_split read
  have length : layout.length = stored.record.encode.length := by
    rw [← given]
    exact Nat.add_sub_cancel_left _ _
  refine ⟨stored, length ▸ read, ?_, ?_⟩
  · rw [← given]
    exact view?_of agrees before behind _
  · simp only [length, Record.encode, List.length_append, Bytes.length_ofNat]
    omega

/-- Nothing of a record is lost: its parts are inside of the data, its key is that of its cell, and
the record that is written of the key, the value, the tags and the bytes of the memstore timestamp
is the one that was read. -/
theorem parse_lossless {layout : CellLayout} (parsed : parse format data offset = .ok layout) :
    ∃ key cell stamp, layout.view? data = some (key, cell)
      ∧ cell.key = key
      ∧ cell.tags.isSome = format.tags ∧ stamp.isSome = format.mvcc
      ∧ (∀ raw ∈ stamp, Reads VarLong.read raw cell.sequenceId.toInt64)
      ∧ data.slice? offset layout.length = some (Record.encode ⟨key, cell.value, cell.tags, stamp⟩)
      ∧ StoredCell.parse format (.startingAt data offset) =
        .ok (⟨⟨key, cell.value, cell.tags, stamp⟩, cell⟩,
          .startingAt data (offset + layout.length)) := by
  rw [parse_eq] at parsed
  obtain ⟨⟨stored, after⟩, read, given⟩ := exists_of_map parsed
  obtain ⟨agrees, -⟩ := StoredCell.exists_of_parse read
  obtain ⟨rfl, before, behind, rfl, rfl⟩ := exists_split read
  have length : layout.length = stored.record.encode.length := by
    rw [← given]
    exact Nat.add_sub_cancel_left _ _
  have record : (⟨stored.key, stored.cell.value, stored.cell.tags, stored.record.stamp⟩ : Record) =
      stored.record := by
    rw [agrees.value, agrees.tags]
    rfl
  refine ⟨stored.key, stored.cell, stored.record.stamp, ?_,
    (Key.encode_of_column agrees.column).2, agrees.tags ▸ agrees.tagged, agrees.stamped,
    agrees.stamp, ?_, ?_⟩
  · rw [← given]
    exact view?_of agrees before behind _
  · rw [record]
    exact Bytes.slice?_eq_some_iff.2 ⟨before, behind, rfl, rfl, length.symm⟩
  · rw [record, length]
    exact read

def surrounded : Bytes :=
  [255, 0, 0, 0, 14, 0, 0, 0, 1, 0, 1, 97, 1, 102, 0, 0, 0, 0, 0, 0, 0, 5, 4, 1, 0, 1, 7, 9, 255]

theorem parse_lossless_surrounded :
    parse ⟨true, true⟩ surrounded 1 = .ok ⟨9, 14, 1, 1, 1, some (26, 1), 5, .put, 9, 27⟩
    ∧ ∃ key cell stamp, view? ⟨9, 14, 1, 1, 1, some (26, 1), 5, .put, 9, 27⟩ surrounded =
        some (key, cell)
      ∧ cell.key = key
      ∧ cell.tags.isSome = true ∧ stamp.isSome = true
      ∧ (∀ raw ∈ stamp, Reads VarLong.read raw cell.sequenceId.toInt64)
      ∧ surrounded.slice? 1 27 = some (Record.encode ⟨key, cell.value, cell.tags, stamp⟩)
      ∧ StoredCell.parse ⟨true, true⟩ (.startingAt surrounded 1) =
        .ok (⟨⟨key, cell.value, cell.tags, stamp⟩, cell⟩, .startingAt surrounded 28) := by
  have parsed : parse ⟨true, true⟩ surrounded 1 =
      .ok ⟨9, 14, 1, 1, 1, some (26, 1), 5, .put, 9, 27⟩ := by decide +kernel
  exact ⟨parsed, parse_lossless parsed⟩

end CellLayout

end CellStore
