import CellStore.Proofs.DeltaKeys

/-! Decoding into one output, with the parts of the last key and the place of the last value alone,
gives what decoding with the last record gives. The invariant is that the parts are those of the
last key, that it is whole, and that the value of the last record stands where it is said to. -/

namespace CellStore

namespace Delta

/-- A mark of the last record, where the output has its value. -/
inductive Keeps (output : Bytes) : Option Mark → Option Record → Prop
  | nothing : Keeps output none none
  | last {mark : Mark} {record : Record} : mark.key = .of record.key →
      mark.keyLength = record.key.length → Key.Whole record.key →
      mark.value? output = some record.value → Keeps output (some mark) (some record)

/-- What a draft becomes, with a value of its own or that of the record before. -/
inductive Drafts (previous : Option Record) : Draft × Input → Record × Input → Prop
  | record (draft : Draft) {key value : Bytes} {after : Input} : draft.key = .of key →
      draft.keyLength = key.length → Key.Whole key →
      (draft.value <|> previous.map (·.value)) = some value → value.length = draft.valueLength →
        Drafts previous (draft, after) (⟨key, value, draft.tags, draft.stamp⟩, after)

variable {format : RecordFormat} {output : Bytes} {last : Option Mark} {previous : Option Record}

theorem length_of_value? {mark : Mark} {value : Bytes} (kept : mark.value? output = some value) :
    value.length = mark.length :=
  let ⟨_, _, _, _, length⟩ := Bytes.slice?_eq_some_iff.1 kept
  length

variable {flags : Flags} {input : Input}

theorem drafted_of_value (own : Option Bytes) {key value : Bytes} (whole : Key.Whole key)
    (given : (own <|> previous.map (·.value)) = some value) (input : Input) :
    Alike (Drafts previous)
      (do
        let (tags, input) ← readTags format input
        let (stamp, input) ← readStamp format input
        return (⟨.of key, key.length, own, value.length, tags, stamp⟩, input))
      (do
        let (tags, input) ← readTags format input
        let (stamp, input) ← readStamp format input
        return (⟨key, value, tags, stamp⟩, input)) := by
  refine .bind _ fun (tags, atStamp) _ => ?_
  refine .bind _ fun (stamp, atEnd) _ => ?_
  exact .ok (.record ⟨.of key, key.length, own, value.length, tags, stamp⟩ rfl rfl whole given rfl)

theorem readMarkedKey_eq (kept : Keeps output last previous) (small : flags.timestamp ≤ 8)
    (length shared : Nat) (input : Input) : readMarkedKey last flags length shared input =
      (readKey previous flags length shared input).map fun read => (.of read.1, read.2) := by
  cases kept with
  | nothing => exact KnownKey.first_eq length input
  | last key _ whole _ =>
    rw [readMarkedKey, key]
    exact KnownKey.later_eq whole small

theorem whole_of_readKey (kept : Keeps output last previous) (small : flags.timestamp ≤ 8)
    {length shared : Nat} {key : Bytes} {after : Input}
    (made : readKey previous flags length shared input = .ok (key, after)) :
    key.length = length ∧ Key.Whole key := by
  cases kept with
  | nothing => exact whole_of_firstKey made
  | last _ _ whole _ => exact whole_of_laterKey whole small made

theorem drafted_of_keeps (kept : Keeps output last previous) (small : flags.timestamp ≤ 8) :
    Alike (Drafts previous) (readDraft format last flags input)
      (readRecord format previous flags input) := by
  -- Apart from its key, no more than its lengths is asked of the record before.
  obtain ⟨none, keyLength, valueLength, lengths⟩ : last.isNone = previous.isNone
      ∧ last.elim 0 (·.keyLength) = previous.elim 0 (·.key.length)
      ∧ last.elim 0 (·.length) = previous.elim 0 (·.value.length)
      ∧ last.map (·.length) = (previous.map (·.value)).map (·.length) := by
    cases kept with
    | nothing => exact ⟨rfl, rfl, rfl, rfl⟩
    | last key keyLength _ value =>
      have length := length_of_value? value
      exact ⟨rfl, keyLength, length.symm, congrArg some length.symm⟩
  rw [readDraft, readRecord, none, keyLength, valueLength, lengths]
  split
  · exact .error _
  · refine .bind _ fun (keyLength, atSecond) _ => ?_
    refine .bind _ fun (valueLength, atShared) _ => ?_
    refine .bind _ fun (shared, atKey) _ => ?_
    dsimp only
    rw [readMarkedKey_eq kept small, bind_map]
    refine .bind _ fun (key, atValue) keyRead => ?_
    obtain ⟨rfl, whole⟩ := whole_of_readKey kept small keyRead
    dsimp only
    have repeats : (if flags.sameValue then (previous.map (·.value)).map (·.length)
        else Option.none) =
          (if flags.sameValue then previous.map (·.value) else Option.none).map (·.length) := by
      split <;> rfl
    rw [repeats]
    cases repeats : if flags.sameValue then previous.map (·.value) else Option.none with
    | none =>
      simp only [Option.map_none, readOwnValue, readValue, bind_assoc]
      refine .bind _ fun valueRead taken => ?_
      obtain ⟨value, atTags⟩ := valueRead
      obtain rfl : value.length = valueLength := (Input.take_eq_ok_iff.1 taken).1
      exact drafted_of_value (some value) whole rfl atTags
    | some value =>
      have given : previous.map (·.value) = some value := by
        split at repeats
        · exact repeats
        · cases repeats
      simp only [Option.map_some, readOwnValue, readValue]
      split
      · exact .error _
      · rename_i same
        obtain rfl : value.length = valueLength := Decidable.not_not.1 same
        exact drafted_of_value Option.none whole given atValue

theorem append?_of_drafts {draft : Draft} {record : Record} {atEnd after : Input}
    (kept : Keeps output last previous) (drafts : Drafts previous (draft, atEnd) (record, after)) :
    ∃ mark, draft.append? last output = some (output ++ record.encode, mark)
      ∧ Keeps (output ++ record.encode) (some mark) (some record) := by
  obtain @⟨_, key, value, _, known, keyLength, whole, given, length⟩ := drafts
  -- The key goes before the value, so the output has grown when the value is copied.
  have copied (more : Bytes) : (draft.value <|> last.bind (·.value? (output ++ more))) =
      some value := by
    cases own : draft.value with
    | some other =>
      rw [own] at given
      exact given
    | none =>
      rw [own] at given
      cases kept with
      | nothing => cases given
      | last _ _ _ value =>
        cases given
        exact Bytes.slice?_append value more
  let start := Bytes.ofNat 4 key.length ++ (Bytes.ofNat 4 draft.valueLength ++ key)
  refine ⟨⟨draft.key, draft.keyLength, (output ++ start).length, draft.valueLength⟩, ?_, ?_⟩
  · have bytes : draft.key.bytes = key := congrArg KnownKey.bytes known
    simp only [Draft.append?, bytes, List.append_assoc, copied]
    simp [Record.encode, length, start]
  · refine .last known keyLength whole (Bytes.slice?_eq_some_iff.2 ⟨output ++ start,
      Record.encodeTags draft.tags ++ draft.stamp.getD [], ?_, rfl, length⟩)
    simp [Record.encode, length, start]

theorem appendRecords_eq {found : List Record}
    (kept : Keeps (found.reverse.flatMap Record.encode) last found.head?) (fuel : Nat) :
    appendRecords format fuel last (found.reverse.flatMap Record.encode) input =
      some ((readRecords format fuel found input).map (·.flatMap Record.encode)) := by
  induction fuel generalizing found last input with
  | zero => rfl
  | succ fuel ih =>
    rw [appendRecords, readRecords]
    cases behind : input.rest with
    | nil => rfl
    | cons flags rest =>
      have drafted : Alike (Drafts found.head?)
          (readDraft format last (Flags.ofByte flags) (input.skip 1))
          (readRecord format found.head? (Flags.ofByte flags) (input.skip 1)) :=
        drafted_of_keeps kept (timestamp_ofByte_le flags)
      dsimp only
      generalize readDraft format last (Flags.ofByte flags) (input.skip 1) = draft at drafted ⊢
      generalize readRecord format found.head? (Flags.ofByte flags) (input.skip 1) = record
        at drafted ⊢
      cases drafted with
      | error e => rfl
      | ok drafts =>
        obtain ⟨mark, appended, kept⟩ := append?_of_drafts kept drafts
        cases drafts
        have snoc (record : Record) : (record :: found).reverse.flatMap Record.encode =
            found.reverse.flatMap Record.encode ++ record.encode := by
          rw [List.reverse_cons, List.flatMap_append, List.flatMap_singleton]
        rw [← snoc] at appended kept
        simp only [appended]
        exact ih kept

theorem decodeInPlace_eq (format : RecordFormat) (bytes : Bytes) :
    decodeInPlace format bytes = some (decode format bytes) :=
  have empty : Keeps (([] : List Record).reverse.flatMap Record.encode) none none := .nothing
  (appendRecords_eq empty bytes.length).trans rfl

end Delta

end CellStore
