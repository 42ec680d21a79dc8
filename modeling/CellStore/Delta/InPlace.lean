import CellStore.Delta

/-! Decoding FAST_DIFF blocks into one output. Of the records before, only what the next one may
take over is kept: the key of the last one with the parts it was found to have, and where its value
stands in the output. -/

namespace CellStore.Delta

structure KnownKey where
  bytes : Bytes
  rowLength : Nat
  familyLength : Nat
  timestamp : Bytes
  kind : UInt8

namespace KnownKey

def first (length : Nat) (input : Input) : Decoded (KnownKey × Input) := do
  let (key, input) ← input.take "FAST_DIFF key" length
  if key.length < Key.minLength then
    fail (.shortKey key.length)
  let rowLength := Delta.rowLength key
  match key[2 + rowLength]? with
  | none => fail (.rowPastKey rowLength)
  | some familyLength =>
    if key.length < 2 + rowLength + 1 + familyLength.toNat + Key.suffixLength then
      fail .columnPastKey
    return (⟨key, rowLength, familyLength.toNat, timestampBytes key, key.getLastD 0⟩, input)

def newRow (last : KnownKey) (shared : Nat) (input : Input) : Decoded ((Bytes × Nat) × Input) := do
  let (length, input) ← input.take "FAST_DIFF row length" (2 - shared)
  let start := last.bytes.take shared ++ length
  let rowLength := Delta.rowLength start
  if 2 + rowLength < start.length then
    fail (.sharedPastRow shared rowLength)
  let (row, input) ← input.take "FAST_DIFF row" (2 + rowLength - start.length)
  match last.bytes.slice? (2 + last.rowLength) (1 + last.familyLength) with
  | none => fail .noFamily
  | some family => return ((start ++ row ++ family, rowLength), input)

def readStart (last : KnownKey) (shared : Nat) (input : Input) :
    Decoded ((Bytes × Nat) × Input) :=
  if shared < 2 + last.rowLength then newRow last shared input
  else .ok ((last.bytes.take shared, last.rowLength), input)

def checkFamily (key : Bytes) (rowLength : Nat) (timestamp : Bytes) (kind : UInt8) :
    Decoded KnownKey :=
  match key[2 + rowLength]? with
  | none => fail .keyWithinRow
  | some familyLength =>
    if key.length < 2 + rowLength + 1 + familyLength.toNat + Key.suffixLength then
      fail .familyPastKey
    else .ok ⟨key, rowLength, familyLength.toNat, timestamp, kind⟩

def later (last : KnownKey) (flags : Flags) (length shared : Nat) (input : Input) :
    Decoded (KnownKey × Input) := do
  if last.bytes.length < shared ∨ length < shared then
    fail (.sharedPastKey shared last.bytes.length length)
  let ((start, rowLength), input) ← readStart last shared input
  if length < start.length + Key.suffixLength then
    fail (.shortLength length start.length)
  let (qualifier, input) ← input.take "FAST_DIFF qualifier"
    (length - (start.length + Key.suffixLength))
  let (timestamp, input) ← input.take "FAST_DIFF timestamp" (8 - flags.timestamp)
  let timestamp := last.timestamp.take flags.timestamp ++ timestamp
  let (kind, input) ← readKind flags.sameKind last.kind input
  let key := start ++ qualifier ++ timestamp ++ kind
  return (← checkFamily key rowLength timestamp (kind.headD 0), input)

end KnownKey

/-- The last record: its key and the lengths it was read with, and where its value stands in the
output. -/
structure Mark where
  key : KnownKey
  keyLength : Nat
  start : Nat
  length : Nat

/-- A record as it is read. One that repeats a value has none of its own. -/
structure Draft where
  key : KnownKey
  keyLength : Nat
  value : Option Bytes
  valueLength : Nat
  tags : Option Bytes
  stamp : Option Bytes

def readOwnValue (repeated : Option Nat) (length : Nat) (input : Input) :
    Decoded (Option Bytes × Input) :=
  match repeated with
  | none => do
    let (value, input) ← input.take "FAST_DIFF value" length
    return (some value, input)
  | some previous =>
    if previous ≠ length then fail (.unlikeValueLengths previous length) else .ok (none, input)

def readMarkedKey (last : Option Mark) (flags : Flags) (length shared : Nat) (input : Input) :
    Decoded (KnownKey × Input) :=
  match last with
  | none => KnownKey.first length input
  | some mark => mark.key.later flags length shared input

def readDraft (format : RecordFormat) (last : Option Mark) (flags : Flags) (input : Input) :
    Decoded (Draft × Input) := do
  if last.isNone ∧ (flags.sameKeyLength ∨ flags.sameValueLength) then
    fail .noPredecessor
  let (keyLength, input) ← readLength flags.sameKeyLength (last.elim 0 (·.keyLength)) input
  let (valueLength, input) ← readLength flags.sameValueLength (last.elim 0 (·.length)) input
  let (shared, input) ← Septets.read input
  let (key, input) ← readMarkedKey last flags keyLength shared input
  let repeated := if flags.sameValue then last.map (·.length) else none
  let (value, input) ← readOwnValue repeated valueLength input
  let (tags, input) ← readTags format input
  let (stamp, input) ← readStamp format input
  return (⟨key, keyLength, value, valueLength, tags, stamp⟩, input)

def Mark.value? (mark : Mark) (output : Bytes) : Option Bytes :=
  output.slice? mark.start mark.length

def Draft.append? (draft : Draft) (last : Option Mark) (output : Bytes) :
    Option (Bytes × Mark) := do
  let key := draft.key.bytes
  let start := output ++ Bytes.ofNat 4 key.length ++ Bytes.ofNat 4 draft.valueLength ++ key
  let value ← draft.value <|> last.bind (·.value? start)
  return (start ++ value ++ Record.encodeTags draft.tags ++ draft.stamp.getD [],
    ⟨draft.key, draft.keyLength, start.length, draft.valueLength⟩)

def appendRecords (format : RecordFormat) :
    (fuel : Nat) → (last : Option Mark) → (output : Bytes) → Input → Option (Decoded Bytes)
  | 0, _, output, _ => some (.ok output)
  | fuel + 1, last, output, input =>
    match input.rest with
    | [] => some (.ok output)
    | flags :: _ =>
      match readDraft format last (Flags.ofByte flags) (input.skip 1) with
      | .ok (draft, input) => do
        let (output, mark) ← draft.append? last output
        appendRecords format fuel (some mark) output input
      | .error e => some (.error e)

def decodeInPlace (format : RecordFormat) (bytes : Bytes) : Option (Decoded Bytes) :=
  appendRecords format bytes.length none [] (.ofBytes bytes)

end CellStore.Delta
