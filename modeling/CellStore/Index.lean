import CellStore.Error
import CellStore.Integer.VarLong

/-! Block indexes. Root blocks hold entries `offset(8) size(4) keyLength key` one after another. All
others hold `count(4) (entryStart(4))*`, with one start more than entries, and then entries
`offset(8) size(4) key`. -/

namespace CellStore

structure IndexEntry where
  offset : Nat
  /-- On disk, with the header. -/
  size : Nat
  /-- The first key of the block, or a key before it. -/
  key : Bytes
  deriving DecidableEq

structure MidKey where
  leafOffset : Nat
  leafSize : Nat
  entry : Nat
  deriving DecidableEq

structure RootIndex where
  entries : List IndexEntry
  /-- 1 when the entries are those of data blocks. -/
  levels : Nat
  midKey : Option MidKey

namespace Index

def blame : Decoded α → Decoded α
  | .error (.badIndex flaw) => .error (.badIndex flaw)
  | .error (.unreadableIndex cause) => .error (.unreadableIndex cause)
  | .error (.unreadableRootKey entry cause) => .error (.unreadableRootKey entry cause)
  | .error cause => .error (.unreadableIndex cause)
  | .ok a => .ok a

def readPlace (input : Input) : Decoded (Nat × Nat × Input) := do
  let start := input.rest.take 8
  let (offset, input) ← input.number "index entry" 8
  let (size, input) ← input.number "index entry" 4
  if 0x8000_0000_0000_0000 ≤ offset then
    throw (.badIndex (.negativeOffset (Bytes.toInt start)))
  return (offset, size, input)

def readRootEntry (i : Nat) (input : Input) : Decoded (IndexEntry × Input) := do
  let (offset, size, input) ← blame (readPlace input)
  match VarLong.readBytes input with
  | .ok (key, input) => return (⟨offset, size, key⟩, input)
  | .error cause => throw (.unreadableRootKey i cause)

def readRootEntries : (count : Nat) → (found : List IndexEntry) → Input →
    Decoded (List IndexEntry × Input)
  | 0, found, input => .ok (found.reverse, input)
  | count + 1, found, input =>
    match readRootEntry found.length input with
    | .ok (entry, input) => readRootEntries count (entry :: found) input
    | .error e => .error e

def rootEntries (count : Nat) (data : Bytes) : Decoded (List IndexEntry × Input) :=
  readRootEntries count [] (Input.ofBytes data)

def readMidKey (input : Input) : Option MidKey :=
  match input.take "mid-key metadata" 16 with
  | .ok (bytes, _) =>
    some ⟨Bytes.toNat (bytes.take 8), Bytes.toNat ((bytes.drop 8).take 4),
      Bytes.toNat (bytes.drop 12)⟩
  | .error _ => none

def parseRoot (data : Bytes) (count levels : Nat) : Decoded RootIndex := do
  let (entries, rest) ← rootEntries count data
  return ⟨entries, levels, if 1 < levels then readMidKey rest else none⟩

def readEntry (data : Bytes) (blockLength i start stop : Nat) : Decoded IndexEntry := do
  if blockLength < stop ∨ stop < start + 12 then
    throw (.badIndex (.badSpan i start stop blockLength))
  let (offset, size, input) ← blame (readPlace (Input.startingAt data start))
  return ⟨offset, size, input.rest.take (stop - (start + 12))⟩

def readEntries (data : Bytes) (blockLength base : Nat) :
    (i : Nat) → (starts : List Nat) → (found : List IndexEntry) → Decoded (List IndexEntry)
  | i, start :: stop :: starts, found =>
    match readEntry data blockLength i (base + start) (base + stop) with
    | .ok entry => readEntries data blockLength base (i + 1) (stop :: starts) (entry :: found)
    | .error e => .error e
  | _, _, found => .ok found.reverse

def readStarts (count : Nat) (directory : Bytes) : List Nat :=
  (List.range count).map fun i => Bytes.toNat ((directory.drop (4 * i)).take 4)

def parse (data : Bytes) : Decoded (List IndexEntry) := do
  let (count, input) ← blame ((Input.ofBytes data).number "non-root index entry count" 4)
  let base := 4 * (count + 1) + 4
  if input.size < base then
    throw (.badIndex (.longDirectory count input.size))
  readEntries data input.size base 0 (readStarts (count + 1) input.rest) []

/-- A binary search for the last entry with `keeps`: `base` is kept or the first of all, and the
entries from `base + size` on are not kept. -/
def lastKept (keeps : IndexEntry → Bool) (entries : Array IndexEntry) :
    (fuel base size : Nat) → Nat
  | 0, base, _ => base
  | fuel + 1, base, size =>
    if size ≤ 1 then base
    else
      let half := size / 2
      let kept := (entries[base + half]?).any keeps
      lastKept keeps entries fuel (if kept then base + half else base) (size - half)

/-- The number of the last entry whose key is at most `key`, or none when all are greater. -/
def search (entries : List IndexEntry) (order : Bytes → Bytes → Ordering) (key : Bytes) :
    Option Nat :=
  let keeps (entry : IndexEntry) : Bool := order entry.key key ≠ .gt
  let array := entries.toArray
  let found := lastKept keeps array array.size 0 array.size
  if (array[found]?).any keeps then some found else none

end Index

end CellStore
