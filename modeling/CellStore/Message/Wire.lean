import CellStore.Integer.Septets

/-! Messages of tagged fields: `key value`, where the key is a number that holds the tag and the
type of the value. -/

namespace CellStore.Wire

/-- Reads groups of seven bits, the lowest first. The tenth group holds one bit, and there is no
eleventh. -/
def numberFrom (sum : Nat) : (groups : Nat) → Bytes → Option (Nat × Bytes)
  | 10, _ | _, [] => none
  | groups, b :: rest =>
    let sum := sum + b.toNat % 128 * 128 ^ groups
    if b.toNat < 128 then if 0x1_0000_0000_0000_0000 ≤ sum then none else some (sum, rest)
    else numberFrom sum (groups + 1) rest

def readNumber (bytes : Bytes) : Option (Nat × Bytes) := numberFrom 0 0 bytes

inductive Value
  | number (n : Nat)
  | bytes (bytes : Bytes)
  | other

structure Field where
  tag : Nat
  value : Value

def takeBytes (n : Nat) (bytes : Bytes) : Option (Bytes × Bytes) :=
  let taken := bytes.take n
  if taken.length = n then some (taken, bytes.drop n) else none

inductive Element
  | field (field : Field)
  | groupStart (tag : Nat)
  | groupEnd (tag : Nat)

/-- The element at the start of `bytes`. Tags are positive, and keys have 32 bits. -/
def readElement (bytes : Bytes) : Option (Element × Bytes) := do
  let (key, rest) ← readNumber bytes
  let tag := key / 8
  if 0x1_0000_0000 ≤ key ∨ tag = 0 then none
  match key % 8 with
  | 0 => do
    let (n, rest) ← readNumber rest
    some (.field ⟨tag, .number n⟩, rest)
  | 1 => do
    let (_, rest) ← takeBytes 8 rest
    some (.field ⟨tag, .other⟩, rest)
  | 2 => do
    let (length, rest) ← readNumber rest
    let (content, rest) ← takeBytes length rest
    some (.field ⟨tag, .bytes content⟩, rest)
  | 3 => some (.groupStart tag, rest)
  | 4 => some (.groupEnd tag, rest)
  | 5 => do
    let (_, rest) ← takeBytes 4 rest
    some (.field ⟨tag, .other⟩, rest)
  | _ => none

/-- Reads fields to the end, after those in `found`, the last one first. The fields of the groups
under way are left out; nothing may stand inside `depth` groups. -/
def readFields (depth : Nat) :
    (fuel : Nat) → (groups : List Nat) → (found : List Field) → Bytes → Option (List Field)
  | _, groups, found, [] => if groups.isEmpty then some found.reverse else none
  | 0, _, _, _ :: _ => none
  | fuel + 1, groups, found, bytes@(_ :: _) => do
    match ← readElement bytes, groups with
    | (.groupEnd tag, rest), group :: groups =>
      if tag = group then readFields depth fuel groups found rest else none
    | (.groupEnd _, _), [] => none
    | (element, rest), groups =>
      if depth ≤ groups.length then none
      let found := match groups, element with
        | [], .field field => field :: found
        | [], .groupStart tag => ⟨tag, .other⟩ :: found
        | _, _ => found
      let groups := match element with
        | .groupStart tag => tag :: groups
        | _ => groups
      readFields depth fuel groups found rest

def fields? (depth : Nat) (bytes : Bytes) : Option (List Field) :=
  readFields depth bytes.length [] [] bytes

def delimited? (bytes : Bytes) : Option Bytes := do
  let (length, rest) ← readNumber bytes
  let (content, _) ← takeBytes length rest
  some content

/-- The last number with this tag. Every value with this tag has to be a number. -/
def lastNumber? (fields : List Field) (tag : Nat) : Option (Option Nat) :=
  fields.foldlM (fun last field =>
    if field.tag ≠ tag then some last
    else match field.value with
      | .number n => some (some n)
      | _ => none) none

def byteStrings? (fields : List Field) (tag : Nat) : Option (List Bytes) :=
  (fields.filter (·.tag = tag)).mapM fun field =>
    match field.value with
    | .bytes bytes => some bytes
    | _ => none

def writeNumber (n : Nat) : Bytes := Septets.writeGroups 10 n

def writeNumberField (tag n : Nat) : Bytes := writeNumber (tag * 8) ++ writeNumber n

def writeBytesField (tag : Nat) (bytes : Bytes) : Bytes :=
  writeNumber (tag * 8 + 2) ++ writeNumber bytes.length ++ bytes

def writeDelimited (message : Bytes) : Bytes := writeNumber message.length ++ message

end CellStore.Wire
