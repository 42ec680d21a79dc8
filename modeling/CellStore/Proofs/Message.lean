import CellStore.Message.TrailerFields
import CellStore.Proofs.Integer
import CellStore.Proofs.Utf8
import Mathlib.Tactic.Common

namespace CellStore

namespace Wire

/-- `sum` is the value of the groups read before. The groups still allowed have to hold the rest
of the number. -/
theorem numberFrom_writeGroups {left groups n : Nat} (sum : Nat)
    (allowed : groups + (left + 1) = 10)
    (fits : n < 128 ^ (left + 1)) (small : sum + n * 128 ^ groups < 0x1_0000_0000_0000_0000)
    (rest : Bytes) :
    numberFrom sum groups (Septets.writeGroups (left + 1) n ++ rest) =
      some (sum + n * 128 ^ groups, rest) := by
  induction left generalizing n sum groups with
  | zero =>
    have last : groups = 9 := by omega
    have byte : n % 256 = n := by omega
    have group : n % 128 = n := by omega
    have inside : ¬ 0x1_0000_0000_0000_0000 ≤ sum + n * 128 ^ 9 := by subst last; omega
    subst last
    rw [Septets.writeGroups]
    simp only [Nat.zero_add, Nat.pow_one] at fits
    simp [numberFrom, byte, group, fits]
    omega
  | succ left ih =>
    have notLast : groups ≠ 10 := by omega
    rw [Septets.writeGroups]
    by_cases last : n < 128
    · have byte : n % 256 = n := by omega
      have group : n % 128 = n := by omega
      have inside : ¬ 0x1_0000_0000_0000_0000 ≤ sum + n * 128 ^ groups := by omega
      rw [if_pos last, List.cons_append, numberFrom]
      · simp [byte, group, last]
        omega
      · exact notLast
    · have byte : (n % 128 + 128) % 256 = n % 128 + 128 := by omega
      have continues : ¬ n % 128 + 128 < 128 := by omega
      have split : sum + n % 128 * 128 ^ groups + n / 128 * 128 ^ (groups + 1) =
          sum + n * 128 ^ groups := by
        rw [Nat.pow_succ, Nat.add_assoc, Septets.add_groups]
      have allowed' : groups + 1 + (left + 1) = 10 := by omega
      have fits' : n / 128 < 128 ^ (left + 1) := by omega
      have later := ih (sum + n % 128 * 128 ^ groups) allowed' fits' (by omega)
      rw [if_neg last, List.cons_append, numberFrom]
      · simp [byte, continues, later, split]
      · exact notLast

theorem readNumber_writeNumber {n : Nat} (fits : n < 0x1_0000_0000_0000_0000) (rest : Bytes) :
    readNumber (writeNumber n ++ rest) = some (n, rest) := by
  have allowed : 0 + (9 + 1) = 10 := rfl
  have fits' : n < 128 ^ (9 + 1) := by omega
  have whole := numberFrom_writeGroups 0 allowed fits' (by omega) rest
  simpa [readNumber, writeNumber] using whole

theorem takeBytes_append (bytes rest : Bytes) :
    takeBytes bytes.length (bytes ++ rest) = some (bytes, rest) := by
  simp [takeBytes]

theorem delimited?_writeDelimited {message : Bytes}
    (fits : message.length < 0x1_0000_0000_0000_0000) (rest : Bytes) :
    delimited? (writeDelimited message ++ rest) = some message := by
  simp [delimited?, writeDelimited, readNumber_writeNumber fits, takeBytes_append]

theorem readElement_writeNumberField {tag n : Nat} (tagged : 0 < tag)
    (tagFits : tag * 8 < 0x1_0000_0000) (fits : n < 0x1_0000_0000_0000_0000) (rest : Bytes) :
    readElement (writeNumberField tag n ++ rest) = some (.field ⟨tag, .number n⟩, rest) := by
  have key := readNumber_writeNumber (n := tag * 8) (by omega) (writeNumber n ++ rest)
  have good : ¬ (0x1_0000_0000 ≤ tag * 8 ∨ tag = 0) := by omega
  have same : tag * 8 / 8 = tag := by omega
  have kind : tag * 8 % 8 = 0 := by omega
  simp only [readElement, writeNumberField, List.append_assoc, key, Option.bind_eq_bind,
    Option.bind_some, same, kind, good, if_false, readNumber_writeNumber fits]

theorem readElement_writeBytesField {tag : Nat} {bytes : Bytes} (tagged : 0 < tag)
    (tagFits : tag * 8 + 2 < 0x1_0000_0000) (fits : bytes.length < 0x1_0000_0000_0000_0000)
    (rest : Bytes) :
    readElement (writeBytesField tag bytes ++ rest) = some (.field ⟨tag, .bytes bytes⟩, rest) := by
  have key := readNumber_writeNumber (n := tag * 8 + 2) (by omega)
    (writeNumber bytes.length ++ (bytes ++ rest))
  have good : ¬ (0x1_0000_0000 ≤ tag * 8 + 2 ∨ tag = 0) := by omega
  have same : (tag * 8 + 2) / 8 = tag := by omega
  have kind : (tag * 8 + 2) % 8 = 2 := by omega
  simp only [readElement, writeBytesField, List.append_assoc, key, Option.bind_eq_bind,
    Option.bind_some, same, kind, good, if_false, readNumber_writeNumber fits, takeBytes_append]

theorem writeNumber_ne_nil (n : Nat) : writeNumber n ≠ [] := by
  rw [writeNumber, Septets.writeGroups]
  split <;> simp

inductive Spells : Bytes → List Field → Prop
  | nil : Spells [] []
  | cons {piece bytes : Bytes} {field : Field} {fields : List Field} (nonempty : piece ≠ [])
      (reads : ∀ rest, readElement (piece ++ rest) = some (.field field, rest))
      (later : Spells bytes fields) : Spells (piece ++ bytes) (field :: fields)

namespace Spells

variable {bytes more : Bytes} {fields others : List Field}

theorem append (spells : Spells bytes fields) (also : Spells more others) :
    Spells (bytes ++ more) (fields ++ others) := by
  induction spells with
  | nil => exact also
  | cons nonempty reads _ ih =>
    rw [List.append_assoc]
    exact .cons nonempty reads ih

theorem number {tag n : Nat} (tagged : 0 < tag) (tagFits : tag * 8 < 0x1_0000_0000)
    (fits : n < 0x1_0000_0000_0000_0000) : Spells (writeNumberField tag n) [⟨tag, .number n⟩] := by
  have nonempty : writeNumberField tag n ≠ [] := by simp [writeNumberField, writeNumber_ne_nil]
  have one := Spells.cons nonempty (readElement_writeNumberField tagged tagFits fits) .nil
  rwa [List.append_nil] at one

theorem byteString {tag : Nat} {content : Bytes} (tagged : 0 < tag)
    (tagFits : tag * 8 + 2 < 0x1_0000_0000) (fits : content.length < 0x1_0000_0000_0000_0000) :
    Spells (writeBytesField tag content) [⟨tag, .bytes content⟩] := by
  have nonempty : writeBytesField tag content ≠ [] := by
    simp [writeBytesField, writeNumber_ne_nil]
  have one := Spells.cons nonempty (readElement_writeBytesField tagged tagFits fits) .nil
  rwa [List.append_nil] at one

theorem readFields_eq (spells : Spells bytes fields) {depth fuel : Nat} (pos : 0 < depth)
    (enough : bytes.length ≤ fuel) (found : List Field) :
    readFields depth fuel [] found bytes = some (found.reverse ++ fields) := by
  induction spells generalizing fuel found with
  | nil => cases fuel <;> simp [readFields]
  | @cons piece bytes field fields nonempty reads _ ih =>
    obtain ⟨b, piece, rfl⟩ := List.exists_cons_of_ne_nil nonempty
    cases fuel with
    | zero => simp at enough
    | succ fuel =>
      have deep : ¬ depth ≤ 0 := by omega
      have enough' : bytes.length ≤ fuel := by
        simp at enough
        omega
      have later := ih enough' (field :: found)
      have first := reads bytes
      rw [List.cons_append] at first ⊢
      simp [readFields, first, deep, later]

theorem fields?_eq (spells : Spells bytes fields) {depth : Nat} (pos : 0 < depth) :
    fields? depth bytes = some fields :=
  spells.readFields_eq pos (Nat.le_refl _) []

end Spells

def numberField? (tag : Nat) (n : Option Nat) : List Field :=
  n.elim [] fun n => [⟨tag, .number n⟩]

def bytesField? (tag : Nat) (content : Option Bytes) : List Field :=
  content.elim [] fun content => [⟨tag, .bytes content⟩]

theorem spells_numberField? {tag : Nat} {n : Option Nat} (tagged : 0 < tag)
    (tagFits : tag * 8 < 0x1_0000_0000) (fits : ∀ v ∈ n, v < 0x1_0000_0000_0000_0000) :
    Spells (n.elim [] (writeNumberField tag)) (numberField? tag n) := by
  cases n with
  | none => exact .nil
  | some n => exact .number tagged tagFits (fits n rfl)

def lastNumberFrom? (last : Option Nat) (fields : List Field) (tag : Nat) : Option (Option Nat) :=
  fields.foldlM (fun last field =>
    if field.tag ≠ tag then some last
    else match field.value with
      | .number n => some (some n)
      | _ => none) last

theorem lastNumber?_eq (fields : List Field) (tag : Nat) :
    lastNumber? fields tag = lastNumberFrom? none fields tag := rfl

theorem lastNumberFrom?_append (last : Option Nat) (fields others : List Field) (tag : Nat) :
    lastNumberFrom? last (fields ++ others) tag =
      (lastNumberFrom? last fields tag).bind fun last => lastNumberFrom? last others tag :=
  List.foldlM_append

theorem lastNumberFrom?_numberField? (last : Option Nat) (tag other : Nat) (n : Option Nat) :
    lastNumberFrom? last (numberField? other n) tag =
      some (if other = tag then n.or last else last) := by
  by_cases same : other = tag <;> cases n <;> simp [lastNumberFrom?, numberField?, same]

theorem lastNumberFrom?_bytesField? (last : Option Nat) {tag other : Nat} (differs : other ≠ tag)
    (content : Option Bytes) :
    lastNumberFrom? last (bytesField? other content) tag = some last := by
  cases content <;> simp [lastNumberFrom?, bytesField?, differs]

theorem byteStrings?_append (fields others : List Field) (tag : Nat) :
    byteStrings? (fields ++ others) tag =
      (byteStrings? fields tag).bind fun found =>
        (byteStrings? others tag).bind fun more => some (found ++ more) := by
  simp [byteStrings?, List.mapM_append]

theorem byteStrings?_numberField? {tag other : Nat} (differs : other ≠ tag) (n : Option Nat) :
    byteStrings? (numberField? other n) tag = some [] := by
  cases n <;> simp [byteStrings?, numberField?, differs]

theorem byteStrings?_bytesField? (tag other : Nat) (content : Option Bytes) :
    byteStrings? (bytesField? other content) tag =
      some (if other = tag then content.toList else []) := by
  by_cases same : other = tag <;> cases content <;> simp [byteStrings?, bytesField?, same]

end Wire

namespace TrailerFields

def numbers (m : TrailerFields) : List (Option Nat) :=
  [m.fileInfoOffset, m.loadOnOpenOffset, m.uncompressedIndexSize, m.totalUncompressedBytes,
    m.dataIndexCount, m.metaIndexCount, m.entryCount, m.indexLevels, m.firstDataOffset,
    m.lastDataOffset, m.codecId]

structure Fits (m : TrailerFields) : Prop where
  numbers : ∀ n ∈ m.numbers, ∀ v ∈ n, v < 0x1_0000_0000_0000_0000
  comparator : ∀ text ∈ m.comparator, (Utf8.encode text).length < 0x1_0000_0000_0000_0000

def fields (m : TrailerFields) : List Wire.Field :=
  Wire.numberField? 1 m.fileInfoOffset ++ Wire.numberField? 2 m.loadOnOpenOffset
    ++ Wire.numberField? 3 m.uncompressedIndexSize ++ Wire.numberField? 4 m.totalUncompressedBytes
    ++ Wire.numberField? 5 m.dataIndexCount ++ Wire.numberField? 6 m.metaIndexCount
    ++ Wire.numberField? 7 m.entryCount ++ Wire.numberField? 8 m.indexLevels
    ++ Wire.numberField? 9 m.firstDataOffset ++ Wire.numberField? 10 m.lastDataOffset
    ++ Wire.bytesField? 11 (m.comparator.map Utf8.encode) ++ Wire.numberField? 12 m.codecId

theorem spells_encode {m : TrailerFields} (fits : m.Fits) : Wire.Spells m.encode m.fields := by
  have text : Wire.Spells
      (m.comparator.elim [] fun text => Wire.writeBytesField 11 (Utf8.encode text))
      (Wire.bytesField? 11 (m.comparator.map Utf8.encode)) := by
    cases given : m.comparator with
    | none => exact .nil
    | some text => exact .byteString (by decide) (by decide) (fits.comparator text given)
  have number {tag : Nat} {n : Option Nat} (member : n ∈ m.numbers) (tagged : 0 < tag)
      (small : tag * 8 < 0x1_0000_0000) :
      Wire.Spells (n.elim [] (Wire.writeNumberField tag)) (Wire.numberField? tag n) :=
    Wire.spells_numberField? tagged small (fits.numbers n member)
  simp only [encode, fields]
  repeat' apply Wire.Spells.append
  all_goals first
    | exact text
    | exact number (by simp [numbers]) (by decide) (by decide)

/-- Numbers of 32 bits keep the lowest bits of what was written. -/
def wrap (m : TrailerFields) : TrailerFields :=
  { m with
    dataIndexCount := m.dataIndexCount.map (· % 0x1_0000_0000)
    metaIndexCount := m.metaIndexCount.map (· % 0x1_0000_0000)
    indexLevels := m.indexLevels.map (· % 0x1_0000_0000)
    codecId := m.codecId.map (· % 0x1_0000_0000) }

theorem mapM_decode?_encode (text : Option String) :
    (text.map Utf8.encode).toList.mapM Utf8.decode? = some text.toList := by
  cases text <;> simp

def number (m : TrailerFields) : (tag : Nat) → Option Nat
  | 1 => m.fileInfoOffset
  | 2 => m.loadOnOpenOffset
  | 3 => m.uncompressedIndexSize
  | 4 => m.totalUncompressedBytes
  | 5 => m.dataIndexCount
  | 6 => m.metaIndexCount
  | 7 => m.entryCount
  | 8 => m.indexLevels
  | 9 => m.firstDataOffset
  | 10 => m.lastDataOffset
  | 12 => m.codecId
  | _ => none

theorem lastNumber?_fields (m : TrailerFields) {tag : Nat}
    (member : tag ∈ [1, 2, 3, 4, 5, 6, 7, 8, 9, 10, 12]) :
    Wire.lastNumber? m.fields tag = some (m.number tag) := by
  simp only [List.mem_cons, List.not_mem_nil, or_false] at member
  rcases member with rfl | rfl | rfl | rfl | rfl | rfl | rfl | rfl | rfl | rfl | rfl <;>
    simp only [fields, number, Wire.lastNumber?_eq, Wire.lastNumberFrom?_append,
      Wire.lastNumberFrom?_numberField?, ↓reduceIte, Option.or_none, Nat.reduceEqDiff,
      Nat.succ_ne_self, ne_eq, not_false_eq_true, Wire.lastNumberFrom?_bytesField?,
      Option.bind_some]

theorem decode?_encode {m : TrailerFields} (fits : m.Fits) : decode? m.encode = some m.wrap := by
  have read := (spells_encode fits).fields?_eq (show 0 < 99 by decide)
  have texts : Wire.byteStrings? m.fields 11 = some (m.comparator.map Utf8.encode).toList := by
    simp [fields, Wire.byteStrings?_append, Wire.byteStrings?_numberField?,
      Wire.byteStrings?_bytesField?]
  have cipher : Wire.byteStrings? m.fields 13 = some [] := by
    simp [fields, Wire.byteStrings?_append, Wire.byteStrings?_numberField?,
      Wire.byteStrings?_bytesField?]
  have last (text : Option String) : text.toList.getLast? = text := by cases text <;> rfl
  -- One step at a time, as the steps to come do not look alike before their values are known.
  have step {α β : Type} (a : α) (f : α → Option β) : (some a >>= f) = f a := rfl
  rw [decode?, read, step, texts]
  dsimp only
  rw [step, mapM_decode?_encode, step, cipher, step, last]
  simp only [lastNumber?_fields, List.mem_cons, Nat.reduceEqDiff, true_or, or_true]
  rfl

end TrailerFields

end CellStore
