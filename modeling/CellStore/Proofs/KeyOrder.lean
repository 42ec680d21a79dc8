import CellStore.Proofs.Record

/-! The order of keys is one order on all byte strings. On the keys of mutations it is the order of
the mutations, and the start of a key lies before all keys that go on from it. -/

open Std (TransCmp OrientedCmp ReflCmp TransOrd OrientedOrd)

namespace CellStore

theorem transCmp_on {α β : Type} (order : β → β → Ordering) [TransCmp order] (f : α → β) :
    TransCmp fun a b => order (f a) (f b) where
  eq_swap := OrientedCmp.eq_swap
  isLE_trans := TransCmp.isLE_trans

namespace KeyParts

instance {α : Type} [Ord α] [TransOrd α] : TransCmp (compareDescending (α := α)) where
  eq_swap {a b} := by
    cases a <;> cases b
    case some.some a b => exact OrientedOrd.eq_swap
    all_goals rfl
  isLE_trans {a b c} below above := by
    cases a <;> cases b <;> cases c
    case some.some.some a b c => exact TransOrd.isLE_trans above below
    all_goals first | rfl | cases below | cases above

theorem order_eq : KeyParts.order =
    compareLex (compareOn row) (compareLex (compareOn isRowEnd)
      (compareLex (compareLex (compareOn family) (compareOn qualifier))
        (compareLex (fun a b => compareDescending a.timestamp b.timestamp)
          fun a b => compareDescending a.kind b.kind))) := by
  funext a b
  simp only [order, compareLex, compareOn]
  cases a.isRowEnd <;> cases b.isRowEnd <;> rfl

instance : TransCmp KeyParts.order := by
  have := transCmp_on compareDescending timestamp
  have := transCmp_on compareDescending kind
  rw [order_eq]
  infer_instance

end KeyParts

namespace Key

instance : TransCmp Key.order := transCmp_on KeyParts.order Key.split

theorem split_eq {row : Bytes} (length : row.length ≤ 65535) (rest : Bytes) :
    split (Bytes.ofNat 2 row.length ++ (row ++ rest)) =
      match rest with
      | [] => ⟨row, none, none, none, none⟩
      | familyLength :: rest =>
        match rest.drop familyLength.toNat with
        | [] => ⟨row, some (rest.take familyLength.toNat), none, none, none⟩
        | column => splitColumn row (rest.take familyLength.toNat) column := by
  have number : Bytes.toNat (Bytes.ofNat 2 row.length) = row.length := by
    rw [Bytes.toNat_ofNat]
    omega
  have digits : ∃ high low, Bytes.ofNat 2 row.length = [high, low] := ⟨_, _, rfl⟩
  obtain ⟨high, low, digits⟩ := digits
  rw [digits] at number ⊢
  simp only [List.cons_append, List.nil_append, split, number, List.take_left, List.drop_left]
  rfl

theorem split_ofRow {row : Bytes} (length : row.length ≤ 65535) :
    split (ofRow row) = ⟨row, none, none, none, none⟩ := by
  have cut : row.take 65535 = row := List.take_of_length_le length
  have parts := split_eq length []
  rw [List.append_nil] at parts
  simp only [ofRow, cut, parts]

theorem encode_eq {row family : Bytes} (rowLength : row.length ≤ 65535)
    (familyLength : family.length ≤ 255) (qualifier : Bytes) (timestamp : UInt64) (kind : UInt8) :
    encode row family qualifier timestamp kind =
      Bytes.ofNat 2 row.length ++ (row ++ (UInt8.ofNat family.length ::
        (family ++ (qualifier ++ (Bytes.ofNat 8 timestamp.toNat ++ [kind]))))) := by
  simp only [encode, ofFamily, ofRow, List.take_of_length_le rowLength,
    List.take_of_length_le familyLength, List.append_assoc, List.cons_append]

theorem splitColumn_eq (row family qualifier : Bytes) (timestamp : UInt64) (kind : UInt8) :
    splitColumn row family (qualifier ++ (Bytes.ofNat 8 timestamp.toNat ++ [kind])) =
      ⟨row, some family, some qualifier, some timestamp, some kind⟩ := by
  have length : (qualifier ++ (Bytes.ofNat 8 timestamp.toNat ++ [kind])).length =
      qualifier.length + suffixLength := by
    simp [suffixLength]
  have long : ¬ qualifier.length + suffixLength < suffixLength := by omega
  have last : (qualifier ++ (Bytes.ofNat 8 timestamp.toNat ++ [kind])).drop
      (qualifier.length + 8) = [kind] := by
    rw [← List.append_assoc, List.drop_left' (by simp)]
  simp only [splitColumn, length, long, if_false, Nat.add_sub_cancel, last, List.take_left,
    List.drop_left, List.take_left' (Bytes.length_ofNat 8 timestamp.toNat), Bytes.toNat_ofNat,
    Nat.mod_eq_of_lt timestamp.toNat_lt, UInt64.ofNat_toNat, List.head?_cons]

theorem split_encode {row family : Bytes} (rowLength : row.length ≤ 65535)
    (familyLength : family.length ≤ 255) (qualifier : Bytes) (timestamp : UInt64) (kind : UInt8) :
    split (encode row family qualifier timestamp kind) =
      ⟨row, some family, some qualifier, some timestamp, some kind⟩ := by
  have number : (UInt8.ofNat family.length).toNat = family.length := by
    simp
    omega
  rw [encode_eq rowLength familyLength, split_eq rowLength]
  simp only [number, List.drop_left, List.take_left]
  split
  · rename_i empty
    have := congrArg List.length empty
    simp at this
  · exact splitColumn_eq row family qualifier timestamp kind

end Key

namespace Cell

def parts (cell : Cell) : KeyParts :=
  ⟨cell.row, some cell.family, some cell.qualifier, some cell.timestamp, some cell.kind.code⟩

theorem isRowEnd_parts (cell : Cell) : cell.parts.isRowEnd = false := by
  cases kind : cell.kind <;> simp [parts, KeyParts.isRowEnd, kind, CellKind.code, Key.kindAfter]

theorem order_parts (a b : Cell) : a.parts.order b.parts = a.order b := by
  rw [KeyParts.order, isRowEnd_parts, isRowEnd_parts]
  change (compare a.row b.row).then (((compare a.family b.family).then
    (compare a.qualifier b.qualifier)).then ((compare b.timestamp a.timestamp).then
      (compare b.kind.code a.kind.code))) = _
  rw [Ordering.then_assoc]
  rfl

instance : TransCmp Cell.order := by
  have := transCmp_on KeyParts.order parts
  simp only [order_parts] at this
  exact this

end Cell

namespace Mutation

variable {format : RecordFormat} {m other : Mutation}

def parts (m : Mutation) : KeyParts :=
  ⟨m.row, some m.family, some m.qualifier, some m.timestamp, some m.kind.code⟩

theorem key_eq_encode (fits : m.Fits format) :
    m.key = Key.encode m.row m.family m.qualifier m.timestamp m.kind.code := by
  rw [key_eq, Key.encode_eq fits.row fits.family]

theorem split_key (fits : m.Fits format) : Key.split m.key = m.parts := by
  rw [key_eq_encode fits, Key.split_encode fits.row fits.family]
  rfl

theorem isRowEnd_parts (m : Mutation) : m.parts.isRowEnd = false :=
  Cell.isRowEnd_parts (m.cell ⟨false, false⟩)

theorem order_parts (a b : Mutation) : a.parts.order b.parts = a.order b :=
  Cell.order_parts (a.cell ⟨false, false⟩) (b.cell ⟨false, false⟩)

theorem order_key (fits : m.Fits format) (fits' : other.Fits format) :
    Key.order m.key other.key = m.order other := by
  rw [Key.order, split_key fits, split_key fits', order_parts]

theorem order_ofRow (fits : m.Fits format) {row : Bytes} (length : row.length ≤ 65535) :
    Key.order m.key (Key.ofRow row) = (compare m.row row).then .gt := by
  rw [Key.order, split_key fits, Key.split_ofRow length, KeyParts.order, isRowEnd_parts]
  rfl

theorem order_eq : Mutation.order =
    compareLex (compareOn row) (compareLex (compareOn family) (compareLex (compareOn qualifier)
      (compareLex (fun a b => compareOn timestamp b a) fun a b => compareOn (·.kind.code) b a))) :=
  rfl

instance : TransCmp Mutation.order := by
  rw [order_eq]
  infer_instance

theorem code_injective {kind kind' : CellKind} (same : kind.code = kind'.code) : kind = kind' := by
  cases kind <;> cases kind' <;> first | rfl | cases same

theorem order_eq_eq_iff : m.order other = .eq ↔ m.row = other.row ∧ m.family = other.family
    ∧ m.qualifier = other.qualifier ∧ m.timestamp = other.timestamp ∧ m.kind = other.kind := by
  have kinds : other.kind.code = m.kind.code ↔ m.kind = other.kind :=
    ⟨fun same => (code_injective same).symm, fun same => congrArg _ same.symm⟩
  have timestamps : other.timestamp = m.timestamp ↔ m.timestamp = other.timestamp := eq_comm
  simp only [order_eq, compareLex_eq_eq, compareOn, Std.compare_eq_iff_eq, kinds, timestamps]

theorem key_eq_of_order_eq (same : m.order other = .eq) : m.key = other.key := by
  obtain ⟨row, family, qualifier, timestamp, kind⟩ := order_eq_eq_iff.1 same
  rw [key, key, row, family, qualifier, timestamp, kind]

end Mutation

end CellStore
