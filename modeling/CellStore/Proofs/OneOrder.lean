import CellStore.Proofs.SeekTargets

open Std (TransCmp OrientedCmp ReflCmp LawfulEqOrd)

namespace CellStore

namespace KeyParts

theorem compareDescending_eq_eq {α : Type} [Ord α] [LawfulEqOrd α] {a b : Option α} :
    compareDescending a b = .eq ↔ a = b := by
  cases a <;> cases b
  case some.some a b =>
    rw [compareDescending, Std.compare_eq_iff_eq, Option.some_inj, eq_comm]
  all_goals simp [compareDescending]

theorem eq_of_order_eq {a b : KeyParts} (same : a.order b = .eq) : a = b := by
  simp only [order_eq, compareLex_eq_eq, compareOn, Std.compare_eq_iff_eq,
    compareDescending_eq_eq] at same
  obtain ⟨row, -, ⟨family, qualifier⟩, timestamp, kind⟩ := same
  cases a
  cases b
  simp_all

end KeyParts

theorem CellKind.code_of_ofCode {code : UInt8} {kind : CellKind} (known : ofCode code = .ok kind) :
    kind.code = code := by
  unfold ofCode at known
  split at known <;> cases known <;> rfl

namespace Key

structure Holds (row family : Bytes) : Prop where
  row : row.length ≤ 65535
  family : family.length ≤ 255

theorem encode_eq_of_order_eq {row family qualifier row' family' qualifier' : Bytes}
    {timestamp timestamp' : UInt64} {kind kind' : UInt8} (holds : Holds row family)
    (holds' : Holds row' family')
    (same : Key.order (encode row family qualifier timestamp kind)
      (encode row' family' qualifier' timestamp' kind') = .eq) :
    encode row family qualifier timestamp kind =
      encode row' family' qualifier' timestamp' kind' := by
  have parts := KeyParts.eq_of_order_eq same
  rw [split_encode holds.row holds.family, split_encode holds'.row holds'.family] at parts
  injection parts with row family qualifier timestamp kind
  cases row
  cases family
  cases qualifier
  cases timestamp
  cases kind
  rfl

theorem splitColumn_of_drop (row family : Bytes) {key : Bytes} {used : Nat}
    (room : used + suffixLength ≤ key.length) :
    splitColumn row family (key.drop used) =
      ⟨row, some family, some ((key.drop used).take (key.length - suffixLength - used)),
        some (UInt64.ofNat (Bytes.toNat ((key.drop (key.length - suffixLength)).take 8))),
        some (key.getLastD 0)⟩ := by
  have long : ¬ (key.drop used).length < suffixLength := by
    rw [List.length_drop]
    omega
  have cut : (key.drop used).length - suffixLength = key.length - suffixLength - used := by
    rw [List.length_drop]
    omega
  have start : used + (key.length - suffixLength - used) = key.length - suffixLength := by omega
  have last : used + (key.length - suffixLength - used + 8) = key.length - 1 := by
    rw [suffixLength] at room ⊢
    omega
  have ends : key[key.length - 1]? = some (key.getLastD 0) := by
    rw [← List.getLast?_eq_getElem?]
    cases key with
    | nil => simp [suffixLength] at room
    | cons b key => simp [List.getLast?_cons]
  simp only [splitColumn, long, if_false, cut, List.drop_drop, start, last, List.head?_drop, ends]

theorem split_of_drop {key rest : Bytes} {familyLength : UInt8}
    (behindRow : key.drop (2 + Bytes.toNat (key.take 2)) = familyLength :: rest)
    (room : 2 + Bytes.toNat (key.take 2) + 1 + familyLength.toNat + suffixLength ≤ key.length) :
    split key =
      ⟨(key.drop 2).take (Bytes.toNat (key.take 2)), some (rest.take familyLength.toNat),
        some ((rest.drop familyLength.toNat).take
          (key.length - suffixLength - (2 + Bytes.toNat (key.take 2) + 1 + familyLength.toNat))),
        some (UInt64.ofNat (Bytes.toNat ((key.drop (key.length - suffixLength)).take 8))),
        some (key.getLastD 0)⟩ := by
  obtain ⟨high, low, after, rfl⟩ : ∃ high low after, key = high :: low :: after := by
    match key, room with
    | [], room | [_], room => simp [suffixLength] at room
    | high :: low :: after, _ => exact ⟨high, low, after, rfl⟩
  have rowLength : Bytes.toNat [high, low] = Bytes.toNat ((high :: low :: after).take 2) := rfl
  generalize Bytes.toNat ((high :: low :: after).take 2) = n at *
  have afterRow : after.drop n = familyLength :: rest := by
    rw [← behindRow, Nat.add_comm]
    rfl
  have behindFamily : rest.drop familyLength.toNat =
      (high :: low :: after).drop (2 + n + 1 + familyLength.toNat) := by
    rw [Nat.add_assoc, ← List.drop_drop, behindRow, Nat.add_comm, List.drop_succ_cons]
  -- The rest is not empty, so that it is split on.
  have filled : rest.drop familyLength.toNat ≠ [] := by
    intro empty
    have := congrArg List.length behindFamily
    rw [empty, List.length_drop, List.length_nil] at this
    rw [suffixLength] at room
    omega
  have column := splitColumn_of_drop (after.take n) (rest.take familyLength.toNat) room
  rw [← behindFamily] at column
  simp only [split, rowLength, afterRow]
  exact column

end Key

namespace StoredCell

variable {key : Bytes} {column : Column}

theorem split_of_column (read : StoredCell.column key = .ok column) :
    Key.split key = ⟨column.row, some column.family, some column.qualifier, some column.timestamp,
      some column.kind.code⟩ := by
  rw [StoredCell.column] at read
  split at read
  · cases read
  · dsimp only at read
    split at read
    · cases read
    · rename_i behindRow
      split at read
      · cases read
      · rename_i room
        obtain ⟨kind, known, read⟩ := exists_of_bind read
        obtain rfl := Except.ok.inj read
        rw [Key.split_of_drop behindRow (Nat.not_lt.1 room), CellKind.code_of_ofCode known]

theorem split_of_parse {format : RecordFormat} {input after : Input} {stored : StoredCell}
    (read : parse format input = .ok (stored, after)) : Key.split stored.key = stored.cell.parts :=
  split_of_column (exists_of_parse read).1.column

end StoredCell

namespace Key

/-- Keys have one order: a total preorder on all byte strings, under which full keys are equal only
to themselves. Records are in the order of their keys, and so are mutations. -/
theorem order_agrees :
    (∀ a, Key.order a a = .eq)
    ∧ (∀ a b, Key.order b a = (Key.order a b).swap)
    ∧ (∀ a b c, (Key.order a b).isLE → (Key.order b c).isLE → (Key.order a c).isLE)
    ∧ (∀ row family qualifier row' family' qualifier' timestamp timestamp' kind kind',
      Holds row family → Holds row' family' →
        Key.order (encode row family qualifier timestamp kind)
            (encode row' family' qualifier' timestamp' kind') = .eq →
          encode row family qualifier timestamp kind =
            encode row' family' qualifier' timestamp' kind')
    ∧ (∀ format format' input input' after after' stored other,
      StoredCell.parse format input = .ok (stored, after) →
        StoredCell.parse format' input' = .ok (other, after') →
          Key.order stored.key other.key = stored.cell.order other.cell)
    ∧ ∀ m other : Mutation, Holds m.row m.family → Holds other.row other.family →
      m.order other = Key.order m.key other.key := by
  refine ⟨fun a => ReflCmp.compare_self, fun a b => OrientedCmp.eq_swap,
    fun a b c => TransCmp.isLE_trans, ?_, ?_, ?_⟩
  · intro row family qualifier row' family' qualifier' timestamp timestamp' kind kind' holds holds'
    exact encode_eq_of_order_eq holds holds'
  · intro format format' input input' after after' stored other read read'
    rw [Key.order, StoredCell.split_of_parse read, StoredCell.split_of_parse read',
      Cell.order_parts]
  · intro m other holds holds'
    have fits : m.Fits ⟨false, false⟩ := ⟨holds.row, holds.family, by simp, by simp⟩
    have fits' : other.Fits ⟨false, false⟩ := ⟨holds'.row, holds'.family, by simp, by simp⟩
    exact (Mutation.order_key fits fits').symm

def rowValue : Mutation := ⟨[97], [102], [113], 5, .put, [1], [], 0⟩

def rowMark : Mutation := ⟨[97], [102], [], 7, .deleteFamily, [], [], 0⟩

theorem order_agrees_rowAndTombstone :
    Holds [97] [] ∧ Holds rowValue.row rowValue.family ∧ Holds rowMark.row rowMark.family
      ∧ Key.order (encode [97] [] [] 0 kindAfter) (encode [97] [] [] 0 kindAfter) = .eq
      ∧ encode [97] [] [] 0 kindAfter = encode [97] [] [] 0 kindAfter
      ∧ StoredCell.parse ⟨false, false⟩ (.ofBytes (rowValue.record ⟨false, false⟩).encode) =
        .ok (rowValue.stored ⟨false, false⟩, ⟨24, 24, []⟩)
      ∧ StoredCell.parse ⟨false, false⟩ (.ofBytes (rowMark.record ⟨false, false⟩).encode) =
        .ok (rowMark.stored ⟨false, false⟩, ⟨22, 22, []⟩)
      ∧ Key.order (rowValue.stored ⟨false, false⟩).key (rowMark.stored ⟨false, false⟩).key =
        (rowValue.stored ⟨false, false⟩).cell.order (rowMark.stored ⟨false, false⟩).cell
      ∧ rowValue.order rowMark = Key.order rowValue.key rowMark.key := by
  obtain ⟨reflexive, -, -, encoded, records, mutations⟩ := order_agrees
  have row : Holds [97] [] := ⟨by decide, by decide⟩
  have holds : Holds rowValue.row rowValue.family := ⟨by decide, by decide⟩
  have holds' : Holds rowMark.row rowMark.family := ⟨by decide, by decide⟩
  have read : StoredCell.parse ⟨false, false⟩ (.ofBytes (rowValue.record ⟨false, false⟩).encode) =
      .ok (rowValue.stored ⟨false, false⟩, ⟨24, 24, []⟩) := by rfl
  have read' : StoredCell.parse ⟨false, false⟩ (.ofBytes (rowMark.record ⟨false, false⟩).encode) =
      .ok (rowMark.stored ⟨false, false⟩, ⟨22, 22, []⟩) := by rfl
  have same := reflexive (encode [97] [] [] 0 kindAfter)
  exact ⟨row, holds, holds', same, encoded _ _ _ _ _ _ _ _ _ _ row row same, read, read',
    records _ _ _ _ _ _ _ _ read read', mutations rowValue rowMark holds holds'⟩

end Key

end CellStore
