import CellStore.Proofs.KeyOrder

namespace CellStore

theorem Bytes.compare_eq_lt_iff {a b : Bytes} : compare a b = .lt ↔ a < b := by
  induction a generalizing b with
  | nil => cases b <;> simp
  | cons x a ih =>
    cases b with
    | nil => simp
    | cons y b =>
      rw [List.compare_cons_cons, Ordering.then_eq_lt, ih, Std.compare_eq_lt,
        Std.compare_eq_iff_eq, List.cons_lt_cons_iff]

theorem Bytes.compare_ne_gt_iff {a b : Bytes} : compare a b ≠ .gt ↔ a ≤ b := by
  rw [← List.not_lt, ← compare_eq_lt_iff, Ne, Std.OrientedCmp.gt_iff_lt]

namespace Key

variable {row family row' family' : Bytes}

theorem isRowEnd_of_kind {kind : UInt8} (other : kind ≠ kindAfter) (row family qualifier : Bytes)
    (timestamp : UInt64) :
    KeyParts.isRowEnd ⟨row, some family, some qualifier, some timestamp, some kind⟩ = false := by
  simp [KeyParts.isRowEnd, other]

theorem code_ne_kindAfter (kind : CellKind) : kind.code ≠ kindAfter := by
  cases kind <;> decide

theorem order_encode {kind kind' : UInt8} (rowLength : row.length ≤ 65535)
    (familyLength : family.length ≤ 255) (rowLength' : row'.length ≤ 65535)
    (familyLength' : family'.length ≤ 255) (other : kind ≠ kindAfter) (other' : kind' ≠ kindAfter)
    (qualifier qualifier' : Bytes) (timestamp timestamp' : UInt64) :
    Key.order (encode row family qualifier timestamp kind)
        (encode row' family' qualifier' timestamp' kind') =
      ((compare row row').then ((compare family family').then (compare qualifier qualifier'))).then
        ((compare timestamp' timestamp).then (compare kind' kind)) := by
  rw [Key.order, split_encode rowLength familyLength, split_encode rowLength' familyLength',
    KeyParts.order, isRowEnd_of_kind other, isRowEnd_of_kind other',
    Ordering.then_assoc (compare row row')]
  rfl

theorem compare_latest (timestamp : UInt64) (kind : CellKind) :
    (compare timestamp latest).then (compare kind.code kindBefore) =
      if timestamp ≤ latest then .lt else .gt := by
  have first : compare kind.code kindBefore = .lt := by cases kind <;> decide
  rw [first]
  by_cases old : timestamp ≤ latest
  · have le : (compare timestamp latest).isLE := Std.isLE_compare.2 old
    rw [if_pos old]
    cases order : compare timestamp latest with
    | lt => rfl
    | eq => rfl
    | gt => simp [order] at le
  · have gt : compare timestamp latest = .gt := Std.compare_eq_gt.2 (by simpa using old)
    rw [if_neg old, gt]
    rfl

/-- The target of a column is before the versions of the column and of those that follow it, and
after all others. It is after a version too whose timestamp is greater than the newest one. -/
theorem order_column (rowLength : row.length ≤ 65535) (familyLength : family.length ≤ 255)
    (rowLength' : row'.length ≤ 65535) (familyLength' : family'.length ≤ 255)
    (qualifier qualifier' : Bytes) (timestamp : UInt64) (kind : CellKind) :
    Key.order (SeekTarget.column row family qualifier).toKey
        (encode row' family' qualifier' timestamp kind.code) =
      ((compare row row').then ((compare family family').then (compare qualifier qualifier'))).then
        (if timestamp ≤ latest then .lt else .gt) := by
  rw [← compare_latest timestamp kind]
  exact order_encode rowLength familyLength rowLength' familyLength' (by decide)
    (code_ne_kindAfter kind) qualifier qualifier' latest timestamp

theorem order_column_afterLatest : ([97] : Bytes).length ≤ 65535 ∧ ([102] : Bytes).length ≤ 255
    ∧ Key.order (SeekTarget.column [97] [102] [113]).toKey
      (encode [97] [102] [113] 0x8000000000000000 CellKind.put.code) = .gt := by
  have row : ([97] : Bytes).length ≤ 65535 := by decide
  have family : ([102] : Bytes).length ≤ 255 := by decide
  have order := order_column row family row family [113] [113] 0x8000000000000000 .put
  exact ⟨row, family, order⟩

theorem split_ofFamily (rowLength : row.length ≤ 65535) (familyLength : family.length ≤ 255) :
    split (ofFamily row family) = ⟨row, some family, none, none, none⟩ := by
  have number : (UInt8.ofNat family.length).toNat = family.length := by
    simp
    omega
  have parts := split_eq rowLength (UInt8.ofNat family.length :: family)
  simp only [number, List.drop_length, List.take_length] at parts
  simp only [ofFamily, ofRow, List.take_of_length_le rowLength,
    List.take_of_length_le familyLength, List.append_assoc, parts]

theorem order_ofRow (rowLength : row.length ≤ 65535) (rowLength' : row'.length ≤ 65535)
    (familyLength' : family'.length ≤ 255) (qualifier : Bytes) (timestamp : UInt64)
    (kind : CellKind) :
    Key.order (ofRow row) (encode row' family' qualifier timestamp kind.code) =
      (compare row row').then .lt := by
  rw [Key.order, split_ofRow rowLength, split_encode rowLength' familyLength', KeyParts.order,
    isRowEnd_of_kind (code_ne_kindAfter kind)]
  rfl

theorem order_ofFamily (rowLength : row.length ≤ 65535) (familyLength : family.length ≤ 255)
    (rowLength' : row'.length ≤ 65535) (familyLength' : family'.length ≤ 255) (qualifier : Bytes)
    (timestamp : UInt64) (kind : CellKind) :
    Key.order (ofFamily row family) (encode row' family' qualifier timestamp kind.code) =
      ((compare row row').then (compare family family')).then .lt := by
  have noEnd : KeyParts.isRowEnd ⟨row, some family, none, none, none⟩ = false := by
    simp [KeyParts.isRowEnd]
  rw [Key.order, split_ofFamily rowLength familyLength, split_encode rowLength' familyLength',
    KeyParts.order, isRowEnd_of_kind (code_ne_kindAfter kind), noEnd, Ordering.then_assoc,
    Ordering.then_assoc (compare row row')]
  rfl

theorem order_rowEnd (rowLength : row.length ≤ 65535) (rowLength' : row'.length ≤ 65535)
    (familyLength' : family'.length ≤ 255) (qualifier : Bytes) (timestamp : UInt64)
    (kind : CellKind) :
    Key.order (rowEnd row) (encode row' family' qualifier timestamp kind.code) =
      (compare row row').then .gt := by
  rw [Key.order, rowEnd, split_encode rowLength (by simp), split_encode rowLength' familyLength',
    KeyParts.order, isRowEnd_of_kind (code_ne_kindAfter kind)]
  rfl

/-- The start of a row and the start of a family in it lie before the cells of their own and of what
follows, the end of a row after those of its own and of what comes before; and none of them is where
a cell is. -/
theorem order_rowTargets (rowLength : row.length ≤ 65535) (familyLength : family.length ≤ 255)
    (rowLength' : row'.length ≤ 65535) (familyLength' : family'.length ≤ 255) (qualifier : Bytes)
    (timestamp : UInt64) (kind : CellKind) :
    (Key.order (SeekTarget.row row).toKey (encode row' family' qualifier timestamp kind.code) =
      if row ≤ row' then .lt else .gt)
    ∧ (Key.order (SeekTarget.family row family).toKey
        (encode row' family' qualifier timestamp kind.code) =
      if row < row' ∨ row = row' ∧ family ≤ family' then .lt else .gt)
    ∧ (Key.order (rowEnd row) (encode row' family' qualifier timestamp kind.code) =
      if row' ≤ row then .gt else .lt)
    ∧ ∀ target ∈ [(SeekTarget.row row).toKey, (SeekTarget.family row family).toKey, rowEnd row],
      Key.order target (encode row' family' qualifier timestamp kind.code) ≠ .eq := by
  have atRow : Key.order (SeekTarget.row row).toKey
      (encode row' family' qualifier timestamp kind.code) = if row ≤ row' then .lt else .gt := by
    refine (order_ofRow rowLength rowLength' familyLength' qualifier timestamp kind).trans ?_
    simp only [← Bytes.compare_ne_gt_iff]
    cases compare row row' <;> rfl
  have atFamily : Key.order (SeekTarget.family row family).toKey
      (encode row' family' qualifier timestamp kind.code) =
        if row < row' ∨ row = row' ∧ family ≤ family' then .lt else .gt := by
    refine (order_ofFamily rowLength familyLength rowLength' familyLength' qualifier timestamp
      kind).trans ?_
    simp only [← Bytes.compare_ne_gt_iff, ← Bytes.compare_eq_lt_iff, ← Std.compare_eq_iff_eq]
    cases compare row row' <;> cases compare family family' <;> rfl
  have atEnd : Key.order (rowEnd row) (encode row' family' qualifier timestamp kind.code) =
      if row' ≤ row then .gt else .lt := by
    refine (order_rowEnd rowLength rowLength' familyLength' qualifier timestamp kind).trans ?_
    simp only [← Bytes.compare_ne_gt_iff, Ne, Std.OrientedCmp.gt_iff_lt]
    cases compare row row' <;> rfl
  refine ⟨atRow, atFamily, atEnd, ?_⟩
  simp only [List.forall_mem_cons, atRow, atFamily, atEnd]
  refine ⟨?_, ?_, ?_, by simp⟩ <;> split <;> exact Ordering.noConfusion

theorem order_rowTargets_emptyColumn : ([97] : Bytes).length ≤ 65535 ∧ ([] : Bytes).length ≤ 255
    ∧ Key.order (SeekTarget.row [97]).toKey (encode [97] [] [] 0 CellKind.put.code) = .lt
    ∧ Key.order (SeekTarget.family [97] []).toKey (encode [97] [] [] 0 CellKind.put.code) = .lt
    ∧ Key.order (rowEnd [97]) (encode [97] [] [] 0 CellKind.put.code) = .gt := by
  have row : ([97] : Bytes).length ≤ 65535 := by decide
  have family : ([] : Bytes).length ≤ 255 := by decide
  obtain ⟨atRow, atFamily, atEnd, -⟩ := order_rowTargets row family row family [] 0 .put
  exact ⟨row, family, atRow, atFamily, atEnd⟩

end Key

end CellStore
