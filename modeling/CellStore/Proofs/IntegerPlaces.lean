import CellStore.Proofs.CellLayout

namespace CellStore

/-- What was written for a value is read at its place among other bytes, up to its end. -/
def ReadsBack (read : Input → Decoded (α × Input)) (written : Bytes) (a : α) : Prop :=
  ∀ before after, read (.startingAt (before ++ (written ++ after)) before.length) =
    .ok (a, .startingAt (before ++ (written ++ after)) (before.length + written.length))

theorem Reads.readsBack {read : Input → Decoded (α × Input)} {bytes : Bytes} {a : α}
    (reads : Reads read bytes a) : ReadsBack read bytes a := by
  intro before after
  have here : (before ++ (bytes ++ after)).drop before.length = bytes ++ after := List.drop_left
  rw [Input.startingAt, here, reads.eq, CellLayout.startingAt_add here]

namespace Septets

theorem groups_of_readGroups {start left weight sum n : Nat} {input after : Input}
    (made : readGroups start left weight sum input = .ok (n, after)) :
    ∃ groups behind m, input.rest = groups ++ behind ∧ groups.length ≤ left ∧ Groups groups m
      ∧ n = sum + m * weight ∧ n < 0x1_0000_0000
      ∧ after = ⟨input.size, input.offset + groups.length, behind⟩ := by
  induction left generalizing weight sum input with
  | zero => cases made
  | succ left ih =>
    obtain ⟨size, offset, rest⟩ := input
    cases rest with
    | nil => cases made
    | cons group rest =>
      simp only [readGroups] at made
      by_cases last : group.toNat < 128
      · rw [if_pos last] at made
        split at made
        · rename_i small
          cases made
          rw [Nat.mod_eq_of_lt last] at small ⊢
          exact ⟨[group], rest, _, rfl, Nat.le_add_left 1 left, .last last, rfl, small, rfl⟩
        · cases made
      · rw [if_neg last] at made
        obtain ⟨groups, behind, m, split, count, later, value, small, rfl⟩ := ih made
        refine ⟨group :: groups, behind, _, congrArg (group :: ·) split, Nat.succ_le_succ count,
          .more (Nat.le_of_not_lt last) later, value.trans (add_group ..), small, ?_⟩
        simp only [Input.skip, List.length_cons, Nat.add_assoc, Nat.add_comm 1]

theorem read_eq_ok_iff {bytes : Bytes} {offset n : Nat} {after : Input} :
    read (.startingAt bytes offset) = .ok (n, after) ↔
      ∃ groups behind, bytes.drop offset = groups ++ behind ∧ groups.length ≤ 5
        ∧ Groups groups n ∧ n < 0x1_0000_0000
        ∧ after = .startingAt bytes (offset + groups.length) := by
  constructor
  · intro made
    obtain ⟨groups, behind, m, split, count, spells, value, small, rfl⟩ := groups_of_readGroups made
    rw [Nat.zero_add, Nat.mul_one] at value
    subst value
    exact ⟨groups, behind, split, count, spells, small, CellLayout.startingAt_add split⟩
  · rintro ⟨groups, behind, split, count, spells, small, rfl⟩
    have whole : 0 + n * 1 < 0x1_0000_0000 := by omega
    have made := readGroups_of_groups spells count whole offset bytes.length offset behind
    rw [Nat.zero_add, Nat.mul_one, CellLayout.startingAt_add split] at made
    rw [read, ← made, Input.startingAt, split]

end Septets

/-- Every number is read where it was written, and so is every byte string behind its length. The
first byte of a signed number tells how long it is. An unsigned one is found exactly where one of
the next five bytes is the first without its high bit, and the groups up to that spell a number of
32 bits. -/
theorem integers_read_back :
    (∀ n : Int64, ReadsBack VarLong.read (VarLong.write n) n
      ∧ ∃ first more, VarLong.write n = first :: more
        ∧ VarLong.size first = (VarLong.write n).length)
    ∧ (∀ bytes : Bytes, bytes.length < 0x8000_0000_0000_0000 →
      ReadsBack VarLong.readBytes (VarLong.writeBytes bytes) bytes)
    ∧ (∀ n : UInt32, ReadsBack Septets.read (Septets.write n.toNat) n.toNat)
    ∧ ∀ bytes offset n after, Septets.read (.startingAt bytes offset) = .ok (n, after) ↔
      ∃ groups behind, bytes.drop offset = groups ++ behind ∧ groups.length ≤ 5
        ∧ Septets.Groups groups n ∧ n < 0x1_0000_0000
        ∧ after = .startingAt bytes (offset + groups.length) := by
  refine ⟨fun n => ?_, fun bytes fits => ?_, fun n => ?_, fun bytes offset n after => ?_⟩
  · obtain ⟨first, more, written, length, -⟩ := VarLong.write_eq_cons n
    refine ⟨(VarLong.reads_write n).readsBack, first, more, written, ?_⟩
    rw [written, length, List.length_cons]
  · exact (VarLong.reads_writeBytes fits).readsBack
  · exact (Septets.reads_write n.toNat_lt).readsBack
  · exact Septets.read_eq_ok_iff

theorem integers_read_back_longest :
    VarLong.read (.startingAt [9, 0x80, 0x7F, 0xFF, 0xFF, 0xFF, 0xFF, 0xFF, 0xFF, 0xFF, 9] 1) =
      .ok (Int64.minValue,
        .startingAt [9, 0x80, 0x7F, 0xFF, 0xFF, 0xFF, 0xFF, 0xFF, 0xFF, 0xFF, 9] 10)
    ∧ ([7, 8] : Bytes).length < 0x8000_0000_0000_0000
    ∧ VarLong.readBytes (.startingAt [9, 2, 7, 8, 9] 1) =
      .ok ([7, 8], .startingAt [9, 2, 7, 8, 9] 4)
    ∧ Septets.read (.startingAt [9, 0xFF, 0xFF, 0xFF, 0xFF, 0x0F, 9] 1) =
      .ok (4294967295, .startingAt [9, 0xFF, 0xFF, 0xFF, 0xFF, 0x0F, 9] 6) := by
  obtain ⟨numbers, byteStrings, groups, -⟩ := integers_read_back
  have short : ([7, 8] : Bytes).length < 0x8000_0000_0000_0000 := by decide
  have largest := groups 4294967295 [9] [9]
  have written : Septets.write (4294967295 : UInt32).toNat = [0xFF, 0xFF, 0xFF, 0xFF, 0x0F] := by
    decide
  rw [written] at largest
  exact ⟨(numbers Int64.minValue).1 [9] [9], short, byteStrings [7, 8] short [9] [9], largest⟩

end CellStore
