import CellStore.Compression
import CellStore.Compression.Packing
import CellStore.Proofs.Frames
import CellStore.Proofs.Integer

namespace CellStore

theorem toList_loop (bytes : ByteArray) (i : Nat) (taken : Bytes) :
    ByteArray.toList.loop bytes i taken = taken.reverse ++ bytes.data.toList.drop i := by
  fun_induction ByteArray.toList.loop bytes i taken with
  | case1 i taken inside ih =>
    have inside' : i < bytes.data.toList.length := by simpa using inside
    have byte : bytes.get! i = bytes.data.toList[i] := getElem!_pos bytes.data i inside'
    rw [ih, List.reverse_cons, List.append_assoc, List.drop_eq_getElem_cons inside', byte]
    rfl
  | case2 i taken outside =>
    have outside' : bytes.data.toList.length ≤ i := by simpa using outside
    rw [List.drop_eq_nil_of_le outside', List.append_nil]

theorem toList_eq_data (bytes : ByteArray) : bytes.toList = bytes.data.toList :=
  toList_loop bytes 0 []

theorem Bytes.lowToNat_lowOfNat (width n : Nat) :
    lowToNat (lowOfNat width n) = n % 256 ^ width := by
  have digits : ∀ bytes : Bytes, lowToNat bytes.reverse = toNat bytes := by
    intro bytes
    rw [lowToNat, List.foldr_reverse, toNat]
    congr 1
    funext n b
    omega
  rw [lowOfNat, digits, toNat_ofNat]

namespace Snappy

variable {bytes rest content : Bytes} {length fuel : Nat} {output result : ByteArray}

/-- `sum` is the value of the groups read before. No group starts after the 64th bit. -/
theorem lengthFrom_writeGroups {left shift sum n : Nat} (allowed : shift + 7 * left < 64)
    (fits : n < 128 ^ (left + 1)) (small : sum + n * 2 ^ shift < 0x1_0000_0000_0000_0000)
    (rest : Bytes) :
    lengthFrom shift sum (Septets.writeGroups (left + 1) n ++ rest) =
      some (sum + n * 2 ^ shift, rest) := by
  induction left generalizing shift sum n with
  | zero =>
    have byte : n % 256 = n := by omega
    have group : n % 128 = n := by omega
    have inside : ¬ 64 ≤ shift := by omega
    have last : n < 128 := by omega
    rw [Septets.writeGroups, if_pos last]
    simp [lengthFrom, inside, byte, group, last, Nat.mod_eq_of_lt small]
  | succ left ih =>
    have inside : ¬ 64 ≤ shift := by omega
    rw [Septets.writeGroups]
    by_cases last : n < 128
    · have byte : n % 256 = n := by omega
      have group : n % 128 = n := by omega
      rw [if_pos last]
      simp [lengthFrom, inside, byte, group, last, Nat.mod_eq_of_lt small]
    · have byte : (n % 128 + 128) % 256 = n % 128 + 128 := by omega
      have continues : ¬ n % 128 + 128 < 128 := by omega
      have split : sum + n % 128 * 2 ^ shift + n / 128 * 2 ^ (shift + 7) = sum + n * 2 ^ shift := by
        rw [Nat.pow_add, Nat.add_assoc]
        exact congrArg _ (Septets.add_groups n (2 ^ shift))
      have small' : sum + n % 128 * 2 ^ shift < 0x1_0000_0000_0000_0000 := by omega
      have allowed' : shift + 7 + 7 * left < 64 := by omega
      have fits' : n / 128 < 128 ^ (left + 1) := by omega
      have later := ih allowed' fits' (split ▸ small)
      rw [if_neg last]
      simp [lengthFrom, inside, byte, continues, Nat.mod_eq_of_lt small', later, split]

theorem outputLength?_write {n : Nat} (fits : n < 0x1_0000_0000) (rest : Bytes) :
    outputLength? (Septets.write n ++ rest) = some (n, rest) := by
  have allowed : 0 + 7 * 4 < 64 := by decide
  have groups : n < 128 ^ (4 + 1) := by omega
  have whole : 0 + n * 2 ^ 0 < 0x1_0000_0000_0000_0000 := by omega
  have read := lengthFrom_writeGroups allowed groups whole rest
  simp only [Nat.zero_add, Nat.pow_zero, Nat.mul_one] at read
  simp [outputLength?, Septets.write, read, fits]

theorem run_nil (length fuel : Nat) (output : ByteArray) :
    run length fuel output [] = if output.size = length then some output else none := by
  cases fuel <;> rfl

theorem size_of_run_nil (ran : run length fuel output [] = some result) :
    result.size = length := by
  rw [run_nil, Option.ite_none_right_eq_some] at ran
  exact Option.some.inj ran.2 ▸ ran.1

theorem size_of_run (ran : run length fuel output bytes = some result) : result.size = length := by
  induction fuel generalizing output bytes with
  | zero =>
    cases bytes with
    | nil => exact size_of_run_nil ran
    | cons => cases ran
  | succ fuel ih =>
    cases bytes with
    | nil => exact size_of_run_nil ran
    | cons tag rest =>
      obtain ⟨⟨element, rest⟩, -, later⟩ := Option.bind_eq_some_iff.1 ran
      cases element with
      | literal n =>
        dsimp only at later
        split at later
        · cases later
        · exact ih later
      | copy n offset =>
        dsimp only at later
        split at later
        · cases later
        · exact ih later

theorem length_of_decompress (expanded : decompress? bytes = some content) :
    ∃ rest, outputLength? bytes = some (content.length, rest) := by
  obtain ⟨⟨length, rest⟩, said, expanded⟩ := Option.bind_eq_some_iff.1 expanded
  obtain ⟨output, ran, given⟩ := Option.bind_eq_some_iff.1 expanded
  cases given
  refine ⟨rest, ?_⟩
  rw [said, toList_eq_data, Array.length_toList, ByteArray.size_data, size_of_run ran]

theorem element?_ofLength (rest : Bytes) :
    element? 0xF4 rest =
      if (rest.take 4).length < 4 then none
      else some (.literal (Bytes.lowToNat (rest.take 2) + 1), rest.drop 2) := rfl

theorem element?_literal (data : Bytes) (pos : 0 < data.length) (short : data.length ≤ 65536) :
    ∃ tag rest, Packing.snappyLiteral data = Septets.write data.length ++ tag :: rest
      ∧ element? tag rest = some (.literal data.length, data) := by
  by_cases small : data.length ≤ 60
  · refine ⟨UInt8.ofNat (4 * (data.length - 1)), data, ?_, ?_⟩
    · simp [Packing.snappyLiteral, small]
    · have tag : 4 * (data.length - 1) % 256 = 4 * (data.length - 1) := by omega
      have kind : 4 * (data.length - 1) % 4 = 0 := by omega
      have high : 4 * (data.length - 1) / 4 = data.length - 1 := by omega
      have inside : data.length - 1 < 60 := by omega
      have whole : data.length - 1 + 1 = data.length := by omega
      simp [element?, tag, kind, high, inside, whole]
  · refine ⟨0xF4, Bytes.lowOfNat 2 (data.length - 1) ++ data, ?_, ?_⟩
    · simp [Packing.snappyLiteral, small]
    · have width : (Bytes.lowOfNat 2 (data.length - 1)).length = 2 := by simp [Bytes.lowOfNat]
      have value : Bytes.lowToNat (Bytes.lowOfNat 2 (data.length - 1)) + 1 = data.length := by
        rw [Bytes.lowToNat_lowOfNat, Nat.mod_eq_of_lt (by omega)]
        omega
      have long : ¬ ((Bytes.lowOfNat 2 (data.length - 1) ++ data).take 4).length < 4 := by
        rw [List.length_take, List.length_append, width]
        omega
      rw [element?_ofLength, if_neg long, List.take_left' width, List.drop_left' width, value]

theorem decompress?_literal (data : Bytes) (pos : 0 < data.length) (short : data.length ≤ 65536) :
    decompress? (Packing.snappyLiteral data) = some data := by
  obtain ⟨tag, rest, written, element⟩ := element?_literal data pos short
  have said := outputLength?_write (show data.length < 0x1_0000_0000 by omega) (tag :: rest)
  have ran : run data.length (rest.length + 1) .empty (tag :: rest) = some data.toByteArray := by
    rw [run, element]
    simp [run_nil]
  rw [decompress?, written, said]
  simp [ran, toList_eq_data]

theorem length_snappyLiteral (data : Bytes) :
    (Packing.snappyLiteral data).length ≤ data.length + 8 := by
  have groups := Septets.length_writeGroups 5 data.length
  rw [Packing.snappyLiteral, Septets.write]
  split
  · simp only [List.length_append, List.length_singleton]
    omega
  · simp only [List.length_append, List.length_cons, Bytes.lowOfNat, List.length_reverse,
      Bytes.length_ofNat]
    omega

end Snappy

namespace Compression

theorem snappyChunk_eq_ok_iff {limit : Nat} {chunk content : Bytes} :
    snappyChunk limit chunk = .ok content ↔
      Snappy.decompress? chunk = some content ∧ content.length ≤ limit := by
  cases found : Snappy.decompress? chunk with
  | none =>
    simp only [snappyChunk, found]
    constructor
    · intro expanded
      repeat' split at expanded
      all_goals cases expanded
    · nofun
  | some out =>
    obtain ⟨rest, said⟩ := Snappy.length_of_decompress found
    have filled : ¬ chunk.isEmpty := by
      rintro none
      cases List.isEmpty_iff.1 none
      cases found
    have expanded : snappyChunk limit chunk =
        if limit < out.length then .error (.undecodable (.longSnappyChunk out.length limit))
        else .ok out := by
      simp only [snappyChunk, found, said, filled]
      rfl
    rw [expanded]
    constructor
    · intro given
      split at given
      · cases given
      · cases given
        exact ⟨rfl, by omega⟩
    · rintro ⟨given, fits⟩
      cases given
      exact if_neg (by omega)

theorem bounded_snappyChunk : Frames.Bounded snappyChunk :=
  fun _ _ _ expanded => (snappyChunk_eq_ok_iff.1 expanded).2

theorem bounded_zstdChunk : Frames.Bounded zstdChunk := by
  intro limit chunk content expanded
  obtain ⟨out, found, expanded⟩ := exists_of_bind expanded
  split at expanded
  · cases expanded
  · cases expanded
    omega

end Compression

end CellStore
