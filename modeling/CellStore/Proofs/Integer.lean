import CellStore.Integer.Septets
import CellStore.Integer.VarLong
import CellStore.Proofs.Input

namespace CellStore

namespace Septets

theorem length_writeGroups (left n : Nat) : (writeGroups left n).length ≤ left := by
  induction left generalizing n with
  | zero => exact Nat.le_refl 0
  | succ left ih =>
    rw [writeGroups]
    split
    · simp
    · simpa using ih (n / 128)

theorem add_groups (n weight : Nat) :
    n % 128 * weight + n / 128 * (weight * 128) = n * weight := by
  rw [Nat.mul_comm weight, ← Nat.mul_assoc, ← Nat.add_mul]
  congr 1
  omega

/-- The groups of a number, the lowest first. Every one but the last says that another one
follows. -/
inductive Groups : Bytes → Nat → Prop
  | last {group : UInt8} (ends : group.toNat < 128) : Groups [group] group.toNat
  | more {group : UInt8} {groups : Bytes} {n : Nat} (goesOn : 128 ≤ group.toNat)
    (later : Groups groups n) : Groups (group :: groups) (group.toNat % 128 + 128 * n)

theorem add_group (sum weight group n : Nat) :
    sum + group * weight + n * (weight * 128) = sum + (group + 128 * n) * weight := by
  rw [Nat.add_mul, Nat.add_assoc, Nat.mul_comm weight, ← Nat.mul_assoc, Nat.mul_comm n]

theorem groups_of_lt {n : Nat} (last : n < 128) : Groups [UInt8.ofNat n] n := by
  have byte : (UInt8.ofNat n).toNat = n := by simp; omega
  have ends : Groups [UInt8.ofNat n] (UInt8.ofNat n).toNat := .last (by omega)
  rwa [byte] at ends

theorem groups_writeGroups {left n : Nat} (fits : n < 128 ^ (left + 1)) :
    Groups (writeGroups (left + 1) n) n := by
  induction left generalizing n with
  | zero =>
    rw [writeGroups, if_pos (by omega)]
    exact groups_of_lt (by omega)
  | succ left ih =>
    rw [writeGroups]
    by_cases last : n < 128
    · rw [if_pos last]
      exact groups_of_lt last
    · have byte : (UInt8.ofNat (n % 128 + 128)).toNat = n % 128 + 128 := by simp; omega
      have whole : (n % 128 + 128) % 128 + 128 * (n / 128) = n := by omega
      have goesOn : 128 ≤ (UInt8.ofNat (n % 128 + 128)).toNat := by omega
      have later := Groups.more goesOn (ih (n := n / 128) (by omega))
      rw [byte, whole] at later
      rwa [if_neg last]

theorem readGroups_of_groups {groups : Bytes} {n : Nat} (spells : Groups groups n)
    {left weight sum : Nat} (count : groups.length ≤ left)
    (small : sum + n * weight < 0x1_0000_0000) (start size offset : Nat) (behind : Bytes) :
    readGroups start left weight sum ⟨size, offset, groups ++ behind⟩ =
      .ok (sum + n * weight, ⟨size, offset + groups.length, behind⟩) := by
  induction spells generalizing left weight sum offset with
  | last ends =>
    obtain ⟨left, rfl⟩ := Nat.exists_eq_succ_of_ne_zero (Nat.ne_of_gt count)
    simp only [List.singleton_append, readGroups, ends, Nat.mod_eq_of_lt ends, small, if_true]
    rfl
  | @more group groups n goesOn later ih =>
    obtain ⟨left, rfl⟩ := Nat.exists_eq_succ_of_ne_zero (Nat.ne_of_gt (Nat.zero_lt_of_lt count))
    rw [← add_group] at small ⊢
    have rest := ih (Nat.le_of_succ_le_succ count) small (offset + 1)
    simp only [List.cons_append, readGroups, if_neg (Nat.not_lt_of_le goesOn), Input.skip,
      List.drop_succ_cons, List.drop_zero, rest, List.length_cons, Nat.add_assoc, Nat.add_comm 1]

theorem reads_write {n : Nat} (fits : n < 0x1_0000_0000) : Reads read (write n) n := by
  intro size offset rest
  have spells : Groups (write n) n := groups_writeGroups (by omega)
  have whole : 0 + n * 1 < 0x1_0000_0000 := by omega
  have made := readGroups_of_groups spells (length_writeGroups 5 n) whole offset size offset rest
  rwa [Nat.zero_add, Nat.mul_one] at made

end Septets

namespace VarLong

theorem toInt_toInt8 (b : UInt8) :
    b.toInt8.toInt = if b.toNat < 128 then (b.toNat : Int) else b.toNat - 256 := by
  change b.toBitVec.toInt = _
  rw [BitVec.toInt_eq_toNat_cond]
  have same : b.toBitVec.toNat = b.toNat := rfl
  have bound := b.toNat_lt
  split <;> split <;> omega

theorem size_eq_one {b : UInt8} (small : -112 ≤ b.toInt8.toInt) : size b = 1 := by
  rw [toInt_toInt8] at small
  have bound := b.toNat_lt
  have : b.toNat < 128 ∨ 144 ≤ b.toNat := by split at small <;> omega
  simp [size, this]

theorem toInt64_toInt8 {n : Int64} (small : -112 ≤ n ∧ n ≤ 127) :
    n.toInt8.toInt64 = n := by
  obtain ⟨low, high⟩ := small
  rw [Int64.le_iff_toInt_le] at low high
  apply Int64.toInt_inj.1
  have low' : (-112 : Int64).toInt = -112 := by decide
  have high' : (127 : Int64).toInt = 127 := by decide
  rw [Int8.toInt_toInt64, Int64.toInt_toInt8]
  apply Int.bmod_eq_of_le <;> omega

theorem lt_pow_digits (n : Nat) : n < 256 ^ digits n := by
  have base : n < 2 ^ (n.log2 + 1) := Nat.lt_log2_self
  have grow : 2 ^ (n.log2 + 1) ≤ 2 ^ (8 * digits n) :=
    Nat.pow_le_pow_right (by decide) (by simp only [digits]; omega)
  rw [Nat.pow_mul] at grow
  exact Nat.lt_of_lt_of_le base grow

theorem digits_le (n : UInt64) : digits n.toNat ≤ 8 := by
  have : n.toNat.log2 < 64 := by
    by_cases zero : n.toNat = 0
    · simp [zero]
    · exact (Nat.log2_lt zero).2 n.toNat_lt
  simp only [digits]
  omega

def magnitude (n : Int64) : UInt64 := (if n < 0 then ~~~n else n).toUInt64

def marker (n : Int64) : UInt8 :=
  UInt8.ofNat ((if n < 0 then 136 else 144) - digits (magnitude n).toNat)

theorem write_eq (n : Int64) :
    write n = if -112 ≤ n ∧ n ≤ 127 then [n.toInt8.toUInt8]
      else marker n :: Bytes.ofNat (digits (magnitude n).toNat) (magnitude n).toNat := rfl

theorem size_marker (n : Int64) : size (marker n) = digits (magnitude n).toNat + 1 := by
  have bound := digits_le (magnitude n)
  have pos : 1 ≤ digits (magnitude n).toNat := by simp [digits]
  by_cases negative : n < 0
  · have code : (marker n).toNat = 136 - digits (magnitude n).toNat := by
      simp [marker, negative]; omega
    simp only [size, code]
    split
    · omega
    · split <;> omega
  · have code : (marker n).toNat = 144 - digits (magnitude n).toNat := by
      simp [marker, negative]; omega
    simp only [size, code]
    split
    · omega
    · split <;> omega

theorem complemented_marker (n : Int64) : complemented (marker n) = decide (n < 0) := by
  have bound := digits_le (magnitude n)
  have pos : 1 ≤ digits (magnitude n).toNat := by simp [digits]
  by_cases negative : n < 0
  · have code : (marker n).toNat = 136 - digits (magnitude n).toNat := by
      simp [marker, negative]; omega
    simp [complemented, code, negative]
    omega
  · have code : (marker n).toNat = 144 - digits (magnitude n).toNat := by
      simp [marker, negative]; omega
    simp [complemented, code, negative]
    omega

theorem value_marker (n : Int64) :
    value (marker n) (Bytes.ofNat (digits (magnitude n).toNat) (magnitude n).toNat) = n := by
  have long : size (marker n) ≠ 1 := by
    rw [size_marker]
    simp [digits]
  have whole := Nat.mod_eq_of_lt (lt_pow_digits (magnitude n).toNat)
  simp only [value, long, if_false, complemented_marker, Bytes.toNat_ofNat, whole,
    UInt64.ofNat_toNat, decide_eq_true_eq]
  by_cases negative : n < 0 <;> simp [magnitude, negative]

theorem write_eq_cons (n : Int64) :
    ∃ first more, write n = first :: more ∧ size first = more.length + 1
      ∧ value first more = n := by
  rw [write_eq]
  split
  · rename_i small
    have low := Int64.le_iff_toInt_le.1 small.1
    have same := congrArg Int64.toInt (toInt64_toInt8 small)
    have one : size n.toInt8.toUInt8 = 1 := by
      apply size_eq_one
      rw [Int8.toInt_toInt64] at same
      simpa [same] using low
    exact ⟨_, [], rfl, one, by simp [value, one, toInt64_toInt8 small]⟩
  · exact ⟨_, _, rfl, by rw [size_marker, Bytes.length_ofNat], value_marker n⟩

theorem reads_write (n : Int64) : Reads read (write n) n := by
  intro size offset rest
  obtain ⟨first, more, written, length, same⟩ := write_eq_cons n
  have taken := (Input.reads_take more "vint" rfl).eq size (offset + 1) rest
  rw [written]
  simp [read, Input.skip, length, taken, same]
  omega

theorem reads_writeBytes {bytes : Bytes} (fits : bytes.length < 0x8000_0000_0000_0000) :
    Reads readBytes (writeBytes bytes) bytes := by
  intro size offset rest
  have length : (Int64.ofNat bytes.length).toInt = bytes.length :=
    Int64.toInt_ofNat_of_lt (by simpa using fits)
  have positive : ¬ Int64.ofNat bytes.length < 0 := by
    simp [Int64.lt_iff_toInt_lt, length]
  have count : (Int64.ofNat bytes.length).toNatClampNeg = bytes.length :=
    Int64.toNatClampNeg_ofNat_of_lt (by simpa using fits)
  have number := (reads_write (Int64.ofNat bytes.length)).eq size offset (bytes ++ rest)
  have taken := (Input.reads_take bytes "byte array" rfl).eq size
    (offset + (write (Int64.ofNat bytes.length)).length) rest
  rw [writeBytes, List.append_assoc, readBytes, number]
  simp [positive, count, taken, Nat.add_assoc]

end VarLong

end CellStore
