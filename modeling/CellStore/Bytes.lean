namespace CellStore

-- In the project powers and the zero of a sum are the core ones, also where an import offers those
-- of an algebraic structure.
attribute [scoped instance (high + 1)] instPowNat Zero.ofOfNat0

/-- Byte strings are lists; `compare` orders them lexicographically, a shorter string before
its extensions. -/
abbrev Bytes := List UInt8

namespace Bytes

/-- The number whose base 256 digits are `bytes`, the highest first. -/
def toNat (bytes : Bytes) : Nat :=
  bytes.foldl (fun n b => n * 256 + b.toNat) 0

/-- The number whose base 256 digits are `bytes`, the lowest first. -/
def lowToNat (bytes : Bytes) : Nat :=
  bytes.foldr (fun b n => b.toNat + 256 * n) 0

def ofNat : (width n : Nat) → Bytes
  | 0, _ => []
  | width + 1, n => UInt8.ofNat (n / 256 ^ width) :: ofNat width n

def lowOfNat (width n : Nat) : Bytes := (ofNat width n).reverse

def toInt (bytes : Bytes) : Int :=
  if 2 * toNat bytes < 256 ^ bytes.length then toNat bytes
  else toNat bytes - 256 ^ bytes.length

def ofInt (width : Nat) (n : Int) : Bytes :=
  ofNat width (n % 256 ^ width).toNat

def slice? (bytes : Bytes) (start length : Nat) : Option Bytes :=
  if start + length ≤ bytes.length then some ((bytes.drop start).take length) else none

@[simp] theorem length_ofNat (width n : Nat) : (ofNat width n).length = width := by
  induction width with
  | zero => rfl
  | succ width ih => simp [ofNat, ih]

private theorem foldl_digits (bytes : Bytes) (n : Nat) :
    bytes.foldl (fun n b => n * 256 + b.toNat) n = n * 256 ^ bytes.length + toNat bytes := by
  induction bytes generalizing n with
  | nil => simp [toNat]
  | cons b bytes ih =>
    simp only [toNat, List.foldl_cons, List.length_cons]
    rw [ih, ih (0 * 256 + b.toNat), Nat.pow_succ, Nat.zero_mul, Nat.zero_add, Nat.add_mul,
      Nat.mul_assoc, Nat.mul_comm 256, Nat.add_assoc]

@[simp] theorem toNat_nil : toNat [] = 0 := rfl

theorem toNat_cons (b : UInt8) (bytes : Bytes) :
    toNat (b :: bytes) = b.toNat * 256 ^ bytes.length + toNat bytes := by
  rw [toNat, List.foldl_cons, foldl_digits, Nat.zero_mul, Nat.zero_add]

theorem toNat_lt (bytes : Bytes) : toNat bytes < 256 ^ bytes.length := by
  induction bytes with
  | nil => simp
  | cons b bytes ih =>
    have hb : b.toNat < 256 := b.toNat_lt
    have := Nat.mul_le_mul_right (256 ^ bytes.length) (show b.toNat + 1 ≤ 256 by omega)
    rw [toNat_cons, List.length_cons, Nat.pow_succ]
    rw [Nat.add_mul] at this
    omega

@[simp] theorem toNat_ofNat (width n : Nat) : toNat (ofNat width n) = n % 256 ^ width := by
  induction width with
  | zero => simp [ofNat, Nat.mod_one]
  | succ width ih =>
    rw [ofNat, toNat_cons, ih, length_ofNat, Nat.pow_succ, UInt8.toNat_ofNat',
      Nat.mod_mul (a := 256 ^ width), Nat.mul_comm, Nat.add_comm]

theorem ofNat_toNat (bytes : Bytes) : ofNat bytes.length (toNat bytes) = bytes := by
  have step : ∀ (bytes : Bytes) (k : Nat),
      ofNat bytes.length (k * 256 ^ bytes.length + toNat bytes) = bytes := by
    intro bytes
    induction bytes with
    | nil => intro _; rfl
    | cons b bytes ih =>
      intro k
      have pos : 0 < 256 ^ bytes.length := Nat.pow_pos (by decide)
      have split : k * 256 ^ (bytes.length + 1) + toNat (b :: bytes)
          = (k * 256 + b.toNat) * 256 ^ bytes.length + toNat bytes := by
        rw [toNat_cons, Nat.pow_succ, Nat.add_mul, Nat.mul_assoc, Nat.mul_comm 256,
          Nat.add_assoc]
      have digit : (k * 256 + b.toNat) % 256 = b.toNat := by
        rw [Nat.mul_comm, Nat.mul_add_mod, Nat.mod_eq_of_lt b.toNat_lt]
      rw [List.length_cons, split, ofNat, ih]
      congr 1
      rw [Nat.add_comm, Nat.add_mul_div_right _ _ pos, Nat.div_eq_of_lt (toNat_lt bytes),
        Nat.zero_add]
      apply UInt8.toNat_inj.1
      rw [UInt8.toNat_ofNat']
      exact digit
  simpa using step bytes 0

theorem slice?_eq_some_iff {bytes part : Bytes} {start length : Nat} :
    bytes.slice? start length = some part ↔
      ∃ before after, bytes = before ++ (part ++ after) ∧ before.length = start
        ∧ part.length = length := by
  rw [slice?]
  constructor
  · intro cut
    split at cut
    · rename_i inside
      cases cut
      refine ⟨bytes.take start, (bytes.drop start).drop length, ?_, ?_, ?_⟩
      · rw [List.take_append_drop, List.take_append_drop]
      · rw [List.length_take]
        omega
      · rw [List.length_take, List.length_drop]
        omega
    · cases cut
  · rintro ⟨before, after, rfl, rfl, rfl⟩
    rw [if_pos (by simp only [List.length_append]; omega), List.drop_left, List.take_left]

theorem slice?_append {bytes part : Bytes} {start length : Nat}
    (cut : bytes.slice? start length = some part) (more : Bytes) :
    (bytes ++ more).slice? start length = some part := by
  obtain ⟨before, after, rfl, atStart, whole⟩ := slice?_eq_some_iff.1 cut
  refine slice?_eq_some_iff.2 ⟨before, after ++ more, ?_, atStart, whole⟩
  rw [List.append_assoc, List.append_assoc]

end Bytes

end CellStore
