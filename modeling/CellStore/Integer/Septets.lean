import CellStore.Input

/-! Unsigned 32-bit numbers in groups of seven bits, the lowest first, where every byte but the
last has its high bit set. -/

namespace CellStore.Septets

/-- Reads at most `left` more groups of a number that starts at `start`, whose groups so far add up
to `sum` and whose next group has the given `weight`. -/
def readGroups (start : Nat) : (left weight sum : Nat) → Input → Decoded (Nat × Input)
  | 0, _, _, _ => .error (.flawed (.septetsTooLong start))
  | left + 1, weight, sum, input =>
    match input.rest with
    | [] => .error (.truncated "compressed int" (input.offset + 1) input.size)
    | group :: _ =>
      let sum := sum + group.toNat % 128 * weight
      if group.toNat < 128 then
        if sum < 0x1_0000_0000 then .ok (sum, input.skip 1)
        else .error (.flawed (.septetOverflow start))
      else readGroups start left (weight * 128) sum (input.skip 1)

def read (input : Input) : Decoded (Nat × Input) := readGroups input.offset 5 1 0 input

def writeGroups : (left n : Nat) → Bytes
  | 0, _ => []
  | left + 1, n =>
    if n < 128 then [UInt8.ofNat n]
    else UInt8.ofNat (n % 128 + 128) :: writeGroups left (n / 128)

def write (n : Nat) : Bytes := writeGroups 5 n

end CellStore.Septets
