namespace CellStore.Zstd

/-- The `count` bits from bit `first` of the bytes from `start` to `stop` on, as a number whose
lowest bit comes first. Past `stop` there are zeros. -/
def bitsAt (bytes : ByteArray) (start stop first count : Nat) : Nat :=
  let from8 := start + first / 8
  let width := (first % 8 + count + 7) / 8
  let word := (List.range' from8 width).foldr
    (fun i n => (if i < stop then ((bytes[i]?).getD 0).toNat else 0) + 256 * n) 0
  word / 2 ^ (first % 8) % 2 ^ count

def numberAt (bytes : ByteArray) (start width : Nat) : Nat :=
  bitsAt bytes start bytes.size 0 (8 * width)

structure BackBits where
  bytes : ByteArray
  start : Nat
  stop : Nat
  left : Nat
  overrun : Bool

namespace BackBits

/-- The bits before the highest set bit of the last byte, or all of them when it has none. -/
def endingAt (bytes : ByteArray) (start stop : Nat) : BackBits :=
  let last := ((bytes[stop - 1]?).getD 0).toNat
  ⟨bytes, start, stop, 8 * (stop - 1 - start) + (if last = 0 then 8 else last.log2), false⟩

def open? (bytes : ByteArray) (start stop : Nat) : Option BackBits :=
  if start < stop ∧ stop ≤ bytes.size ∧ bytes[stop - 1]? ≠ some 0 then
    some (endingAt bytes start stop)
  else none

def peek (bits : BackBits) (count : Nat) : Nat :=
  if count ≤ bits.left then bitsAt bits.bytes bits.start bits.stop (bits.left - count) count
  else bitsAt bits.bytes bits.start bits.stop 0 bits.left * 2 ^ (count - bits.left)

def skip (bits : BackBits) (count : Nat) : BackBits :=
  { bits with left := bits.left - count, overrun := bits.overrun || bits.left < count }

def read (bits : BackBits) (count : Nat) : Nat × BackBits := (bits.peek count, bits.skip count)

def exhausted (bits : BackBits) : Bool := bits.left = 0 && !bits.overrun

end BackBits

end CellStore.Zstd
