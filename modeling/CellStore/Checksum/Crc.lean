import CellStore.Bytes

/-! Cyclic redundancy checks of 32 bits, bits taken lowest first. -/

namespace CellStore.Crc

variable (polynomial : UInt32)

def shift (remainder : UInt32) : UInt32 :=
  if remainder &&& 1 = 1 then remainder >>> 1 ^^^ polynomial else remainder >>> 1

def shifts : Nat → UInt32 → UInt32
  | 0, remainder => remainder
  | n + 1, remainder => shifts n (shift polynomial remainder)

def step (remainder : UInt32) (b : UInt8) : UInt32 :=
  shifts polynomial 8 (remainder ^^^ b.toUInt32)

def sum (bytes : Bytes) : UInt32 := ~~~ bytes.foldl (step polynomial) 0xFFFFFFFF

/-- The reflected polynomial of CRC-32. -/
def ieee : UInt32 := 0xEDB88320

/-- The reflected polynomial of CRC-32C. -/
def castagnoli : UInt32 := 0x82F63B78

end CellStore.Crc
