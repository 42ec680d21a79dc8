import CellStore.Input

/-! Signed numbers of one to nine bytes. A first byte from -112 to 127 is the number itself; any
other one gives the sign and the count of the magnitude bytes after it, and the magnitude of a
negative number is that of its complement. -/

namespace CellStore.VarLong

def size (first : UInt8) : Nat :=
  let n := first.toNat
  if n < 128 ∨ 144 ≤ n then 1 else if n < 136 then 137 - n else 145 - n

def complemented (first : UInt8) : Bool := 128 ≤ first.toNat && first.toNat < 136

def value (first : UInt8) (magnitude : Bytes) : Int64 :=
  if size first = 1 then first.toInt8.toInt64
  else
    let n := (UInt64.ofNat (Bytes.toNat magnitude)).toInt64
    if complemented first then ~~~n else n

def read (input : Input) : Decoded (Int64 × Input) :=
  match input.rest with
  | [] => .error (.truncated "vint" (input.offset + 1) input.size)
  | first :: _ => do
    let (magnitude, input) ← (input.skip 1).take "vint" (size first - 1)
    return (value first magnitude, input)

def readBytes (input : Input) : Decoded (Bytes × Input) := do
  let (length, rest) ← read input
  if length < 0 then
    throw (.flawed (.negativeLength length.toInt input.offset))
  rest.take "byte array" length.toInt.toNat

def digits (n : Nat) : Nat := n.log2 / 8 + 1

def write (n : Int64) : Bytes :=
  if -112 ≤ n ∧ n ≤ 127 then [n.toInt8.toUInt8]
  else
    let magnitude := (if n < 0 then ~~~n else n).toUInt64.toNat
    let count := digits magnitude
    let marker := (if n < 0 then 136 else 144) - count
    UInt8.ofNat marker :: Bytes.ofNat count magnitude

def writeBytes (bytes : Bytes) : Bytes :=
  write (Int64.ofNat bytes.length) ++ bytes

end CellStore.VarLong
