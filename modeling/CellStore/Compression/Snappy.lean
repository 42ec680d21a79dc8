import CellStore.Bytes
import CellStore.Compression.Repeat

/-! Raw snappy: the length of the output, then literals and copies. -/

namespace CellStore.Snappy

/-- Reads groups of seven bits, the lowest first and the next one at `shift`. Bits past the 64th
are dropped, but no group may start after them. -/
def lengthFrom (shift sum : Nat) : Bytes → Option (Nat × Bytes)
  | [] => none
  | b :: rest =>
    if 64 ≤ shift then none
    else
      let sum := (sum + b.toNat % 128 * 2 ^ shift) % 0x1_0000_0000_0000_0000
      if b.toNat < 128 then some (sum, rest) else lengthFrom (shift + 7) sum rest

def outputLength? (bytes : Bytes) : Option (Nat × Bytes) := do
  let (length, rest) ← lengthFrom 0 0 bytes
  if length < 0x1_0000_0000 then some (length, rest) else none

inductive Element
  | literal (length : Nat)
  | copy (length offset : Nat)

/-- The element at the start of a stream. A literal that gives its length in bytes of their own
has to be followed by four bytes. -/
def element? (tag : UInt8) (rest : Bytes) : Option (Element × Bytes) :=
  let high := tag.toNat / 4
  let field (width : Nat) (make : Nat → Element) : Option (Element × Bytes) :=
    let taken := rest.take width
    if taken.length < width then none
    else some (make (Bytes.lowToNat taken), rest.drop width)
  match tag.toNat % 4 with
  | 0 =>
    if high < 60 then some (.literal (high + 1), rest)
    else if (rest.take 4).length < 4 then none
    else
      let width := high - 59
      some (.literal (Bytes.lowToNat (rest.take width) + 1), rest.drop width)
  | 1 => field 1 fun low => .copy (4 + high % 8) (tag.toNat / 32 * 256 + low)
  | 2 => field 2 (.copy (high + 1))
  | _ => field 4 (.copy (high + 1))

def run (length : Nat) : (fuel : Nat) → (output : ByteArray) → Bytes → Option ByteArray
  | _, output, [] => if output.size = length then some output else none
  | 0, _, _ :: _ => none
  | fuel + 1, output, tag :: rest => do
    match ← element? tag rest with
    | (.literal n, rest) =>
      let taken := rest.take n
      if taken.length < n ∨ length < output.size + n then none
      run length fuel (output ++ taken.toByteArray) (rest.drop n)
    | (.copy n offset, rest) =>
      if offset = 0 ∨ output.size < offset ∨ length < output.size + n then none
      run length fuel (Compression.repeatBack offset n output) rest

def decompress? (bytes : Bytes) : Option Bytes := do
  let (length, rest) ← outputLength? bytes
  let output ← run length rest.length .empty rest
  some output.toList

end CellStore.Snappy
