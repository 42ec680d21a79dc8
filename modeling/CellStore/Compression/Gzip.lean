import CellStore.Checksum.Crc
import CellStore.Compression.Deflate

namespace CellStore.Gzip

/-- What follows the first zero byte, which has to come within the longest name there may be. -/
def afterZero (bytes : Bytes) : Option Bytes :=
  match bytes.dropWhile (· ≠ 0) with
  | [] => none
  | _ :: rest => if bytes.length ≤ rest.length + 65536 then some rest else none

def afterHeader (bytes : Bytes) : Option Bytes := do
  let 0x1F :: 0x8B :: 8 :: flags :: rest := bytes | none
  let flag (bit : UInt8) : Bool := flags &&& bit ≠ 0
  if flag 0xE0 ∨ rest.length < 6 then none
  let rest := rest.drop 6
  let rest ← if flag 4 then do
      let length := Bytes.lowToNat (rest.take 2)
      if rest.length < 2 + length then none
      some (rest.drop (2 + length))
    else some rest
  let rest ← if flag 8 then afterZero rest else some rest
  let rest ← if flag 16 then afterZero rest else some rest
  if flag 2 then
    let sum := Crc.sum Crc.ieee (bytes.take (bytes.length - rest.length))
    if rest.length < 2 ∨ Bytes.lowToNat (rest.take 2) ≠ sum.toNat % 65536 then none
    some (rest.drop 2)
  else some rest

def closes (sums : Bytes) (content : Bytes) : Bool :=
  8 ≤ sums.length && Bytes.lowToNat (sums.take 4) = (Crc.sum Crc.ieee content).toNat
    && Bytes.lowToNat ((sums.drop 4).take 4) = content.length % 0x1_0000_0000

def members (wanted : Nat) : (fuel : Nat) → (output : ByteArray) → Bytes → Option ByteArray
  | 0, _, _ => none
  | fuel + 1, output, bytes => do
    let body ← afterHeader bytes
    match Deflate.inflate body.toByteArray wanted output with
    | .halted .enough output => some output
    | .halted .starved output => if wanted ≤ output.size then some output else none
    | .halted .invalid _ => none
    | .finished used all =>
      if wanted ≤ all.size then some all
      else
        let rest := body.drop used
        if closes rest ((all.extract output.size all.size).toList) then
          let rest := rest.drop 8
          if rest.isEmpty then some all else members wanted fuel all rest
        else none

/-- The first `wanted` bytes of what `bytes` inflates to, or all of them when there are fewer. -/
def decompress? (wanted : Nat) (bytes : Bytes) : Option Bytes :=
  (members wanted (bytes.length + 1) .empty bytes).map fun output =>
    (output.extract 0 wanted).toList

end CellStore.Gzip
