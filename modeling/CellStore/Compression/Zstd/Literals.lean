import CellStore.Compression.Zstd.StateTable

namespace CellStore.Zstd

/-- A prefix code by all bit strings of its greatest length: the symbol each one starts with and
the length of that symbol's code. -/
structure PrefixCode where
  log : Nat
  entries : Array (Nat × Nat)

namespace PrefixCode

/-- The weight that completes a code whose other symbols have these weights, and the length of its
longest code. -/
def lastWeight? (weights : List Nat) : Option (Nat × Nat) :=
  let total := (weights.map fun w => 2 ^ w / 2).sum
  if total = 0 ∨ weights.any (12 < ·) then none
  else
    let log := total.log2 + 1
    let rest := 2 ^ log - total
    if log ≤ 12 ∧ rest = 2 ^ rest.log2 then some (rest.log2 + 1, log) else none

/-- The code in which symbol `i` has a code of `log + 1 - weights[i]` bits; the last symbol has no
weight given. There have to be two symbols of weight 1, and an even number. -/
def ofWeights? (weights : List Nat) : Option PrefixCode := do
  let (last, log) ← lastWeight? weights
  let all := weights ++ [last]
  let least := all.count 1
  if least < 2 ∨ least % 2 = 1 then none
  let entries := (List.range' 1 log).flatMap fun weight =>
    all.zipIdx.flatMap fun (w, symbol) =>
      if w = weight then List.replicate (2 ^ (w - 1)) (symbol, log + 1 - w) else []
  some ⟨log, entries.toArray⟩

/-- Reads weights with two states in turn, until more bits were read than there are. The other
state then has one weight left. -/
def readWeights (table : StateTable) :
    (fuel : Nat) → (state other : Nat) → BackBits → (weights : List Nat) → Option (List Nat)
  | 0, _, _, _, _ => none
  | fuel + 1, state, other, bits, weights =>
    let weights := (table.cell state).symbol :: weights
    let (state, bits) := table.advance state bits
    if bits.overrun then some ((table.cell other).symbol :: weights).reverse
    else readWeights table fuel other state bits weights

def read? (bytes : ByteArray) (start stop : Nat) : Option (PrefixCode × Nat) := do
  if stop ≤ start then none
  let head := numberAt bytes start 1
  if 128 ≤ head then
    let count := head - 127
    let after := start + 1 + (count + 1) / 2
    if stop < after then none
    let weights := (List.range count).map fun i =>
      let pair := numberAt bytes (start + 1 + i / 2) 1
      if i % 2 = 0 then pair / 16 else pair % 16
    some (← ofWeights? weights, after)
  else
    let after := start + 1 + head
    if stop < after then none
    let (table, body) ← StateTable.read? bytes (start + 1) after 255 6
    let bits ← BackBits.open? bytes body after
    let (state, bits) := table.openState bits
    let (other, bits) := table.openState bits
    if bits.overrun then none
    some (← ofWeights? (← readWeights table 254 state other bits []), after)

def decodeOnto (code : PrefixCode) : (count : Nat) → BackBits → ByteArray → ByteArray × BackBits
  | 0, bits, output => (output, bits)
  | count + 1, bits, output =>
    let (symbol, width) := code.entries.getD (bits.peek code.log) (0, 0)
    decodeOnto code count (bits.skip width) (output.push (UInt8.ofNat symbol))

def stream? (code : PrefixCode) (bytes : ByteArray) (start stop count : Nat)
    (output : ByteArray) : Option ByteArray := do
  let bits ← BackBits.open? bytes start stop
  let (output, bits) := code.decodeOnto count bits output
  if bits.exhausted then some output else none

/-- Appends `count` symbols of a long stream that ends at `stop`. Only its end matters: bits may be
left over, and bits that are missing are taken from the bytes before, from `start` on. -/
def longStream (code : PrefixCode) (bytes : ByteArray) (start stop count : Nat)
    (output : ByteArray) : ByteArray :=
  (code.decodeOnto count (BackBits.endingAt bytes start stop) output).1

def streams? (code : PrefixCode) (bytes : ByteArray) (start stop count : Nat) :
    Option ByteArray := do
  if stop < start + 10 then none
  let share := (count + 3) / 4
  let a := start + 6
  let b := a + numberAt bytes start 2
  let c := b + numberAt bytes (start + 2) 2
  let d := c + numberAt bytes (start + 4) 2
  if stop < d ∨ count < 3 * share then none
  let long := code.log ≤ 11 ∧ a + 8 ≤ b ∧ b + 8 ≤ c ∧ c + 8 ≤ d ∧ d + 8 ≤ stop
    ∧ 3 * share < count
  if long then
    let output := code.longStream bytes start b share .empty
    let output := code.longStream bytes start c share output
    let output := code.longStream bytes start d share output
    some (code.longStream bytes start stop (count - 3 * share) output)
  else
    let output ← code.stream? bytes a b share .empty
    let output ← code.stream? bytes b c share output
    let output ← code.stream? bytes c d share output
    code.stream? bytes d stop (count - 3 * share) output

end PrefixCode

structure Literals where
  bytes : ByteArray
  code : Option PrefixCode
  stop : Nat

namespace Literals

def readCoded? (bytes : ByteArray) (start stop most : Nat) (fresh : Bool)
    (previous : Option PrefixCode) : Option Literals := do
  if stop < start + 5 then none
  let format := bitsAt bytes start stop 2 2
  let (header, width) := match format with
    | 0 | 1 => (3, 10)
    | 2 => (4, 14)
    | _ => (5, 18)
  let count := bitsAt bytes start stop 4 width
  let length := bitsAt bytes start stop (4 + width) width
  let body := start + header
  let after := body + length
  if most < count ∨ stop < after ∨ (format ≠ 0 ∧ count < 6) then none
  let (code, body) ← if fresh then PrefixCode.read? bytes body after
    else previous.map fun code => (code, body)
  if after ≤ body then none
  let output ← if format = 0 then code.stream? bytes body after count .empty
    else code.streams? bytes body after count
  some ⟨output, some code, after⟩

def read? (bytes : ByteArray) (start stop most : Nat) (previous : Option PrefixCode) :
    Option Literals := do
  let kind := bitsAt bytes start stop 0 2
  if 2 ≤ kind then readCoded? bytes start stop most (kind = 2) previous
  else
    let (header, count) := match bitsAt bytes start stop 2 2 with
      | 1 => (2, bitsAt bytes start stop 4 12)
      | 3 => (3, bitsAt bytes start stop 4 20)
      | _ => (1, bitsAt bytes start stop 3 5)
    let body := start + header
    let after := body + if kind = 0 then count else 1
    if most < count ∨ stop < after then none
    let output :=
      if kind = 0 then bytes.extract body after
      else ⟨Array.replicate count ((bytes[body]?).getD 0)⟩
    some ⟨output, previous, after⟩

end Literals

end CellStore.Zstd
