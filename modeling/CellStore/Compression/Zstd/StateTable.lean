import CellStore.Compression.Zstd.Bits

namespace CellStore.Zstd

/-- What a state stands for, and how the next state follows from it: `base` plus the next `width`
bits. -/
structure StateCell where
  symbol : Nat
  width : Nat
  base : Nat
  deriving Inhabited

/-- The states of a decoder; there are `2 ^ log` of them. -/
structure StateTable where
  log : Nat
  cells : Array StateCell

/-- How many states each symbol has; a less than one state share is `none`. -/
abbrev Shares := List (Option Nat)

namespace StateTable

def constant (symbol : Nat) : StateTable := ⟨0, #[⟨symbol, 0, 0⟩]⟩

def nextPlace (size last : Nat) : (fuel place : Nat) → Nat
  | 0, place => place
  | fuel + 1, place =>
    let place := (place + size / 2 + size / 8 + 3) % size
    if place ≤ last then place else nextPlace size last fuel place

/-- The symbol of each state: rare symbols from the end down, the others spread over the rest. -/
def spread (size : Nat) (shares : Shares) : Array Nat := Id.run do
  let mut symbols := Array.replicate size 0
  let mut last := size
  for (share, symbol) in shares.zipIdx do
    if share.isNone then
      last := last - 1
      symbols := symbols.setIfInBounds last symbol
  let mut place := 0
  for (share, symbol) in shares.zipIdx do
    for _ in [0:share.getD 0] do
      symbols := symbols.setIfInBounds place symbol
      place := nextPlace size (last - 1) size place
  return symbols

def ofShares (log : Nat) (shares : Shares) : StateTable := Id.run do
  let size := 2 ^ log
  let mut next := (shares.map fun share => share.getD 1).toArray
  let mut cells := Array.emptyWithCapacity size
  for symbol in spread size shares do
    let number := (next[symbol]?).getD 1
    next := next.setIfInBounds symbol (number + 1)
    let width := log - number.log2
    cells := cells.push ⟨symbol, width, number * 2 ^ width - size⟩
  return ⟨log, cells⟩

def skipped (bytes : ByteArray) (start stop : Nat) : (fuel position count : Nat) → Nat × Nat
  | 0, position, count => (position, count)
  | fuel + 1, position, count =>
    let run := bitsAt bytes start stop position 2
    if run = 3 then skipped bytes start stop fuel (position + 2) (count + 3)
    else (position + 2, count + run)

/-- Reads the shares of symbols up to `most`, which leave one of `remaining`, last ones first. A
symbol without states is followed by the count of more such symbols. -/
def readShares (bytes : ByteArray) (start stop most : Nat) :
    (fuel position remaining : Nat) → (shares : Shares) → Option (Nat × Shares)
  | 0, _, _, _ => none
  | fuel + 1, position, remaining, shares =>
    if remaining = 1 then some (position, shares)
    else if most < shares.length then none
    else
      let log := remaining.log2
      let threshold := 2 ^ log
      let short := 2 * threshold - 1 - remaining
      let low := bitsAt bytes start stop position log
      let (code, position) :=
        if low < short then (low, position + log)
        else
          let code := bitsAt bytes start stop position (log + 1)
          (if threshold ≤ code then code - short else code, position + log + 1)
      match code with
      | 0 => readShares bytes start stop most fuel position (remaining - 1) (none :: shares)
      | 1 =>
        let (position, zeros) := skipped bytes start stop (most + 1) position 0
        readShares bytes start stop most fuel position remaining
          (List.replicate (zeros + 1) (some 0) ++ shares)
      | code =>
        readShares bytes start stop most fuel position (remaining - (code - 1))
          (some (code - 1) :: shares)

def read? (bytes : ByteArray) (start stop most mostLog : Nat) : Option (StateTable × Nat) := do
  if stop ≤ start then none
  let log := bitsAt bytes start stop 0 4 + 5
  if mostLog < log then none
  let (position, shares) ← readShares bytes start stop most (most + 2) 4 (2 ^ log + 1) []
  let length := (position + 7) / 8
  if stop < start + length ∨ most + 1 < shares.length then none
  some (ofShares log shares.reverse, start + length)

def cell (table : StateTable) (state : Nat) : StateCell := table.cells.getD state default

def openState (table : StateTable) (bits : BackBits) : Nat × BackBits := bits.read table.log

def advance (table : StateTable) (state : Nat) (bits : BackBits) : Nat × BackBits :=
  let cell := table.cell state
  let (low, bits) := bits.read cell.width
  (cell.base + low, bits)

end StateTable

end CellStore.Zstd
