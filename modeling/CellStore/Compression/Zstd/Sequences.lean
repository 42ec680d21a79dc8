import CellStore.Compression.Repeat
import CellStore.Compression.Zstd.StateTable

/-! The sequences of a compressed block: how literals and copies of earlier output alternate. -/

namespace CellStore.Zstd

/-- The tables that later blocks may use again, and the last three offsets. -/
structure History where
  literalLengths : Option StateTable
  offsets : Option StateTable
  matchLengths : Option StateTable
  recent : Nat × Nat × Nat

def History.start : History := ⟨none, none, none, 1, 4, 8⟩

/-- `count` literals, then a copy of `length` bytes from `offset` back. -/
structure Sequence where
  count : Nat
  length : Nat
  offset : Nat

namespace Sequences

def literalLengths : Array (Nat × Nat) :=
  ((List.range 16).map fun n => (n, 0)).toArray ++
    #[(16, 1), (18, 1), (20, 1), (22, 1), (24, 2), (28, 2), (32, 3), (40, 3), (48, 4), (64, 6),
      (128, 7), (256, 8), (512, 9), (1024, 10), (2048, 11), (4096, 12), (8192, 13), (16384, 14),
      (32768, 15), (65536, 16)]

def matchLengths : Array (Nat × Nat) :=
  ((List.range 32).map fun n => (n + 3, 0)).toArray ++
    #[(35, 1), (37, 1), (39, 1), (41, 1), (43, 2), (47, 2), (51, 3), (59, 3), (67, 4), (83, 4),
      (99, 5), (131, 7), (259, 8), (515, 9), (1027, 10), (2051, 11), (4099, 12), (8195, 13),
      (16387, 14), (32771, 15), (65539, 16)]

def rare (n : Nat) : Shares := List.replicate n none

def defaultLiteralLengths : StateTable :=
  .ofShares 6 (([4, 3, 2, 2, 2, 2, 2, 2, 2, 2, 2, 2, 2, 1, 1, 1, 2, 2, 2, 2, 2, 2, 2, 2, 2, 3, 2,
    1, 1, 1, 1, 1].map some) ++ rare 4)

def defaultMatchLengths : StateTable :=
  .ofShares 6 (([1, 4, 3, 2, 2, 2, 2, 2, 2].map some) ++ List.replicate 37 (some 1) ++ rare 7)

def defaultOffsets : StateTable :=
  .ofShares 5 (([1, 1, 1, 1, 1, 1, 2, 2, 2].map some) ++ List.replicate 15 (some 1) ++ rare 5)

def table? (bytes : ByteArray) (start stop way most mostLog : Nat) (standard : StateTable)
    (previous : Option StateTable) : Option (StateTable × Nat) :=
  match way with
  | 0 => some (standard, start)
  | 1 =>
    if stop ≤ start ∨ most < numberAt bytes start 1 then none
    else some (.constant (numberAt bytes start 1), start + 1)
  | 2 => StateTable.read? bytes start stop most mostLog
  | _ => previous.map fun table => (table, start)

def count? (bytes : ByteArray) (start stop : Nat) : Option (Nat × Nat) :=
  let head := numberAt bytes start 1
  let width := if head < 128 then 1 else if head < 255 then 2 else 3
  if stop < start + width then none
  else
    let count := match width with
      | 1 => head
      | 2 => (head - 128) * 256 + numberAt bytes (start + 1) 1
      | _ => numberAt bytes (start + 1) 2 + 0x7F00
    some (count, start + width)

/-- The offset that a code and its extra bits stand for, and the recent offsets after it. Codes
below 4 name a recent offset, one further on when there are no literals. -/
def offset (code : Nat) (noLiterals : Bool) (recent : Nat × Nat × Nat) :
    Nat × Nat × Nat × Nat :=
  let (a, b, c) := recent
  if 3 < code then (code - 3, code - 3, a, b)
  else
    match code + (if noLiterals then 1 else 0) with
    | 1 => (a, a, b, c)
    | 2 => (b, b, a, c)
    | 3 => (c, c, a, b)
    | _ => (a - 1, a - 1, a, b)

structure States where
  literalLength : Nat
  offset : Nat
  matchLength : Nat

def read (ll om ml : StateTable) : (count : Nat) → States → BackBits → (Nat × Nat × Nat) →
    List Sequence → List Sequence × (Nat × Nat × Nat) × BackBits
  | 0, _, bits, recent, found => (found, recent, bits)
  | count + 1, states, bits, recent, found =>
    let power := (om.cell states.offset).symbol
    let (mlBase, mlBits) := matchLengths.getD (ml.cell states.matchLength).symbol (0, 0)
    let (llBase, llBits) := literalLengths.getD (ll.cell states.literalLength).symbol (0, 0)
    let (low, bits) := bits.read power
    let (mlExtra, bits) := bits.read mlBits
    let (llExtra, bits) := bits.read llBits
    let literals := llBase + llExtra
    let (offset, recent) := offset (2 ^ power + low) (literals = 0) recent
    let found := ⟨literals, mlBase + mlExtra, offset⟩ :: found
    if count = 0 then (found, recent, bits)
    else
      let (l, bits) := ll.advance states.literalLength bits
      let (m, bits) := ml.advance states.matchLength bits
      let (o, bits) := om.advance states.offset bits
      read ll om ml count ⟨l, o, m⟩ bits recent found

def read? (bytes : ByteArray) (start stop : Nat) (history : History) :
    Option (List Sequence × History) := do
  if stop ≤ start then none
  let (count, start) ← count? bytes start stop
  if count = 0 then
    if start = stop then some ([], history) else none
  else
    if stop ≤ start then none
    let ways := numberAt bytes start 1
    if ways % 4 ≠ 0 then none
    let (ll, start) ← table? bytes (start + 1) stop (ways / 64) 35 9 defaultLiteralLengths
      history.literalLengths
    let (om, start) ← table? bytes start stop (ways / 16 % 4) 31 8 defaultOffsets history.offsets
    let (ml, start) ← table? bytes start stop (ways / 4 % 4) 52 9 defaultMatchLengths
      history.matchLengths
    let bits ← BackBits.open? bytes start stop
    let (l, bits) := ll.openState bits
    let (o, bits) := om.openState bits
    let (m, bits) := ml.openState bits
    let (found, recent, bits) := read ll om ml count ⟨l, o, m⟩ bits history.recent []
    if bits.exhausted then some (found.reverse, ⟨some ll, some om, some ml, recent⟩) else none

/-- Appends literals and copies, and at the end the literals that are left. Copies reach back to
`floor` at most, and no more than `most` bytes are appended. -/
def run (literals : ByteArray) (floor most : Nat) :
    List Sequence → (used : Nat) → ByteArray → Option ByteArray
  | [], used, output =>
    let rest := literals.size - used
    if most < rest then none else some (output ++ literals.extract used literals.size)
  | s :: sequences, used, output =>
    let length := s.count + s.length
    if literals.size < used + s.count ∨ most < length ∨ s.offset = 0
        ∨ output.size + s.count < floor + s.offset then none
    else
      let output := output ++ literals.extract used (used + s.count)
      run literals floor (most - length) sequences (used + s.count)
        (Compression.repeatBack s.offset s.length output)

end Sequences

end CellStore.Zstd
