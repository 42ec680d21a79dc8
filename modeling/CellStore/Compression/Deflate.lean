import CellStore.Bytes

namespace CellStore.Deflate

inductive Halt
  | enough
  | starved
  | invalid

structure Task where
  input : ByteArray
  /-- Number of bytes after which the output may stop. -/
  wanted : Nat
  /-- Length of the output before the stream. -/
  start : Nat

structure State where
  position : Nat
  output : ByteArray

abbrev Inflate := ReaderT Task (EStateM Halt State)

/-- The next `n` bits, at most 16 of them, as a number whose lowest bit comes first. -/
def bits (n : Nat) : Inflate Nat := do
  let input := (← read).input
  let position := (← get).position
  if 8 * input.size < position + n then
    throw .starved
  let at8 (i : Nat) : Nat := ((input[position / 8 + i]?).getD 0).toNat
  let word := at8 0 + 256 * at8 1 + 65536 * at8 2
  modify ({ · with position := position + n })
  return word / 2 ^ (position % 8) % 2 ^ n

/-- The output stops only where a window of 32 KiB is full. -/
def emit (b : UInt8) : Inflate Unit := do
  modify fun s => { s with output := s.output.push b }
  let task ← read
  let size := (← get).output.size
  if (size - task.start) % 32768 = 0 ∧ task.wanted ≤ size then
    throw .enough

/-- Repeats the byte `distance` back; before the stream there are zeros. -/
def emitBack (distance : Nat) : Inflate Unit := do
  let task ← read
  let output := (← get).output
  let b := if output.size - task.start < distance then 0
    else (output[output.size - distance]?).getD 0
  emit b

/-- A canonical prefix code: how many codes there are of each length from 1 on, and the symbols
in the order of their codes. -/
structure Code where
  counts : List Nat
  symbols : Array Nat

/-- The code whose symbol `i` has a code of `lengths[i]` bits, or none when that is 0. A code of
more than one symbol has to be complete. -/
def Code.ofLengths? (lengths : List Nat) : Option Code :=
  let byLength : List (List Nat) := (List.range' 1 15).map fun length =>
    lengths.zipIdx.filterMap fun (l, symbol) => if l = length then some symbol else none
  let symbols := byLength.flatten
  let counts := byLength.map (·.length)
  let total : Nat := counts.foldl (fun total count => 2 * total + count) 0
  if total = 0x8000 ∨ symbols.length ≤ 1 then some ⟨counts, symbols.toArray⟩ else none

/-- Reads a symbol bit by bit: of the codes of the current length, the lowest is `first`, and its
symbol is number `index`. -/
def Code.decodeFrom (symbols : Array Nat) : List Nat → (code first index : Nat) → Inflate Nat
  | [], _, _, _ => throw .invalid
  | count :: counts, code, first, index => do
    let code := 2 * code + (← bits 1)
    let first := 2 * first
    if code < first + count then
      match symbols[index + (code - first)]? with
      | some symbol => return symbol
      | none => throw .invalid
    else decodeFrom symbols counts code (first + count) (index + count)

def Code.decode (code : Code) : Inflate Nat := decodeFrom code.symbols code.counts 0 0 0

/-- Shortest match and number of extra bits of each length symbol, from symbol 257 on. -/
def lengths : Array (Nat × Nat) :=
  #[(3, 0), (4, 0), (5, 0), (6, 0), (7, 0), (8, 0), (9, 0), (10, 0), (11, 1), (13, 1), (15, 1),
    (17, 1), (19, 2), (23, 2), (27, 2), (31, 2), (35, 3), (43, 3), (51, 3), (59, 3), (67, 4),
    (83, 4), (99, 4), (115, 4), (131, 5), (163, 5), (195, 5), (227, 5), (258, 0)]

/-- Shortest distance and number of extra bits of each distance symbol. -/
def distances : Array (Nat × Nat) :=
  #[(1, 0), (2, 0), (3, 0), (4, 0), (5, 1), (7, 1), (9, 2), (13, 2), (17, 3), (25, 3), (33, 4),
    (49, 4), (65, 5), (97, 5), (129, 6), (193, 6), (257, 7), (385, 7), (513, 8), (769, 8),
    (1025, 9), (1537, 9), (2049, 10), (3073, 10), (4097, 11), (6145, 11), (8193, 12),
    (12289, 12), (16385, 13), (24577, 13)]

def extended (table : Array (Nat × Nat)) (symbol : Nat) : Inflate Nat :=
  match table[symbol]? with
  | some (base, extra) => return base + (← bits extra)
  | none => throw .invalid

def symbols (literals distance : Code) : (fuel : Nat) → Inflate Unit
  | 0 => throw .starved
  | fuel + 1 => do
    let symbol ← literals.decode
    if symbol < 256 then
      emit (UInt8.ofNat symbol)
      symbols literals distance fuel
    else if symbol = 256 then
      return
    else
      let length ← extended lengths (symbol - 257)
      let back ← extended distances (← distance.decode)
      for _ in [0:length] do
        emitBack back
      symbols literals distance fuel

def fixedLiterals : List Nat :=
  List.replicate 144 8 ++ List.replicate 112 9 ++ List.replicate 24 7 ++ List.replicate 8 8

def codeOf (lengths : List Nat) : Inflate Code :=
  match Code.ofLengths? lengths with
  | some code => return code
  | none => throw .invalid

def lengthOrder : List Nat :=
  [16, 17, 18, 0, 8, 7, 9, 6, 10, 5, 11, 4, 12, 3, 13, 2, 14, 1, 15]

/-- Reads `count` code lengths, the last one first in the result. A symbol above 15 repeats a
length or zero. -/
def codeLengths (code : Code) (count : Nat) : (fuel : Nat) → List Nat → Inflate (List Nat)
  | 0, _ => throw .invalid
  | fuel + 1, found => do
    if found.length = count then
      return found
    if count < found.length then
      throw .invalid
    let symbol ← code.decode
    if symbol < 16 then
      codeLengths code count fuel (symbol :: found)
    else if symbol = 16 then
      match found with
      | [] => throw .invalid
      | last :: _ =>
        codeLengths code count fuel (List.replicate ((← bits 2) + 3) last ++ found)
    else
      let zeros ← if symbol = 17 then (· + 3) <$> bits 3 else (· + 11) <$> bits 7
      codeLengths code count fuel (List.replicate zeros 0 ++ found)

def dynamicCodes : Inflate (Code × Code) := do
  let literalCount := (← bits 5) + 257
  let distanceCount := (← bits 5) + 1
  let lengthCount := (← bits 4) + 4
  if 286 < literalCount ∨ 30 < distanceCount then
    throw .invalid
  let given ← (lengthOrder.take lengthCount).mapM fun symbol => return (symbol, ← bits 3)
  let lengthCode ← codeOf ((List.range 19).map fun symbol => (given.lookup symbol).getD 0)
  let total := literalCount + distanceCount
  let all := (← codeLengths lengthCode total (total + 1) []).reverse
  return (← codeOf (all.take literalCount), ← codeOf (all.drop literalCount))

def stored : Inflate Unit := do
  modify fun s => { s with position := (s.position + 7) / 8 * 8 }
  let length ← bits 16
  let complement ← bits 16
  if length + complement ≠ 65535 then
    throw .invalid
  for _ in [0:length] do
    emit (UInt8.ofNat (← bits 8))

def blocks : (fuel : Nat) → Inflate Unit
  | 0 => throw .starved
  | fuel + 1 => do
    let last ← bits 1
    match ← bits 2 with
    | 0 => stored
    | 1 => do
      symbols (← codeOf fixedLiterals) (← codeOf (List.replicate 32 5)) (8 * (← read).input.size)
    | 2 => do
      let (literals, distance) ← dynamicCodes
      symbols literals distance (8 * (← read).input.size)
    | _ => throw .invalid
    if last = 1 then return else blocks fuel

inductive Outcome
  /-- At the end of the stream; `used` is its length in bytes. -/
  | finished (used : Nat) (output : ByteArray)
  | halted (halt : Halt) (output : ByteArray)

def inflate (input : ByteArray) (wanted : Nat) (output : ByteArray) : Outcome :=
  match (blocks (8 * input.size)).run ⟨input, wanted, output.size⟩ |>.run ⟨0, output⟩ with
  | .ok _ s => .finished ((s.position + 7) / 8) s.output
  | .error halt s => .halted halt s.output

end CellStore.Deflate
