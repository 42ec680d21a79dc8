import CellStore.Compression.Frames

/-! Expanding frames into one output in two loops, one over the frames and one over the chunks of
each. How much of a frame is missing is told by the length of the output alone. -/

namespace CellStore.Frames

def readChunk (input : Input) : Decoded (Bytes × Input) := do
  let (length, input) ← input.number "compressed chunk length" 4
  input.take "compressed chunk" length

theorem length_of_readChunk {input after : Input} {chunk : Bytes}
    (read : readChunk input = .ok (chunk, after)) : after.rest.length < input.rest.length := by
  rw [readChunk] at read
  cases number : input.number "compressed chunk length" 4 with
  | error e =>
    rw [number] at read
    cases read
  | ok result =>
    rw [number] at read
    have := Input.length_of_number number
    have := Input.length_of_take read
    omega

def fill (decode : ChunkDecoder) (stop : Nat) (output : Bytes) (input : Input) :
    Decoded (Bytes × Input) :=
  if output.length < stop then
    match _read : readChunk input with
    | .ok (chunk, after) =>
      match decode (stop - output.length) chunk with
      | .ok expanded => fill decode stop (output ++ expanded) after
      | .error e => .error e
    | .error e => .error e
  else .ok (output, input)
termination_by input.rest.length
decreasing_by exact length_of_readChunk _read

theorem length_of_fill {decode : ChunkDecoder} {stop : Nat} {output full : Bytes}
    {input after : Input} (filled : fill decode stop output input = .ok (full, after)) :
    after.rest.length ≤ input.rest.length := by
  fun_induction fill decode stop output input with
  | case1 output input short chunk next read expanded decoded ih =>
    have := length_of_readChunk read
    have := ih filled
    omega
  | case2 | case3 => cases filled
  | case4 =>
    cases filled
    exact Nat.le_refl _

def room? (declared : Nat) (output : Bytes) : Option Nat :=
  if output.length ≤ declared then some (declared - output.length) else none

def expand (decode : ChunkDecoder) (declared : Nat) (output : Bytes) (input : Input) :
    Option (Decoded Bytes) :=
  if input.rest.isEmpty then some (.ok output)
  else
    match _head : input.number "compressed block length" 4 with
    | .ok (length, inside) =>
      match room? declared output with
      | none => none
      | some room =>
        if room < length then some (.error (.undecodable (.longFrame length declared)))
        else
          match _filled : fill decode (output.length + length) output inside with
          | .ok (output, after) => expand decode declared output after
          | .error e => some (.error e)
    | .error e => some (.error e)
termination_by input.rest.length
decreasing_by
  have := Input.length_of_number _head
  have := length_of_fill _filled
  omega

def decodeNested (decode : ChunkDecoder) (declared : Nat) (bytes : Bytes) :
    Option (Decoded Bytes) :=
  expand decode declared [] (.ofBytes bytes)

end CellStore.Frames
