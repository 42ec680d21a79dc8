import CellStore.Input
import CellStore.Pieces

/-! Compressed chunks in frames: `uncompressedLength(4) (chunkLength(4) chunk)*`, repeated until the
input ends. A frame ends as soon as its chunks have expanded to its length. -/

namespace CellStore.Frames

/-- Expands one chunk to no more bytes than the limit. -/
abbrev ChunkDecoder := (limit : Nat) → Bytes → Decoded Bytes

structure State where
  input : Input
  /-- Bytes that the frame still has to expand to. -/
  owed : Nat
  /-- Bytes that all frames after it may expand to. -/
  room : Nat
  chunks : List Bytes

def State.step (decode : ChunkDecoder) (declared : Nat) (s : State) : Decoded State :=
  if s.owed = 0 then do
    let (length, input) ← s.input.number "compressed block length" 4
    if s.room < length then
      throw (.undecodable (.longFrame length declared))
    return { s with input, owed := length, room := s.room - length }
  else do
    let (length, input) ← s.input.number "compressed chunk length" 4
    let (chunk, input) ← input.take "compressed chunk" length
    let expanded ← decode s.owed chunk
    return { s with input, owed := s.owed - expanded.length, chunks := expanded :: s.chunks }

/-- Each step takes four bytes at least. -/
def run (decode : ChunkDecoder) (declared : Nat) : (fuel : Nat) → State → Decoded State
  | 0, s => .ok s
  | fuel + 1, s =>
    if s.owed = 0 ∧ s.input.rest.isEmpty then .ok s
    else
      match s.step decode declared with
      | .ok s => run decode declared fuel s
      | .error e => .error e

def decode (decode : ChunkDecoder) (declared : Nat) (bytes : Bytes) : Decoded Bytes := do
  let s ← run decode declared (bytes.length + 1) ⟨Input.ofBytes bytes, 0, declared, []⟩
  return s.chunks.reverse.flatten

def frameSize : Nat := 65536

def encode (compress : Bytes → Bytes) (data : Bytes) : Bytes :=
  (pieces frameSize data).flatMap fun content =>
    let chunk := compress content
    Bytes.ofNat 4 content.length ++ Bytes.ofNat 4 chunk.length ++ chunk

end CellStore.Frames
