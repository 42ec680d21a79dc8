import CellStore.Compression.Codec
import CellStore.Compression.Frames
import CellStore.Compression.Gzip
import CellStore.Compression.Snappy
import CellStore.Compression.Zstd

namespace CellStore

namespace Compression

def gunzip (declared : Nat) (bytes : Bytes) : Decoded Bytes :=
  match Gzip.decompress? (declared + 1) bytes with
  | some expanded => .ok expanded
  | none => .error (.undecodable .gzip)

/-- Expands to one byte too many when there is more than `limit`. -/
def unzstd (limit : Nat) (bytes : Bytes) : Decoded Bytes :=
  match Zstd.decompress? (limit + 1) bytes with
  | some expanded => .ok expanded
  | none => .error (.undecodable .zstd)

def zstdChunk : Frames.ChunkDecoder := fun limit chunk => do
  let expanded ← unzstd limit chunk
  if limit < expanded.length then
    throw (.undecodable (.longZstdChunk limit))
  return expanded

def snappyChunk : Frames.ChunkDecoder := fun limit chunk => do
  if !chunk.isEmpty then
    match Snappy.outputLength? chunk with
    | none => throw (.undecodable .snappy)
    | some (length, _) =>
      if limit < length then
        throw (.undecodable (.longSnappyChunk length limit))
  match Snappy.decompress? chunk with
  | some expanded => return expanded
  | none => throw (.undecodable .snappy)

end Compression

def Codec.ofId (id : Nat) : Decoded Codec :=
  match ofId? id with
  | some codec => .ok codec
  | none => .error (.unsupportedCodec id)

open Compression in
/-- What `bytes` expand to, whatever its length. A zstd payload is one run of frames when it starts
like one, and otherwise chunks in frames of their own. -/
def Codec.expand (codec : Codec) (declared : Nat) (bytes : Bytes) : Decoded Bytes :=
  match codec with
  | .stored => .ok bytes
  | .gzip => gunzip declared bytes
  | .snappy => Frames.decode snappyChunk declared bytes
  | .zstd =>
    if Zstd.frameMagic.isPrefixOf bytes then unzstd declared bytes
    else Frames.decode zstdChunk declared bytes

def Codec.decompress (codec : Codec) (declared : Nat) (bytes : Bytes) : Decoded Bytes := do
  let expanded ← codec.expand declared bytes
  if expanded.length ≠ declared then
    throw (.flawed (.wrongSize codec expanded.length declared))
  return expanded

end CellStore
