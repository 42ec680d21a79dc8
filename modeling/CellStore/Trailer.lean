import CellStore.Block
import CellStore.Message.TrailerFields

/-! Trailers, the last 4096 bytes of a file: the magic, a message after its length, padding, and a
version word `minor(1) major(3)`. -/

namespace CellStore

structure Trailer where
  major : Nat
  minor : Nat
  fileInfoOffset : Nat
  loadOnOpenOffset : Nat
  uncompressedIndexSize : Nat
  totalUncompressedBytes : Nat
  dataIndexCount : Nat
  metaIndexCount : Nat
  entryCount : Nat
  indexLevels : Nat
  firstDataOffset : Nat
  lastDataOffset : Nat
  comparator : String
  codec : Codec
  deriving DecidableEq

namespace Trailer

def size : Nat := 4096

def supportedMajor : Nat := 3

def start (fileSize : Nat) : Nat := fileSize - size

/-- The trailer with these fields. What is missing is 0 or empty, except the number of index levels
and the codec. -/
def ofFields (major minor : Nat) (fields : TrailerFields) : Decoded Trailer := do
  let codec ← fields.codecId.elim (.ok .stored) Codec.ofId
  return {
    major
    minor
    fileInfoOffset := fields.fileInfoOffset.getD 0
    loadOnOpenOffset := fields.loadOnOpenOffset.getD 0
    uncompressedIndexSize := fields.uncompressedIndexSize.getD 0
    totalUncompressedBytes := fields.totalUncompressedBytes.getD 0
    dataIndexCount := fields.dataIndexCount.getD 0
    metaIndexCount := fields.metaIndexCount.getD 0
    entryCount := fields.entryCount.getD 0
    indexLevels := fields.indexLevels.getD 1
    firstDataOffset := fields.firstDataOffset.getD 0
    lastDataOffset := fields.lastDataOffset.getD 0
    comparator := fields.comparator.getD ""
    codec
  }

def parse (bytes : Bytes) (fileSize : Nat) : Decoded Trailer := do
  if bytes.length ≠ size then
    throw (.truncated "trailer" size bytes.length)
  BlockKind.trailer.checkMagic bytes
  let version := bytes.drop (size - 4)
  let minor := Bytes.toNat (version.take 1)
  let major := Bytes.toNat (version.drop 1)
  if major ≠ supportedMajor then
    throw (.unsupportedVersion major minor)
  let body := (bytes.drop 8).take (size - 12)
  match (Wire.delimited? body).bind TrailerFields.decode? with
  | none => throw .badMessage
  | some fields =>
    let trailer ← ofFields major minor fields
    if start fileSize ≤ trailer.loadOnOpenOffset then
      throw (.flawed (.loadOnOpenPastTrailer trailer.loadOnOpenOffset (start fileSize)))
    return trailer

def encode (fields : TrailerFields) (minor : UInt8) : Bytes :=
  let body := (BlockKind.trailer.magic ++ Wire.writeDelimited fields.encode).take (size - 4)
  body ++ List.replicate (size - 4 - body.length) 0 ++ minor :: Bytes.ofNat 3 supportedMajor

def read {m : Type → Type} [Monad m] [MonadExceptOf ReadError m] [MonadLift Decoded m]
    [SourceReader m] (source : Source) : m Trailer := do
  if source.size < size then
    throw (.format (.truncated "trailer" size source.size))
  let bytes ← SourceReader.readAt source (start source.size) size
  parse bytes source.size

end Trailer

end CellStore
