import CellStore.Block.Header
import CellStore.Checksum
import CellStore.Compression
import CellStore.Source

namespace CellStore

structure Block where
  header : BlockHeader
  kind : BlockKind
  offset : Nat
  data : Bytes

namespace Block

/-- The block with these parts. Checksums are verified before anything else in it is trusted. -/
def ofParts (headerBytes : Bytes) (header : BlockHeader) (onDisk : Bytes) (offset : Nat)
    (codec : Codec) : Decoded Block := do
  let dataSize ← header.dataSize
  let checksumKind ← ChecksumKind.ofId header.checksumKind
  let payload := onDisk.take dataSize
  Checksum.verify checksumKind header.checksumChunk headerBytes payload (onDisk.drop dataSize)
  let kind ← header.kind
  let data ← codec.decompress header.uncompressedSize payload
  return ⟨header, kind, offset, data⟩

def parse (bytes : Bytes) (offset : Nat) (codec : Codec) : Decoded Block := do
  let header ← BlockHeader.parse bytes
  let stop := header.onDiskSizeWithHeader
  let whole := bytes.take stop
  if whole.length < stop then
    throw (.truncated "block body" stop bytes.length)
  ofParts (bytes.take BlockHeader.size) header (whole.drop BlockHeader.size) offset codec

section

variable {m : Type → Type} [Monad m] [MonadExceptOf ReadError m] [MonadLift Decoded m]
  [SourceReader m]

/-- The `length` bytes at `offset`, once they are known to be there. The bytes needed are counted
in 64 bits. -/
def fetch (source : Source) (what : String) (offset length : Nat) : m Bytes := do
  if source.size < offset + length then
    throw (.format (.truncated what (min (offset + length) 0xFFFF_FFFF_FFFF_FFFF) source.size))
  SourceReader.readAt source offset length

def readHeader (source : Source) (offset : Nat) : m BlockHeader := do
  let bytes ← fetch source "block header" offset BlockHeader.size
  BlockHeader.parse bytes

def read (source : Source) (offset : Nat) (codec : Codec) : m Block := do
  let headerBytes ← fetch source "block header" offset BlockHeader.size
  let header ← BlockHeader.parse headerBytes
  let onDisk ← fetch source "block body" (offset + BlockHeader.size) header.onDiskSize
  ofParts headerBytes header onDisk offset codec

end

def expect (block : Block) (kinds : List BlockKind) : Decoded Unit :=
  if block.kind ∈ kinds then .ok () else .error (.unexpectedBlock kinds block.kind)

def next (block : Block) : Nat := block.offset + block.header.onDiskSizeWithHeader

end Block

end CellStore
