import CellStore.Error
import CellStore.Text.Utf8

/-! Block headers: `magic(8) onDiskSize(4) uncompressedSize(4) previousOffset(8) checksumKind(1)
checksumChunkSize(4) dataSizeWithHeader(4)`. The sizes leave out the header, except the last. -/

namespace CellStore

namespace BlockKind

def ofMagic (bytes : Bytes) : Decoded BlockKind :=
  let magic := bytes.take 8
  if magic.length < 8 then .error (.flawed (.shortMagic bytes.length))
  else
    match ofMagic? magic with
    | some kind => .ok kind
    | none => .error (.wrongMagic "valid block magic" (Utf8.decodeLossy magic))

def checkMagic (kind : BlockKind) (bytes : Bytes) : Decoded Unit :=
  let magic := bytes.take 8
  if magic.length < 8 then .error (.flawed (.shortBlock bytes.length))
  else if magic = kind.magic then .ok ()
  else .error (.wrongMagic (Utf8.decodeLossy kind.magic) (Utf8.decodeLossy magic))

end BlockKind

/-- A header as it is stored. The magic may be that of no kind: damage to it is to be found by the
checksums first. -/
structure BlockHeader where
  magic : Bytes
  onDiskSize : Nat
  uncompressedSize : Nat
  /-- Where the block before of this kind starts, or -1. -/
  previous : Int
  checksumKind : Nat
  checksumChunk : Nat
  dataSizeWithHeader : Nat
  deriving DecidableEq

namespace BlockHeader

def size : Nat := 33

def sizeField (bytes : Bytes) (offset : Nat) (field : String) : Decoded Nat :=
  let value := Bytes.toInt ((bytes.drop offset).take 4)
  if value < 0 then .error (.flawed (.negativeField field value)) else .ok value.toNat

def parse (bytes : Bytes) : Decoded BlockHeader := do
  if (bytes.take size).length < size then
    throw (.truncated "block header" size bytes.length)
  let onDiskSize ← sizeField bytes 8 "on-disk size"
  let uncompressedSize ← sizeField bytes 12 "uncompressed size"
  let previous := Bytes.toInt ((bytes.drop 16).take 8)
  let checksumKind := Bytes.toNat ((bytes.drop 24).take 1)
  let checksumChunk ← sizeField bytes 25 "bytes per checksum"
  let dataSizeWithHeader ← sizeField bytes 29 "on-disk data size"
  return ⟨bytes.take 8, onDiskSize, uncompressedSize, previous, checksumKind, checksumChunk,
    dataSizeWithHeader⟩

def encode (header : BlockHeader) : Bytes :=
  header.magic ++ Bytes.ofNat 4 header.onDiskSize ++ Bytes.ofNat 4 header.uncompressedSize
    ++ Bytes.ofInt 8 header.previous ++ Bytes.ofNat 1 header.checksumKind
    ++ Bytes.ofNat 4 header.checksumChunk ++ Bytes.ofNat 4 header.dataSizeWithHeader

def kind (header : BlockHeader) : Decoded BlockKind := BlockKind.ofMagic header.magic

def onDiskSizeWithHeader (header : BlockHeader) : Nat := size + header.onDiskSize

def dataSize (header : BlockHeader) : Decoded Nat :=
  if size ≤ header.dataSizeWithHeader
      ∧ header.dataSizeWithHeader - size ≤ header.onDiskSize then
    .ok (header.dataSizeWithHeader - size)
  else .error (.flawed (.wrongDataSize header.dataSizeWithHeader header.onDiskSize))

end BlockHeader

end CellStore
