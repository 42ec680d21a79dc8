import CellStore.Block
import CellStore.Compression.Packing
import CellStore.Index

namespace CellStore

structure BlockForm where
  packing : Packing
  checksumKind : ChecksumKind
  /-- How many bytes share a checksum; 0 leaves the checksums out. -/
  checksumChunk : Nat

namespace BlockForm

def checked (form : BlockForm) : Bool := form.checksumKind ≠ .null && 0 < form.checksumChunk

def encode (form : BlockForm) (kind : BlockKind) (previous : Option Nat) (payload : Bytes) :
    Bytes :=
  let body := form.packing.compress payload
  let dataSizeWithHeader := BlockHeader.size + body.length
  let sumsLength :=
    if form.checked then Checksum.sumsLength dataSizeWithHeader form.checksumChunk else 0
  let header : BlockHeader := {
    magic := kind.magic
    onDiskSize := body.length + sumsLength
    uncompressedSize := payload.length
    previous := previous.elim (-1) Int.ofNat
    checksumKind := form.checksumKind.id
    checksumChunk := form.checksumChunk
    dataSizeWithHeader
  }
  let covered := header.encode ++ body
  covered ++
    if form.checked then Checksum.sums form.checksumKind form.checksumChunk covered else []

end BlockForm

structure Place where
  offset : Nat
  /-- On disk, with the header. -/
  size : Nat
  deriving DecidableEq

def IndexEntry.place (entry : IndexEntry) : Place := ⟨entry.offset, entry.size⟩

structure BlockWriter where
  form : BlockForm
  bytes : Bytes
  /-- Where blocks of each kind start, the last one first. -/
  starts : List (BlockKind × Nat)
  /-- Size of all blocks with their headers before they were packed. -/
  uncompressedBytes : Nat

namespace BlockWriter

def start (form : BlockForm) : BlockWriter := ⟨form, [], [], 0⟩

def append (writer : BlockWriter) (kind : BlockKind) (payload : Bytes) : Place × BlockWriter :=
  let offset := writer.bytes.length
  let block := writer.form.encode kind (writer.starts.lookup kind) payload
  (⟨offset, block.length⟩,
    { writer with
      bytes := writer.bytes ++ block
      starts := (kind, offset) :: writer.starts
      uncompressedBytes := writer.uncompressedBytes + BlockHeader.size + payload.length })

def appendAll (kind : BlockKind) :
    List (Bytes × Bytes) → BlockWriter → List IndexEntry × BlockWriter
  | [], writer => ([], writer)
  | (key, payload) :: blocks, writer =>
    let (place, writer) := writer.append kind payload
    let (entries, writer) := appendAll kind blocks writer
    (⟨place.offset, place.size, key⟩ :: entries, writer)

end BlockWriter

end CellStore
