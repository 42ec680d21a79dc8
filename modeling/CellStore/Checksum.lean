import CellStore.Checksum.Crc
import CellStore.Error
import CellStore.Pieces

/-! Checksums of a block: one for each chunk of a given size of the block's header and payload,
stored one after another. -/

namespace CellStore

inductive ChecksumKind
  | null
  | crc32
  | crc32c
  deriving DecidableEq

namespace ChecksumKind

def id : ChecksumKind → Nat
  | null => 0
  | crc32 => 1
  | crc32c => 2

def ofId : Nat → Decoded ChecksumKind
  | 0 => .ok null
  | 1 => .ok crc32
  | 2 => .ok crc32c
  | id => .error (.unsupportedChecksum id)

@[simp] theorem ofId_id (kind : ChecksumKind) : ofId kind.id = .ok kind := by
  cases kind <;> rfl

def compute : ChecksumKind → Bytes → UInt32
  | null, _ => 0
  | crc32, bytes => Crc.sum Crc.ieee bytes
  | crc32c, bytes => Crc.sum Crc.castagnoli bytes

end ChecksumKind

namespace Checksum

def sumsLength (length chunkSize : Nat) : Nat := (length + chunkSize - 1) / chunkSize * 4

def check (kind : ChecksumKind) : (index : Nat) → List Bytes → (sums : Bytes) → Decoded Unit
  | _, [], _ => .ok ()
  | index, chunk :: chunks, sums =>
    let stored := UInt32.ofNat (Bytes.toNat (sums.take 4))
    let computed := kind.compute chunk
    if computed = stored then check kind (index + 1) chunks (sums.drop 4)
    else .error (.checksumMismatch index stored computed)

def verify (kind : ChecksumKind) (chunkSize : Nat) (header payload sums : Bytes) :
    Decoded Unit :=
  if kind = .null then .ok ()
  else if chunkSize = 0 then .error (.flawed .emptyChecksumChunks)
  else
    let covered := header ++ payload
    let needed := sumsLength covered.length chunkSize
    if sums.length < needed then .error (.truncated "block checksums" needed sums.length)
    else check kind 0 (pieces chunkSize covered) sums

def sums (kind : ChecksumKind) (chunkSize : Nat) (covered : Bytes) : Bytes :=
  (pieces chunkSize covered).flatMap fun chunk => Bytes.ofNat 4 (kind.compute chunk).toNat

end Checksum

end CellStore
