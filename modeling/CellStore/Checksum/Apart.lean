import CellStore.Checksum
import CellStore.Input

/-! Checksums of a header and a payload that stay apart: a chunk that holds the end of the one and
the start of the other is checked part by part. -/

namespace CellStore

def Crc.extend (polynomial sum : UInt32) (part : Bytes) : UInt32 :=
  ~~~ part.foldl (step polynomial) (~~~ sum)

def ChecksumKind.computeParts : ChecksumKind → List Bytes → UInt32
  | null, _ => 0
  | crc32, parts => parts.foldl (Crc.extend Crc.ieee) 0
  | crc32c, parts => parts.foldl (Crc.extend Crc.castagnoli) 0

namespace Checksum

def parts? (header payload : Bytes) (start stop : Nat) : Option (List Bytes) := do
  let split := header.length
  let first ← header.slice? (min start split) (min stop split - min start split)
  let second ← payload.slice? (start - split) (stop - split - (start - split))
  return [first, second]

/-- Compares the chunks from `start` on, the first of them being number `index`, with their stored
checksums. Gives nothing when a chunk reaches out of the bytes. -/
def checkApart (kind : ChecksumKind) (chunkSize : Nat) (pos : 0 < chunkSize)
    (header payload sums : Bytes) (index start : Nat) : Option (Decoded Unit) :=
  let total := header.length + payload.length
  if start < total then
    let stop := min (start + chunkSize) total
    match parts? header payload start stop with
    | none => none
    | some parts =>
      let computed := kind.computeParts parts
      match (Input.startingAt sums (index * 4)).number "block checksums" 4 with
      | .error error => some (.error error)
      | .ok (stored, _) =>
        let stored := UInt32.ofNat stored
        if computed = stored then checkApart kind chunkSize pos header payload sums (index + 1) stop
        else some (.error (.checksumMismatch index stored computed))
  else some (.ok ())
termination_by header.length + payload.length - start

def verifyApart (kind : ChecksumKind) (chunkSize : Nat) (header payload sums : Bytes) :
    Option (Decoded Unit) :=
  if kind = .null then some (.ok ())
  else if pos : 0 < chunkSize then
    let needed := sumsLength (header.length + payload.length) chunkSize
    if sums.length < needed then
      some (.error (.truncated "block checksums" needed sums.length))
    else checkApart kind chunkSize pos header payload sums 0 0
  else some (.error (.flawed .emptyChecksumChunks))

end Checksum

end CellStore
