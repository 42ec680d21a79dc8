import CellStore.Block
import CellStore.Hash
import CellStore.Index
import CellStore.Text.Utf8

/-! Bloom filters in chunks, each of which covers the keys from its first one on. -/

namespace CellStore

structure BloomFilter where
  totalByteSize : Nat
  hashCount : Nat
  hashKind : HashKind
  totalKeyCount : Nat
  totalMaxKeys : Nat
  chunkCount : Nat
  /-- Empty when keys compare as bytes. -/
  comparator : String
  chunks : List IndexEntry

namespace BloomFilter

def version : Nat := 3

/-- Reads what a filter says of itself:
`version(4) byteSize(8) hashCount(4) hashKind(4) keyCount(8) maxKeys(8) chunkCount(4) comparator`
and the chunks as in a root index. -/
def parse (data : Bytes) : Decoded BloomFilter := do
  let what := "bloom metadata"
  let (found, input) ← (Input.ofBytes data).number what 4
  if found ≠ version then
    throw (.flawed (.unknownBloomVersion found))
  let (totalByteSize, input) ← input.number what 8
  let (hashCount, input) ← input.number what 4
  let (hashId, input) ← input.take what 4
  let hashKind ← HashKind.ofId (Bytes.toInt hashId)
  let (totalKeyCount, input) ← input.number what 8
  let (totalMaxKeys, input) ← input.number what 8
  let (chunkCount, input) ← input.number what 4
  let (comparator, input) ← VarLong.readBytes input
  let (chunks, _) ← Index.rootEntries chunkCount input.rest
  return ⟨totalByteSize, hashCount, hashKind, totalKeyCount, totalMaxKeys, chunkCount,
    Utf8.decodeLossy comparator, chunks⟩

/-- Whether `test` holds of `count` positions among `size`: those of `composite`, and of every
`step` after it in 32-bit arithmetic. -/
def probe (test : Nat → Bool) (size : Nat) (step : Int32) :
    (count : Nat) → (composite : Int32) → Bool
  | 0, _ => true
  | count + 1, composite =>
    test (composite.toInt.natAbs % size) && probe test size step count (composite + step)

def testBit (bits : Bytes) (position : Nat) : Bool :=
  (bits.getD (position / 8) 0).toNat.testBit (position % 8)

def chunkContains (filter : BloomFilter) (bits : Bytes) (key : Bytes) : Bool :=
  if bits.isEmpty then false
  else
    let first := filter.hashKind.hash key 0
    let second := filter.hashKind.hash key first
    probe (testBit bits) (8 * bits.length) second filter.hashCount first

/-- Whether the file may hold `key`. A key before all chunks is in none. -/
def mayContain {m : Type → Type} [Monad m] [MonadExceptOf ReadError m] [MonadLift Decoded m]
    [SourceReader m] (filter : BloomFilter) (source : Source) (codec : Codec) (key : Bytes) :
    m Bool := do
  if filter.chunks.isEmpty then
    return true
  match Index.search filter.chunks compare key with
  | none => return false
  | some i =>
    let block ← Block.read source (filter.chunks[i]?.elim 0 (·.offset)) codec
    block.expect [.bloomChunk]
    return filter.chunkContains block.data key

end BloomFilter

end CellStore
