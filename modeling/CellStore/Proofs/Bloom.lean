import CellStore.Bloom.Writer
import CellStore.Proofs.Block
import CellStore.Proofs.Index
import CellStore.Proofs.Utf8

namespace CellStore.BloomFilter

structure Fits (filter : BloomFilter) : Prop where
  chunkCount : filter.chunkCount = filter.chunks.length
  few : filter.chunks.length < 0x1_0000_0000
  chunks : ∀ chunk ∈ filter.chunks, chunk.Fits ∧ chunk.key.length < 0x8000_0000_0000_0000
  comparator : (Utf8.encode filter.comparator).length < 0x8000_0000_0000_0000

def wrap (filter : BloomFilter) : BloomFilter :=
  { filter with
    totalByteSize := filter.totalByteSize % 0x1_0000_0000_0000_0000
    hashCount := filter.hashCount % 0x1_0000_0000
    totalKeyCount := filter.totalKeyCount % 0x1_0000_0000_0000_0000
    totalMaxKeys := filter.totalMaxKeys % 0x1_0000_0000_0000_0000 }

theorem hashKind_ofId (kind : HashKind) :
    HashKind.ofId (Bytes.toInt (Bytes.ofNat 4 kind.id)) = .ok kind := by
  have small : 2 * kind.id < 256 ^ 4 := by cases kind <;> decide
  rw [Bytes.toInt_ofNat small, HashKind.ofId_id]

theorem parse_encode {filter : BloomFilter} (fits : filter.Fits) :
    parse filter.encode = .ok filter.wrap := by
  have wrapped (width n : Nat) :=
    (Input.reads_wrapped width n "bloom metadata").eq filter.encode.length
  have version := wrapped 4 version
  have byteSize := wrapped 8 filter.totalByteSize
  have hashCount := wrapped 4 filter.hashCount
  have hashKind := (Input.reads_take (Bytes.ofNat 4 filter.hashKind.id) "bloom metadata"
    (Bytes.length_ofNat 4 _)).eq filter.encode.length
  have keyCount := wrapped 8 filter.totalKeyCount
  have maxKeys := wrapped 8 filter.totalMaxKeys
  have chunkCount := (Input.reads_number 4 filter.chunks.length "bloom metadata" fits.few).eq
    filter.encode.length
  have comparator := (VarLong.reads_writeBytes fits.comparator).eq filter.encode.length
  have chunks := Index.rootEntries_encodeRoot fits.chunks []
  rw [List.append_nil] at chunks
  have known : BloomFilter.version % 256 ^ 4 = BloomFilter.version := rfl
  have whole : filter.encode = Bytes.ofNat 4 BloomFilter.version
      ++ (Bytes.ofNat 8 filter.totalByteSize ++ (Bytes.ofNat 4 filter.hashCount
      ++ (Bytes.ofNat 4 filter.hashKind.id ++ (Bytes.ofNat 8 filter.totalKeyCount
      ++ (Bytes.ofNat 8 filter.totalMaxKeys ++ (Bytes.ofNat 4 filter.chunkCount
      ++ (VarLong.writeBytes (Utf8.encode filter.comparator)
      ++ Index.encodeRoot filter.chunks))))))) := by
    simp only [encode, List.append_assoc]
  have input : Input.ofBytes filter.encode = ⟨filter.encode.length, 0, filter.encode⟩ := rfl
  simp only [parse, input]
  generalize filter.encode.length = size at *
  rw [whole]
  simp only [version, byteSize, hashCount, hashKind, keyCount, maxKeys, chunkCount, comparator,
    ok_bind, known, hashKind_ofId, ne_eq, not_true_eq_false, if_false, fits.chunkCount, chunks,
    pure_eq_ok, Utf8.decodeLossy_encode, wrap]

end CellStore.BloomFilter
