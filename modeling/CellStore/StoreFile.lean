import CellStore.Bloom
import CellStore.FileInfo
import CellStore.Trailer

namespace CellStore

/-- An open file. The trailer leads to the root index, which is followed by the index of the meta
blocks, the file info and, in some files, the bloom filter. -/
structure StoreFile where
  source : Source
  trailer : Trailer
  index : RootIndex
  metaIndex : List IndexEntry
  info : FileInfo
  bloom : Option BloomFilter
  bloomKind : BloomKind
  encoding : Encoding
  format : RecordFormat

namespace StoreFile

variable {m : Type → Type} [Monad m] [MonadExceptOf ReadError m] [MonadLift Decoded m]
  [SourceReader m]

/-- The index of the meta blocks at `offset`, and where the file info starts. An index without
entries is stepped over. -/
def readMetaIndex (source : Source) (trailer : Trailer) (offset : Nat) :
    m (List IndexEntry × Nat) := do
  if 0 < trailer.metaIndexCount then
    let block ← Block.read source offset trailer.codec
    block.expect [.rootIndex]
    let (entries, _) ← Index.rootEntries trailer.metaIndexCount block.data
    return (entries, block.next)
  else
    let header ← Block.readHeader source offset
    return ([], offset + header.onDiskSizeWithHeader)

/-- The bloom filter, if its block is at `offset`. A header that cannot be read is no filter. -/
def readBloom (source : Source) (codec : Codec) (offset : Nat) : m (Option BloomFilter) := do
  if Trailer.start source.size ≤ offset then
    return none
  let header ← tryCatch (some <$> Block.readHeader source offset) fun _ => return none
  match header.bind (·.kind.toOption) with
  | some .generalBloomMeta =>
    let block ← Block.read source offset codec
    return some (← BloomFilter.parse block.data)
  | _ => return none

def load (source : Source) : m StoreFile := do
  let trailer ← Trailer.read source
  let root ← Block.read source trailer.loadOnOpenOffset trailer.codec
  root.expect [.rootIndex]
  let index ← Index.parseRoot root.data trailer.dataIndexCount trailer.indexLevels
  let (metaIndex, infoOffset) ← readMetaIndex source trailer root.next
  let block ← Block.read source infoOffset trailer.codec
  block.expect [.fileInfo]
  let info ← FileInfo.parse block.data
  let encoding ← info.encoding
  let format ← info.recordFormat
  let bloomKind := info.bloomKind.toOption.getD .absent
  let bloom ← readBloom source trailer.codec block.next
  return { source, trailer, index, metaIndex, info, bloom, bloomKind, encoding, format }

def readBlock (file : StoreFile) (offset : Nat) : m Block :=
  Block.read file.source offset file.trailer.codec

def readIndexBlock (file : StoreFile) (offset : Nat) : m (List IndexEntry) := do
  let block ← file.readBlock offset
  block.expect [.intermediateIndex, .leafIndex]
  let entries ← Index.parse block.data
  if entries.isEmpty then
    throw (.format (.badIndex (.emptyBlock block.kind offset)))
  return entries

def readRecords (file : StoreFile) (offset : Nat) : m Bytes := do
  let block ← file.readBlock offset
  block.expect [.data, .encodedData]
  if block.kind = .encodedData then
    file.encoding.decodeBlock file.format block.data
  else
    return block.data

/-- Whether the file may hold cells of `row`. Only a filter of rows rules any out. -/
def mayContainRow (file : StoreFile) (row : Bytes) : m Bool :=
  match file.bloom, file.bloomKind with
  | some filter, .row => filter.mayContain file.source file.trailer.codec row
  | _, _ => return true

def metaBlock (file : StoreFile) (name : String) : m (Option Bytes) := do
  match file.metaIndex.find? (·.key = Utf8.encode name) with
  | none => return none
  | some entry =>
    let block ← file.readBlock entry.offset
    block.expect [.metadata]
    return some block.data

end StoreFile

end CellStore
