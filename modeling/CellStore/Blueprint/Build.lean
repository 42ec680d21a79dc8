import CellStore.Blueprint
import CellStore.Trailer

/-! Building store files. Data blocks come first, then the chunks of the bloom filter, meta blocks
and index blocks, then what is read when a file is opened: root index, index of the meta blocks,
file info and bloom filter. -/

namespace CellStore

structure Layout where
  dataBlocks : List Place
  bloomChunks : List Place
  metaBlocks : List Place
  /-- The index blocks, those of lower levels first. -/
  indexBlocks : List Place
  rootIndex : Place
  metaIndex : Place
  fileInfo : Place
  bloomMeta : Option Place
  trailerOffset : Nat
  indexLevels : Nat
  deriving DecidableEq

namespace Blueprint

def comparator : String := "org.apache.hadoop.hbase.CellComparatorImpl"

def build (plan : Blueprint) : Bytes × Layout :=
  let sorted := Mutation.sort plan.mutations
  let writer := BlockWriter.start plan.form
  let (data, writer) := writer.appendAll (dataKind plan.encoding) (plan.dataBlocks sorted)
  let (chunks, writer) :=
    writer.appendAll .bloomChunk (plan.bloom.elim [] fun bloom => bloom.chunks sorted)
  let (metas, writer) :=
    writer.appendAll .metadata (plan.metaBlocks.map fun (name, bytes) => (Utf8.encode name, bytes))
  let (index, writer) := IndexLevels.build plan.fanout data.length (.ofData data) writer
  let root := index.encodeRoot plan.fanout data.length
  let (rootIndex, writer) := writer.append .rootIndex root
  let (metaIndex, writer) := writer.append .rootIndex (Index.encodeRoot metas)
  let (fileInfo, writer) := writer.append .fileInfo (plan.info sorted).encode
  let (bloomMeta, writer) := match plan.bloom with
    | some bloom =>
      let (place, writer) := writer.append bloom.metaKind (bloom.filter sorted chunks).encode
      (some place, writer)
    | none => (none, writer)
  let trailer : TrailerFields := {
    fileInfoOffset := some fileInfo.offset
    loadOnOpenOffset := some rootIndex.offset
    uncompressedIndexSize := some (index.byteSize + root.length)
    totalUncompressedBytes := some writer.uncompressedBytes
    dataIndexCount := some index.top.length
    metaIndexCount := some metas.length
    entryCount := some sorted.length
    indexLevels := some index.levels
    firstDataOffset := data.head?.map (·.offset)
    lastDataOffset := data.getLast?.map (·.offset)
    comparator := some comparator
    codecId := some plan.form.packing.codec.id
  }
  (writer.bytes ++ Trailer.encode trailer plan.minorVersion,
    { dataBlocks := data.map (·.place)
      bloomChunks := chunks.map (·.place)
      metaBlocks := metas.map (·.place)
      indexBlocks := index.blocks
      rootIndex
      metaIndex
      fileInfo
      bloomMeta
      trailerOffset := writer.bytes.length
      indexLevels := index.levels })

def bytes (plan : Blueprint) : Bytes := plan.build.1

end Blueprint

end CellStore
