import CellStore.Bloom.Writer
import CellStore.Delta.Writer

/-! Blueprints: what a store file is to hold, and in what form. -/

namespace CellStore

structure Blueprint where
  form : BlockForm
  encoding : Encoding
  /-- A data block is full once its plain records have this size. -/
  blockSize : Nat
  /-- How many entries an index block has at most, when more than that need a level of their own. -/
  fanout : Nat
  format : RecordFormat
  bloom : Option BloomPlan
  minorVersion : UInt8
  metaBlocks : Named
  /-- Entries of the file info besides those that tell how the file is to be read. They replace
  entries of the same name. -/
  extraInfo : List (String × Bytes)
  mutations : List Mutation

namespace Blueprint

def standard : Blueprint where
  form := ⟨.stored, .crc32c, 16384⟩
  encoding := .plain
  blockSize := 65536
  fanout := 0xFFFF_FFFF_FFFF_FFFF
  format := ⟨false, false⟩
  bloom := none
  minorVersion := 3
  metaBlocks := []
  extraInfo := []
  mutations := []

/-- Cuts mutations into blocks, after those in `block`, the last one first, whose records have
`used` bytes. -/
def cutFrom (format : RecordFormat) (blockSize : Nat) :
    (block : List Mutation) → (used : Nat) → List Mutation → List (List Mutation)
  | block, _, [] => if block.isEmpty then [] else [block.reverse]
  | block, used, m :: ms =>
    let length := (m.record format).encode.length
    if block.isEmpty ∨ used < blockSize then
      cutFrom format blockSize (m :: block) (used + length) ms
    else block.reverse :: cutFrom format blockSize [m] length ms

/-- Cuts mutations into blocks. A block goes on until its records fill the block size. -/
def cut (format : RecordFormat) (blockSize : Nat) (mutations : List Mutation) :
    List (List Mutation) := cutFrom format blockSize [] 0 mutations

def encodeBlock (encoding : Encoding) (format : RecordFormat) (block : List Mutation) : Bytes :=
  let plain := block.flatMap fun m => (m.record format).encode
  match encoding with
  | .plain => plain
  | .fastDiff =>
    Bytes.ofNat 2 encoding.id ++ Bytes.ofNat 4 plain.length ++ Delta.encode format block

def dataKind : Encoding → BlockKind
  | .plain => .data
  | .fastDiff => .encodedData

def dataBlocks (plan : Blueprint) (sorted : List Mutation) : List (Bytes × Bytes) :=
  (cut plan.format plan.blockSize sorted).map fun block =>
    (block.head?.elim [] (·.key), encodeBlock plan.encoding plan.format block)

def mean (numbers : List Nat) : Nat := numbers.sum / max 1 numbers.length

def info (plan : Blueprint) (sorted : List Mutation) : FileInfo :=
  let lengths := [
    (FileInfo.avgKeyLength, Bytes.ofNat 4 (mean (sorted.map (·.key.length)))),
    (FileInfo.avgValueLength, Bytes.ofNat 4 (mean (sorted.map (·.value.length))))]
  let last := sorted.getLast?.elim [] fun m => [(FileInfo.lastKey, m.key)]
  let tags :=
    if plan.format.tags then [
      (FileInfo.maxTagsLength, Bytes.ofNat 4 ((sorted.map (·.tags.length)).foldl max 0)),
      (FileInfo.tagsCompressed, [0])]
    else []
  let stamps :=
    if plan.format.mvcc then [
      (FileInfo.keyValueVersion, Bytes.ofNat 4 1),
      (FileInfo.maxMemstoreTimestamp,
        Bytes.ofNat 8 ((sorted.map (·.sequenceId.toNat)).foldl max 0))]
    else []
  let encoding := [(FileInfo.dataBlockEncoding, Utf8.encode plan.encoding.name)]
  let bloom := plan.bloom.elim [] fun bloom =>
    [(FileInfo.bloomFilterType, Utf8.encode bloom.kind.name)]
  FileInfo.ofList (lengths ++ last ++ tags ++ stamps ++ encoding ++ bloom ++ plan.extraInfo)

end Blueprint

end CellStore
