import CellStore.Bytes

namespace CellStore

inductive BlockKind
  | data
  | encodedData
  | leafIndex
  | bloomChunk
  | metadata
  | intermediateIndex
  | rootIndex
  | fileInfo
  | generalBloomMeta
  | deleteFamilyBloomMeta
  | trailer
  | flatIndex
  deriving DecidableEq

namespace BlockKind

def all : List BlockKind :=
  [data, encodedData, leafIndex, bloomChunk, metadata, intermediateIndex, rootIndex, fileInfo,
    generalBloomMeta, deleteFamilyBloomMeta, trailer, flatIndex]

def name : BlockKind → String
  | data => "DATA"
  | encodedData => "ENCODED_DATA"
  | leafIndex => "LEAF_INDEX"
  | bloomChunk => "BLOOM_CHUNK"
  | metadata => "META"
  | intermediateIndex => "INTERMEDIATE_INDEX"
  | rootIndex => "ROOT_INDEX"
  | fileInfo => "FILE_INFO"
  | generalBloomMeta => "GENERAL_BLOOM_META"
  | deleteFamilyBloomMeta => "DELETE_FAMILY_BLOOM_META"
  | trailer => "TRAILER"
  | flatIndex => "INDEX_V1"

def magic : BlockKind → Bytes
  | data => [0x44, 0x41, 0x54, 0x41, 0x42, 0x4C, 0x4B, 0x2A]
  | encodedData => [0x44, 0x41, 0x54, 0x41, 0x42, 0x4C, 0x4B, 0x45]
  | leafIndex => [0x49, 0x44, 0x58, 0x4C, 0x45, 0x41, 0x46, 0x32]
  | bloomChunk => [0x42, 0x4C, 0x4D, 0x46, 0x42, 0x4C, 0x4B, 0x32]
  | metadata => [0x4D, 0x45, 0x54, 0x41, 0x42, 0x4C, 0x4B, 0x63]
  | intermediateIndex => [0x49, 0x44, 0x58, 0x49, 0x4E, 0x54, 0x45, 0x32]
  | rootIndex => [0x49, 0x44, 0x58, 0x52, 0x4F, 0x4F, 0x54, 0x32]
  | fileInfo => [0x46, 0x49, 0x4C, 0x45, 0x49, 0x4E, 0x46, 0x32]
  | generalBloomMeta => [0x42, 0x4C, 0x4D, 0x46, 0x4D, 0x45, 0x54, 0x32]
  | deleteFamilyBloomMeta => [0x44, 0x46, 0x42, 0x4C, 0x4D, 0x45, 0x54, 0x32]
  | trailer => [0x54, 0x52, 0x41, 0x42, 0x4C, 0x4B, 0x22, 0x24]
  | flatIndex => [0x49, 0x44, 0x58, 0x42, 0x4C, 0x4B, 0x29, 0x2B]

@[simp] theorem length_magic (kind : BlockKind) : kind.magic.length = 8 := by
  cases kind <;> rfl

def ofMagic? (magic : Bytes) : Option BlockKind := all.find? (·.magic == magic)

@[simp] theorem ofMagic?_magic (kind : BlockKind) : ofMagic? kind.magic = some kind := by
  cases kind <;> decide

def isData (kind : BlockKind) : Bool := kind = data || kind = encodedData

end BlockKind

end CellStore
