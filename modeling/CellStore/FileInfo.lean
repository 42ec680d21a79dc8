import CellStore.DataBlock
import CellStore.Message.Wire
import CellStore.Named
import CellStore.Text.Utf8

/-! File info: a map from names to byte strings that says how the file is to be read. -/

namespace CellStore

inductive BloomKind
  | absent
  | row
  | rowColumn
  | rowStart
  deriving DecidableEq

namespace BloomKind

def name : BloomKind → String
  | absent => "NONE"
  | row => "ROW"
  | rowColumn => "ROWCOL"
  | rowStart => "ROWPREFIX_FIXED_LENGTH"

def ofName (name : String) : Decoded BloomKind :=
  match [absent, row, rowColumn, rowStart].find? (·.name = name) with
  | some kind => .ok kind
  | none => .error (.flawed (.unknownBloomKind name))

end BloomKind

structure FileInfo where
  entries : Named

namespace FileInfo

/-- `"PBUF"`, before the message. -/
def magic : Bytes := [0x50, 0x42, 0x55, 0x46]

def ofList (entries : List (String × Bytes)) : FileInfo := ⟨Named.ofList entries⟩

def pair? (message : Bytes) : Option (Bytes × Bytes) := do
  let fields ← Wire.fields? 98 message
  let names ← Wire.byteStrings? fields 1
  let values ← Wire.byteStrings? fields 2
  some (names.getLastD [], values.getLastD [])

def pairs? (message : Bytes) : Option (List (Bytes × Bytes)) := do
  let fields ← Wire.fields? 99 message
  (← Wire.byteStrings? fields 1).mapM pair?

def parse (data : Bytes) : Decoded FileInfo :=
  if data.take 4 ≠ magic then .error (.flawed .notFileInfo)
  else
    match (Wire.delimited? (data.drop 4)).bind pairs? with
    | some pairs => .ok (ofList (pairs.map fun (name, value) => (Utf8.decodeLossy name, value)))
    | none => .error .badMessage

def encodePairs (pairs : List (Bytes × Bytes)) : Bytes :=
  pairs.flatMap fun (name, value) =>
    Wire.writeBytesField 1 (Wire.writeBytesField 1 name ++ Wire.writeBytesField 2 value)

def encode (info : FileInfo) : Bytes :=
  magic ++ Wire.writeDelimited
    (encodePairs (info.entries.map fun (name, value) => (Utf8.encode name, value)))

def get? (info : FileInfo) (name : String) : Option Bytes := info.entries.lookup name

def avgKeyLength : String := "hfile.AVG_KEY_LEN"
def avgValueLength : String := "hfile.AVG_VALUE_LEN"
def lastKey : String := "hfile.LASTKEY"
def maxTagsLength : String := "hfile.MAX_TAGS_LEN"
def tagsCompressed : String := "hfile.TAGS_COMPRESSED"
def dataBlockEncoding : String := "DATA_BLOCK_ENCODING"
def keyValueVersion : String := "KEY_VALUE_VERSION"
def maxMemstoreTimestamp : String := "MAX_MEMSTORE_TS_KEY"
def bloomFilterType : String := "BLOOM_FILTER_TYPE"

def number (info : FileInfo) (name : String) (width : Nat) : Decoded (Option Nat) :=
  match info.get? name with
  | none => .ok none
  | some value =>
    if value.length = width then .ok (some (Bytes.toNat value))
    else .error (.flawed (.wrongWidth name value.length width))

/-- Cells have tags whenever a greatest length of tags is given, even when it is 0. -/
def includesTags (info : FileInfo) : Bool := (info.get? maxTagsLength).isSome

def compressesTags (info : FileInfo) : Bool :=
  (info.get? tagsCompressed).any fun value => value.any (· ≠ 0)

def encoding (info : FileInfo) : Decoded Encoding :=
  match info.get? dataBlockEncoding with
  | none => .ok .plain
  | some name => Encoding.ofName (Utf8.decodeLossy name)

/-- Cells have memstore timestamps when the version of their layout is 1. -/
def includesMvcc (info : FileInfo) : Decoded Bool :=
  return (← info.number keyValueVersion 4) = some 1

def bloomKind (info : FileInfo) : Decoded BloomKind :=
  match info.get? bloomFilterType with
  | none => .ok .absent
  | some name => BloomKind.ofName (Utf8.decodeLossy name)

def recordFormat (info : FileInfo) : Decoded RecordFormat := do
  if info.compressesTags then
    throw (.unsupportedEncoding "compressed tags")
  return ⟨info.includesTags, ← info.includesMvcc⟩

end FileInfo

end CellStore
