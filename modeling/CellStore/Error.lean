import CellStore.Block.Kind
import CellStore.Compression.Codec
import CellStore.Encoding

/-! What can go wrong, by layer: in the bytes of a file, in reading them from their source, and in
moving a cursor over them. Every cause has one message. -/

namespace CellStore

inductive DeltaFlaw
  | noPredecessor
  | shortKey (length : Nat)
  | rowPastKey (rowLength : Nat)
  | columnPastKey
  | sharedPastKey (shared previous length : Nat)
  | sharedPastRow (shared rowLength : Nat)
  | noFamily
  | shortLength (length shared : Nat)
  | keyWithinRow
  | familyPastKey
  | unlikeValueLengths (previous length : Nat)
  | longTags (length : Nat)
  deriving DecidableEq

/-- What breaks a rule of the file format and has no error of its own. -/
inductive FormatFlaw
  | negativeLength (length : Int) (offset : Nat)
  | septetOverflow (offset : Nat)
  | septetsTooLong (offset : Nat)
  | unknownCellKind (code : Nat)
  | negativeCellLength (offset : Nat)
  | shortKey (length : Nat)
  | rowPastKey (rowLength : Nat)
  | columnPastKey (rowLength familyLength keyLength : Nat)
  | negativeStamp (stamp : Int)
  | delta (flaw : DeltaFlaw)
  | otherEncoding (found declared : Encoding)
  | shortMagic (length : Nat)
  | shortBlock (length : Nat)
  | emptyChecksumChunks
  | wrongSize (codec : Codec) (actual declared : Nat)
  | negativeField (field : String) (value : Int)
  | wrongDataSize (withHeader onDisk : Nat)
  | loadOnOpenPastTrailer (offset trailer : Nat)
  | notFileInfo
  | wrongWidth (key : String) (length width : Nat)
  | unknownBloomKind (name : String)
  | unknownBloomVersion (version : Nat)
  deriving DecidableEq

inductive CodecFlaw
  | gzip
  | snappy
  | zstd
  | longFrame (length declared : Nat)
  | longSnappyChunk (length limit : Nat)
  | longZstdChunk (limit : Nat)
  deriving DecidableEq

inductive IndexFlaw
  | negativeOffset (offset : Int)
  | longDirectory (entries blockLength : Nat)
  | badSpan (entry start stop blockLength : Nat)
  | emptyBlock (kind : BlockKind) (offset : Nat)
  deriving DecidableEq

inductive FormatError
  | flawed (flaw : FormatFlaw)
  | wrongMagic (expected actual : String)
  | unsupportedVersion (major minor : Nat)
  | unexpectedBlock (expected : List BlockKind) (actual : BlockKind)
  | truncated (what : String) (needed available : Nat)
  | checksumMismatch (chunk : Nat) (stored computed : UInt32)
  | unsupportedCodec (id : Nat)
  | unsupportedEncoding (name : String)
  | unsupportedChecksum (id : Nat)
  | unsupportedHash (id : Int)
  | undecodable (flaw : CodecFlaw)
  | badMessage
  | badIndex (flaw : IndexFlaw)
  | unreadableIndex (cause : FormatError)
  | unreadableRootKey (entry : Nat) (cause : FormatError)
  deriving DecidableEq

inductive SourceError
  | outOfRange (length offset size : Nat)
  | noStoredFile (name : String)
  | noLocalFile (name : String)
  deriving DecidableEq

inductive ReadError
  | format (error : FormatError)
  | source (error : SourceError)
  deriving DecidableEq

inductive CursorError
  | read (error : ReadError)
  | failed
  deriving DecidableEq

abbrev Decoded := Except FormatError
abbrev Fetched := Except ReadError
abbrev Moved := Except CursorError

instance : MonadLift Decoded Fetched := ⟨fun result => result.mapError .format⟩
instance : MonadLift (Except SourceError) Fetched := ⟨fun result => result.mapError .source⟩
instance : MonadLift Fetched Moved := ⟨fun result => result.mapError .read⟩

def DeltaFlaw.message : DeltaFlaw → String
  | noPredecessor => "first record refers to a previous cell"
  | shortKey length => s!"key of {length} bytes too short"
  | rowPastKey rowLength => s!"row length {rowLength} exceeds key"
  | columnPastKey => "row and family exceed key"
  | sharedPastKey shared previous length =>
    s!"common prefix {shared} longer than key ({previous} / {length})"
  | sharedPastRow shared rowLength =>
    s!"common prefix {shared} runs past row of {rowLength} bytes"
  | noFamily => "previous key has no family"
  | shortLength length shared => s!"key length {length} shorter than its shared part {shared}"
  | keyWithinRow => "key ends inside its row"
  | familyPastKey => "family exceeds key"
  | unlikeValueLengths previous length =>
    s!"same value flag with lengths {previous} and {length}"
  | longTags length => s!"tags length {length} too large"

def FormatFlaw.message : FormatFlaw → String
  | negativeLength length offset => s!"Negative byte array length {length} at offset {offset}"
  | septetOverflow offset => s!"Compressed int overflow at offset {offset}"
  | septetsTooLong offset => s!"Compressed int longer than 5 bytes at offset {offset}"
  | unknownCellKind code => s!"Unknown cell type {code}"
  | negativeCellLength offset => s!"Negative cell length at offset {offset}"
  | shortKey length => s!"Cell key of {length} bytes is shorter than 12"
  | rowPastKey rowLength => s!"Row length {rowLength} exceeds cell key"
  | columnPastKey rowLength familyLength keyLength =>
    s!"Row and family lengths ({rowLength}, {familyLength}) exceed key of {keyLength} bytes"
  | negativeStamp stamp => s!"Negative memstore timestamp {stamp}"
  | delta flaw => s!"FAST_DIFF: {flaw.message}"
  | otherEncoding found declared =>
    s!"Encoded block uses {found.name}, file declares {declared.name}"
  | shortMagic length => s!"Magic bytes too short: {length} bytes"
  | shortBlock length => s!"Buffer too short for magic check: {length} bytes"
  | emptyChecksumChunks => "bytesPerChecksum must be positive"
  | wrongSize codec actual declared =>
    s!"{codec.name} block decompressed to {actual} bytes, header says {declared}"
  | negativeField field value => s!"Negative block {field}: {value}"
  | wrongDataSize withHeader onDisk =>
    s!"Invalid block data size: {withHeader} with header, {onDisk} on disk"
  | loadOnOpenPastTrailer offset trailer =>
    s!"Load-on-open offset {offset} is not before the trailer at {trailer}"
  | notFileInfo => "File info does not start with PBUF magic"
  | wrongWidth key length width => s!"File info {key} has {length} bytes, want {width}"
  | unknownBloomKind name => s!"Unknown bloom filter type {name}"
  | unknownBloomVersion version => s!"Unsupported bloom filter version {version}"

def CodecFlaw.message : CodecFlaw → String
  | gzip => "GZIP decompression failed"
  | snappy => "Snappy decompression failed"
  | zstd => "ZSTD decompression failed"
  | longFrame length declared =>
    s!"Framed block of {length} bytes exceeds the expected {declared}"
  | longSnappyChunk length limit =>
    s!"Snappy chunk expands to {length} bytes, only {limit} expected"
  | longZstdChunk limit => s!"ZSTD chunk expands past the {limit} bytes expected"

def IndexFlaw.message : IndexFlaw → String
  | negativeOffset offset => s!"Negative block offset {offset}"
  | longDirectory entries blockLength =>
    s!"Secondary index of {entries} entries exceeds block of {blockLength} bytes"
  | badSpan entry start stop blockLength =>
    s!"Non-root entry {entry} spans {start}..{stop} in block of {blockLength} bytes"
  | emptyBlock kind offset => s!"Empty {kind.name} block at offset {offset}"

def hexWord (word : UInt32) : String :=
  let digits := Nat.toDigits 16 word.toNat
  String.ofList (List.replicate (8 - digits.length) '0' ++ digits)

def FormatError.message : FormatError → String
  | flawed flaw => s!"Invalid HFile: {flaw.message}"
  | wrongMagic expected actual => s!"Invalid block magic: expected {expected}, got {actual}"
  | unsupportedVersion major minor =>
    s!"Unsupported HFile version: major={major}, minor={minor}"
  | unexpectedBlock expected actual =>
    let names := String.intercalate " or " (expected.map (·.name))
    s!"Unexpected block type: expected {names}, got {actual.name}"
  | truncated what needed available =>
    s!"Truncated {what}: need {needed} bytes, only {available} available"
  | checksumMismatch chunk stored computed =>
    s!"Checksum mismatch in chunk {chunk}: expected {hexWord stored}, computed {hexWord computed}"
  | unsupportedCodec id => s!"Unsupported compression codec: {id}"
  | unsupportedEncoding name => s!"Unsupported data block encoding: {name}"
  | unsupportedChecksum id => s!"Unsupported checksum type: {id}"
  | unsupportedHash id => s!"Unsupported bloom filter hash type: {id}"
  | undecodable flaw => s!"Decompression error: {flaw.message}"
  | badMessage => "Protobuf decode error"
  | badIndex flaw => s!"Corrupt block index: {flaw.message}"
  | unreadableIndex cause => s!"Corrupt block index: {cause.message}"
  | unreadableRootKey entry cause =>
    s!"Corrupt block index: root entry {entry} key: {cause.message}"

def SourceError.message : SourceError → String
  | outOfRange length offset size =>
    s!"read of {length} bytes at offset {offset} exceeds source size {size}"
  | noStoredFile name => s!"store file {name} not found"
  | noLocalFile name => s!"no local file {name}"

def ReadError.message : ReadError → String
  | format error => error.message
  | source error => s!"IO error: {error.message}"

def CursorError.message : CursorError → String
  | read error => error.message
  | failed => "Cursor has failed and can no longer be advanced"

/-- Coarse classes of errors, by what a caller can do about them. -/
inductive ErrorClass
  | format
  | truncated
  | checksumMismatch
  | unsupported
  | corruptIndex
  | source
  | cursorFailed
  deriving DecidableEq

def FormatError.errorClass : FormatError → ErrorClass
  | flawed _ | wrongMagic .. | unsupportedVersion .. | unexpectedBlock .. | undecodable _
  | badMessage => .format
  | truncated .. => .truncated
  | checksumMismatch .. => .checksumMismatch
  | unsupportedCodec _ | unsupportedEncoding _ | unsupportedChecksum _ | unsupportedHash _ =>
    .unsupported
  | badIndex _ | unreadableIndex _ | unreadableRootKey .. => .corruptIndex

def ReadError.errorClass : ReadError → ErrorClass
  | format error => error.errorClass
  | source _ => .source

def CursorError.errorClass : CursorError → ErrorClass
  | read error => error.errorClass
  | failed => .cursorFailed

end CellStore
