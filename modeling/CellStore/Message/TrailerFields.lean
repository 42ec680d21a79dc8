import CellStore.Message.Wire
import CellStore.Text.Utf8

namespace CellStore

structure TrailerFields where
  fileInfoOffset : Option Nat
  loadOnOpenOffset : Option Nat
  uncompressedIndexSize : Option Nat
  totalUncompressedBytes : Option Nat
  dataIndexCount : Option Nat
  metaIndexCount : Option Nat
  entryCount : Option Nat
  indexLevels : Option Nat
  firstDataOffset : Option Nat
  lastDataOffset : Option Nat
  comparator : Option String
  codecId : Option Nat
  deriving DecidableEq

namespace TrailerFields

/-- Numbers of 32 bits keep the lowest bits of what is written. The key of an encrypted file is
checked for its type and not kept. -/
def decode? (message : Bytes) : Option TrailerFields := do
  let fields ← Wire.fields? 99 message
  let number (tag : Nat) : Option (Option Nat) := Wire.lastNumber? fields tag
  let number32 (tag : Nat) : Option (Option Nat) := return (← number tag).map (· % 0x1_0000_0000)
  let texts ← (← Wire.byteStrings? fields 11).mapM Utf8.decode?
  let _ ← Wire.byteStrings? fields 13
  return {
    fileInfoOffset := ← number 1
    loadOnOpenOffset := ← number 2
    uncompressedIndexSize := ← number 3
    totalUncompressedBytes := ← number 4
    dataIndexCount := ← number32 5
    metaIndexCount := ← number32 6
    entryCount := ← number 7
    indexLevels := ← number32 8
    firstDataOffset := ← number 9
    lastDataOffset := ← number 10
    comparator := texts.getLast?
    codecId := ← number32 12
  }

def encode (m : TrailerFields) : Bytes :=
  let number (tag : Nat) (n : Option Nat) : Bytes := n.elim [] (Wire.writeNumberField tag)
  number 1 m.fileInfoOffset ++ number 2 m.loadOnOpenOffset ++ number 3 m.uncompressedIndexSize
    ++ number 4 m.totalUncompressedBytes ++ number 5 m.dataIndexCount ++ number 6 m.metaIndexCount
    ++ number 7 m.entryCount ++ number 8 m.indexLevels ++ number 9 m.firstDataOffset
    ++ number 10 m.lastDataOffset
    ++ m.comparator.elim [] (fun text => Wire.writeBytesField 11 (Utf8.encode text))
    ++ number 12 m.codecId

end TrailerFields

end CellStore
