import CellStore.Delta
import CellStore.Mutation

namespace CellStore.Delta

def sharedLength : Bytes → Bytes → Nat
  | a :: as, b :: bs => if a = b then sharedLength as bs + 1 else 0
  | _, _ => 0

/-- How many bytes of its key, up to the timestamp, a mutation shares with the one before. All
mutations of a block are of one family, which is shared whenever the row is. -/
def sharedKeyLength (m previous : Mutation) : Nat :=
  let length := Bytes.ofNat 2 m.row.length
  let previousLength := Bytes.ofNat 2 previous.row.length
  if length ≠ previousLength then
    if length.head? = previousLength.head? then 1 else 0
  else
    let row := sharedLength m.row previous.row
    if row ≠ m.row.length then 2 + row
    else 2 + row + 1 + m.family.length + sharedLength m.qualifier previous.qualifier

def Flags.toByte (flags : Flags) : UInt8 :=
  UInt8.ofNat flags.timestamp
    ||| (if flags.sameKeyLength then 8 else 0) ||| (if flags.sameValueLength then 16 else 0)
    ||| (if flags.sameKind then 32 else 0) ||| (if flags.sameValue then 64 else 0)

/-- What a mutation has in common with the one before. The last byte of a timestamp is always
written. -/
def Flags.ofPair (m previous : Mutation) : Flags where
  timestamp := sharedLength ((Bytes.ofNat 8 m.timestamp.toNat).take 7)
    ((Bytes.ofNat 8 previous.timestamp.toNat).take 7)
  sameKeyLength := m.key.length = previous.key.length
  sameValueLength := m.value.length = previous.value.length
  sameKind := m.kind = previous.kind
  sameValue := m.value = previous.value

def writeTail (record : Record) : Bytes :=
  record.tags.elim [] (fun tags => Septets.write tags.length ++ tags) ++ record.stamp.getD []

def writeFirst (format : RecordFormat) (m : Mutation) : Bytes :=
  0 :: (Septets.write m.key.length ++ Septets.write m.value.length ++ Septets.write 0
    ++ m.key ++ m.value ++ writeTail (m.record format))

/-- The rest of a key, up to the timestamp. In a new row the family is left out. -/
def writeColumn (m : Mutation) (shared : Nat) : Bytes :=
  let rowEnd := 2 + m.row.length
  if shared < rowEnd then (m.key.take rowEnd).drop shared ++ m.qualifier
  else (m.key.take (m.key.length - Key.suffixLength)).drop shared

def writeLater (format : RecordFormat) (m previous : Mutation) : Bytes :=
  let flags := Flags.ofPair m previous
  let shared := sharedKeyLength m previous
  flags.toByte :: (
    (if flags.sameKeyLength then [] else Septets.write m.key.length)
      ++ (if flags.sameValueLength then [] else Septets.write m.value.length)
      ++ Septets.write shared ++ writeColumn m shared
      ++ (Bytes.ofNat 8 m.timestamp.toNat).drop flags.timestamp
      ++ (if flags.sameKind then [] else [m.kind.code])
      ++ (if flags.sameValue then [] else m.value)
      ++ writeTail (m.record format))

def writeAfter (format : RecordFormat) : (previous : Mutation) → List Mutation → Bytes
  | _, [] => []
  | previous, m :: ms => writeLater format m previous ++ writeAfter format m ms

def encode (format : RecordFormat) : List Mutation → Bytes
  | [] => []
  | m :: ms => writeFirst format m ++ writeAfter format m ms

end CellStore.Delta
