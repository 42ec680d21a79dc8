import CellStore.Bloom
import CellStore.FileInfo
import CellStore.Hash.Rounds
import CellStore.Index.Writer
import CellStore.Mutation

namespace CellStore

inductive BloomKeys
  | rows
  | columns
  deriving DecidableEq

structure BloomPlan where
  keys : BloomKeys
  hashKind : HashKind
  hashCount : Nat
  keysPerChunk : Nat
  bitsPerKey : Nat
  /-- The filter is not for the rows of puts; readers pass it over. -/
  forTombstones : Bool

namespace BloomPlan

def standard : BloomPlan := ⟨.rows, .murmur, 7, 128, 10, false⟩

def kind (plan : BloomPlan) : BloomKind :=
  match plan.keys with
  | .rows => .row
  | .columns => .rowColumn

def metaKind (plan : BloomPlan) : BlockKind :=
  if plan.forTombstones then .deleteFamilyBloomMeta else .generalBloomMeta

/-- What stands for a mutation in the filter. A column goes without its family. -/
def keyOf (plan : BloomPlan) (m : Mutation) : Bytes :=
  match plan.keys with
  | .rows => m.row
  | .columns =>
    Bytes.ofNat 2 m.row.length ++ m.row ++ 0 :: m.qualifier
      ++ Bytes.ofNat 8 Key.latest.toNat ++ [Key.kindBefore]

def dropRepeats : List Bytes → List Bytes
  | [] => []
  | [a] => [a]
  | a :: b :: rest => if a = b then dropRepeats (b :: rest) else a :: dropRepeats (b :: rest)

def keysOf (plan : BloomPlan) (mutations : List Mutation) : List Bytes :=
  dropRepeats (mutations.map plan.keyOf)

def setBit (bits : Bytes) (position : Nat) : Bytes :=
  bits.modify (position / 8) (· ||| 1 <<< UInt8.ofNat (position % 8))

def setBits (step : Int32) : (count : Nat) → (composite : Int32) → Bytes → Bytes
  | 0, _, bits => bits
  | count + 1, composite, bits =>
    setBits step count (composite + step)
      (setBit bits (composite.toInt.natAbs % (8 * bits.length)))

def addKey (plan : BloomPlan) (bits : Bytes) (key : Bytes) : Bytes :=
  let first := plan.hashKind.hashByRounds key 0
  setBits (plan.hashKind.hashByRounds key first) plan.hashCount first bits

def chunkBits (plan : BloomPlan) (keys : List Bytes) : Bytes :=
  let size := max 1 ((keys.length * plan.bitsPerKey + 7) / 8)
  keys.foldl plan.addKey (List.replicate size 0)

def chunks (plan : BloomPlan) (mutations : List Mutation) : List (Bytes × Bytes) :=
  (pieces plan.keysPerChunk (plan.keysOf mutations)).map fun keys =>
    (keys.headD [], plan.chunkBits keys)

def filter (plan : BloomPlan) (mutations : List Mutation) (entries : List IndexEntry) :
    BloomFilter where
  totalByteSize := ((plan.chunks mutations).map fun chunk => chunk.2.length).sum
  hashCount := plan.hashCount
  hashKind := plan.hashKind
  totalKeyCount := (plan.keysOf mutations).length
  totalMaxKeys := entries.length * plan.keysPerChunk
  chunkCount := entries.length
  comparator := ""
  chunks := entries

end BloomPlan

namespace BloomFilter

def encode (filter : BloomFilter) : Bytes :=
  Bytes.ofNat 4 version ++ Bytes.ofNat 8 filter.totalByteSize ++ Bytes.ofNat 4 filter.hashCount
    ++ Bytes.ofNat 4 filter.hashKind.id ++ Bytes.ofNat 8 filter.totalKeyCount
    ++ Bytes.ofNat 8 filter.totalMaxKeys ++ Bytes.ofNat 4 filter.chunkCount
    ++ VarLong.writeBytes (Utf8.encode filter.comparator) ++ Index.encodeRoot filter.chunks

end BloomFilter

end CellStore
