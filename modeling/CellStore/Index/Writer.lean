import CellStore.Block.Writer

namespace CellStore

namespace Index

def encodePlace (entry : IndexEntry) : Bytes :=
  Bytes.ofNat 8 entry.offset ++ Bytes.ofNat 4 entry.size

def encodeRoot (entries : List IndexEntry) : Bytes :=
  entries.flatMap fun entry => encodePlace entry ++ VarLong.writeBytes entry.key

def encodeStarts : (start : Nat) → List IndexEntry → Bytes
  | start, [] => Bytes.ofNat 4 start
  | start, entry :: entries =>
    Bytes.ofNat 4 start ++ encodeStarts (start + 12 + entry.key.length) entries

def encode (entries : List IndexEntry) : Bytes :=
  Bytes.ofNat 4 entries.length ++ encodeStarts 0 entries
    ++ entries.flatMap fun entry => encodePlace entry ++ entry.key

def encodeMidKey (midKey : MidKey) : Bytes :=
  Bytes.ofNat 8 midKey.leafOffset ++ Bytes.ofNat 4 midKey.leafSize
    ++ Bytes.ofNat 4 midKey.entry

end Index

/-- An index under way, from the data blocks up. -/
structure IndexLevels where
  top : List IndexEntry
  /-- The blocks of the lowest level of index blocks. -/
  leaves : List Place
  /-- All index blocks, those of lower levels first. -/
  blocks : List Place
  levels : Nat
  byteSize : Nat

namespace IndexLevels

def ofData (entries : List IndexEntry) : IndexLevels := ⟨entries, [], [], 1, 0⟩

/-- Writes the top level into blocks of `fanout` entries, and takes their entries for a new top. -/
def raise (fanout : Nat) (index : IndexLevels) (writer : BlockWriter) :
    IndexLevels × BlockWriter :=
  let kind : BlockKind := if index.levels = 1 then .leafIndex else .intermediateIndex
  let blocks := (pieces fanout index.top).map fun entries =>
    (entries.head?.elim [] (·.key), Index.encode entries)
  let (top, writer) := writer.appendAll kind blocks
  let places := top.map (·.place)
  ({ top
     leaves := if index.levels = 1 then places else index.leaves
     blocks := index.blocks ++ places
     levels := index.levels + 1
     byteSize := index.byteSize + (blocks.map fun block => block.2.length).sum },
    writer)

/-- Adds levels until the top one has at most `fanout` entries. Every level has fewer than the one
below it. -/
def build (fanout : Nat) :
    (fuel : Nat) → IndexLevels → BlockWriter → IndexLevels × BlockWriter
  | 0, index, writer => (index, writer)
  | fuel + 1, index, writer =>
    if index.top.length ≤ fanout then (index, writer)
    else
      let (index, writer) := raise fanout index writer
      build fanout fuel index writer

def midKey? (fanout count : Nat) (index : IndexLevels) : Option MidKey :=
  if index.levels = 1 then none
  else
    let middle := (count - 1) / 2
    (index.leaves[middle / fanout]?).map fun leaf => ⟨leaf.offset, leaf.size, middle % fanout⟩

def encodeRoot (fanout count : Nat) (index : IndexLevels) : Bytes :=
  Index.encodeRoot index.top ++ (index.midKey? fanout count).elim [] Index.encodeMidKey

end IndexLevels

end CellStore
