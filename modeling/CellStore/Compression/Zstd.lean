import CellStore.Checksum.Xxh64
import CellStore.Compression.Zstd.Literals
import CellStore.Compression.Zstd.Sequences

/-! Zstandard frames, one after another. Output is asked for in pieces: a frame that fits into what
is asked for is checked as a whole, and any other one is read block by block until there is
enough. -/

namespace CellStore.Zstd

def frameMagic : Bytes := [0x28, 0xB5, 0x2F, 0xFD]

structure FrameHeader where
  window : Nat
  /-- Length of the content, when the frame gives it. -/
  content : Option Nat
  checked : Bool
  stop : Nat

namespace FrameHeader

/-- Reads the header after the magic. There are no dictionaries. -/
def read? (bytes : ByteArray) (start : Nat) : Option FrameHeader := do
  let flags := numberAt bytes start 1
  let single := flags / 32 % 2 = 1
  let dictionaryWidth := [0, 1, 2, 4].getD (flags % 4) 0
  let contentWidth := [if single then 1 else 0, 2, 4, 8].getD (flags / 64) 0
  let afterWindow := start + 1 + if single then 0 else 1
  let afterDictionary := afterWindow + dictionaryWidth
  let stop := afterDictionary + contentWidth
  if bytes.size < stop ∨ flags / 8 % 2 = 1
      ∨ numberAt bytes afterWindow dictionaryWidth ≠ 0 then none
  let content := if contentWidth = 0 then none
    else
      let number := numberAt bytes afterDictionary contentWidth
      some (if contentWidth = 2 then number + 256 else number)
  let descriptor := numberAt bytes (start + 1) 1
  let power := 10 + descriptor / 8
  let window := if single then content.getD 0 else 2 ^ power + 2 ^ power / 8 * (descriptor % 8)
  if !single ∧ 31 < power then none
  some ⟨window, content, flags / 4 % 2 = 1, stop⟩

def blockLimit (header : FrameHeader) : Nat := min header.window (128 * 1024)

def room (header : FrameHeader) (length : Nat) : Nat :=
  header.content.elim header.blockLimit fun content => min header.blockLimit (content - length)

def isComplete (header : FrameHeader) (length : Nat) : Bool := header.content.all (· = length)

def matchesSum (bytes output : ByteArray) (floor position : Nat) : Bool :=
  numberAt bytes position 4 =
    (Xxh64.hash (output.extract floor output.size).toList).toNat % 0x1_0000_0000

end FrameHeader

structure BlockHead where
  last : Bool
  /-- 0 for bytes as they are, 1 for one byte repeated, 2 for a compressed block. -/
  kind : Nat
  /-- Size of the block, or how often its byte is repeated. -/
  size : Nat

namespace BlockHead

def read (bytes : ByteArray) (position : Nat) : BlockHead :=
  let head := numberAt bytes position 3
  ⟨head % 2 = 1, head / 2 % 4, head / 8⟩

def length (head : BlockHead) : Nat := if head.kind = 1 then 1 else head.size

end BlockHead

structure FrameState where
  code : Option PrefixCode
  history : History

def FrameState.start : FrameState := ⟨none, History.start⟩

def appendBlock? (bytes : ByteArray) (head : BlockHead) (start stop limit room floor : Nat)
    (state : FrameState) (output : ByteArray) : Option (ByteArray × FrameState) := do
  match head.kind with
  | 0 => if room < stop - start then none else some (output ++ bytes.extract start stop, state)
  | 1 =>
    if room < head.size then none
    else some (output ++ ⟨Array.replicate head.size ((bytes[start]?).getD 0)⟩, state)
  | 2 => do
    if stop < start + 2 ∨ limit < stop - start then none
    let literals ← Literals.read? bytes start stop limit state.code
    let (sequences, history) ← Sequences.read? bytes literals.stop stop state.history
    let output ← Sequences.run literals.bytes floor room sequences 0 output
    some (output, ⟨literals.code, history⟩)
  | _ => none

def frameStop? (bytes : ByteArray) (checked : Bool) : (fuel : Nat) → (position : Nat) → Option Nat
  | 0, _ => none
  | fuel + 1, position =>
    let head := BlockHead.read bytes position
    let stop := position + 3 + head.length
    if bytes.size < position + 3 ∨ bytes.size < stop ∨ head.kind = 3 then none
    else if !head.last then frameStop? bytes checked fuel stop
    else
      let stop := if checked then stop + 4 else stop
      if bytes.size < stop then none else some stop

def wholeFrame? (bytes : ByteArray) (floor room : Nat) (header : FrameHeader) :
    (fuel : Nat) → (position : Nat) → FrameState → ByteArray → Option ByteArray
  | 0, _, _, _ => none
  | fuel + 1, position, state, output => do
    let head := BlockHead.read bytes position
    let start := position + 3
    let stop := start + head.length
    let left := room - (output.size - floor)
    let (output, state) ←
      appendBlock? bytes head start stop header.blockLimit left floor state output
    if !head.last then wholeFrame? bytes floor room header fuel stop state output
    else if !header.isComplete (output.size - floor)
        ∨ header.checked ∧ !FrameHeader.matchesSum bytes output floor stop then none
    else some output

inductive Halt
  | enough (output : ByteArray)
  | invalid

def Halt.unless (a? : Option α) : Except Halt α :=
  match a? with
  | some a => .ok a
  | none => .error .invalid

/-- How many bytes are asked for after `length` of them. The last one of those wanted is asked for
alone, unless all are few. -/
def request (wanted length : Nat) : Nat :=
  if length = 0 ∧ wanted ≤ 32 then wanted
  else if length + 1 < wanted then min (wanted - 1 - length) 8192
  else 1

/-- How much of what was asked for is missing once the output has grown from `length` bytes. What is
too much is given out before anything else is read. -/
def grow (wanted asked length : Nat) (output : ByteArray) : Except Halt Nat :=
  let grown := output.size - length
  if grown ≤ asked then .ok (asked - grown)
  else if wanted ≤ output.size then .error (.enough output)
  else .ok (request wanted output.size)

def starve (wanted : Nat) (output : ByteArray) : Except Halt α :=
  .error (if wanted ≤ output.size then .enough output else .invalid)

/-- Appends the blocks from `position` on and checks what follows them. Returns where the frame
ends. Empty blocks are passed over, and bytes as they are count as far as they are there. -/
def blocks (bytes : ByteArray) (wanted floor : Nat) (header : FrameHeader) :
    (fuel : Nat) → (position asked : Nat) → FrameState → ByteArray →
      Except Halt (ByteArray × Nat)
  | 0, _, _, _, _ => .error .invalid
  | fuel + 1, position, asked, state, output => do
    if bytes.size < position + 3 then starve wanted output
    let head := BlockHead.read bytes position
    let start := position + 3
    let stop := start + head.length
    if head.kind = 3 ∨ header.blockLimit < head.length then throw .invalid
    let reach := min stop bytes.size
    if start < stop ∧ (reach = start ∨ reach < stop ∧ head.kind ≠ 0) then starve wanted output
    let (asked, state, output) ←
      if start = stop then pure (asked, state, output)
      else do
        let length := output.size
        let (output, state) ← Halt.unless (appendBlock? bytes head start reach header.blockLimit
          (header.room (length - floor)) floor state output)
        if head.last ∧ reach = stop ∧ !header.isComplete (output.size - floor) then throw .invalid
        let asked ← grow wanted asked length output
        pure (asked, state, output)
    if reach < stop then starve wanted output
    else if !head.last then blocks bytes wanted floor header fuel stop asked state output
    else if header.checked then
      if bytes.size < stop + 4 then starve wanted output
      else if FrameHeader.matchesSum bytes output floor stop then return (output, stop + 4)
      else throw .invalid
    else return (output, stop)

/-- Appends the frame that starts at `position`, and returns where it ends. Skippable frames hold no
content. A frame may not need a window of more than 128 MiB, unless it is read as a whole. -/
def frame (bytes : ByteArray) (wanted position : Nat) (output : ByteArray) :
    Except Halt (ByteArray × Nat) := do
  if bytes.size < position + 4 then throw .invalid
  let magic := numberAt bytes position 4
  let floor := output.size
  if magic / 16 = 0x184D2A5 then
    let stop := position + 8 + numberAt bytes (position + 4) 4
    if bytes.size < stop then throw .invalid
    return (output, stop)
  else if magic = Bytes.lowToNat frameMagic then
    let header ← Halt.unless (FrameHeader.read? bytes (position + 4))
    let asked := request wanted floor
    let whole := if header.content.any (· ≤ asked)
      then frameStop? bytes header.checked bytes.size header.stop else none
    match whole with
    | some stop =>
      let output ← Halt.unless
        (wholeFrame? bytes floor asked header bytes.size header.stop .start output)
      return (output, stop)
    | none =>
      if 0x800_0001 < header.window then throw .invalid
      blocks bytes wanted floor header bytes.size header.stop asked .start output
  else throw .invalid

def frames (bytes : ByteArray) (wanted : Nat) :
    (fuel : Nat) → (position : Nat) → ByteArray → Except Halt ByteArray
  | 0, _, _ => .error .invalid
  | fuel + 1, position, output => do
    let (output, stop) ← frame bytes wanted position output
    if wanted ≤ output.size then throw (.enough output)
    else if stop = bytes.size then return output
    else frames bytes wanted fuel stop output

def decompress? (wanted : Nat) (bytes : Bytes) : Option Bytes :=
  let array := bytes.toByteArray
  let first (output : ByteArray) : Bytes := (output.extract 0 wanted).toList
  match frames array wanted (array.size + 1) 0 .empty with
  | .ok output => some (first output)
  | .error (.enough output) => some (first output)
  | .error .invalid => none

end CellStore.Zstd
