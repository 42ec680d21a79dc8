import CellStore.Hash
import CellStore.Pieces

/-! The hash functions of bloom filters once more, as they are used to fill a filter: rounds over
the pieces of the key, the last piece padded with zeros. -/

namespace CellStore.Rounds

def word (bytes : Bytes) : UInt32 :=
  let digit (i : Nat) : UInt32 := (bytes.getD i 0).toUInt32
  digit 0 ||| digit 1 <<< 8 ||| digit 2 <<< 16 ||| digit 3 <<< 24

structure Lanes where
  a : UInt32
  b : UInt32
  c : UInt32

namespace Lanes

def add (s : Lanes) (block : Bytes) : Lanes :=
  ⟨s.a + word block, s.b + word (block.drop 4), s.c + word (block.drop 8)⟩

/-- One step: subtracts and rotates the lane before into the first lane, and adds up the others. -/
def mix (s : Lanes) : Lanes :=
  let a := (s.a - s.c) ^^^ rotateLeft s.c 4
  let c := s.c + s.b
  let b := (s.b - a) ^^^ rotateLeft a 6
  let a := a + c
  let c := (c - b) ^^^ rotateLeft b 8
  let b := b + a
  let a := (a - c) ^^^ rotateLeft c 16
  let c := c + b
  let b := (b - a) ^^^ rotateLeft a 19
  let a := a + c
  let c := (c - b) ^^^ rotateLeft b 4
  ⟨a, b + a, c⟩

def finish (s : Lanes) : UInt32 :=
  let c := (s.c ^^^ s.b) - rotateLeft s.b 14
  let a := (s.a ^^^ c) - rotateLeft c 11
  let b := (s.b ^^^ a) - rotateLeft a 25
  let c := (c ^^^ b) - rotateLeft b 16
  let a := (a ^^^ c) - rotateLeft c 4
  let b := (b ^^^ a) - rotateLeft a 14
  (c ^^^ b) - rotateLeft b 24

end Lanes

def jenkins (key : Bytes) (seed : UInt32) : UInt32 :=
  let start := 0xDEADBEEF + UInt32.ofNat key.length + seed
  let blocks := pieces 12 key
  let s := blocks.dropLast.foldl (fun (s : Lanes) block => (s.add block).mix) ⟨start, start, start⟩
  match blocks.getLast? with
  | none => s.c
  | some block => (s.add block).finish

def words (key : Bytes) : List Bytes × Bytes :=
  let (whole, rest) := (pieces 4 key).partition (·.length = 4)
  (whole, rest.flatten)

def murmur (key : Bytes) (seed : UInt32) : UInt32 :=
  let m := 0x5BD1E995
  let (blocks, tail) := words key
  let h := blocks.foldl (fun h block =>
    let k := word block * m
    h * m ^^^ (k ^^^ k >>> 24) * m) (seed ^^^ UInt32.ofNat key.length)
  let h :=
    if tail.isEmpty then h
    else
      m * tail.zipIdx.foldr
        (fun (b, i) h => h ^^^ signedWord b <<< (8 * UInt32.ofNat i)) h
  let h := (h ^^^ h >>> 13) * m
  h ^^^ h >>> 15

def murmur3 (key : Bytes) (seed : UInt32) : UInt32 :=
  let scramble (k : UInt32) : UInt32 := rotateLeft (k * 0xCC9E2D51) 15 * 0x1B873593
  let (blocks, tail) := words key
  let h := blocks.foldl
    (fun h block => rotateLeft (h ^^^ scramble (word block)) 13 * 5 + 0xE6546B64) seed
  let h := if tail.isEmpty then h else h ^^^ scramble (word tail)
  let h := h ^^^ UInt32.ofNat key.length
  let h := (h ^^^ h >>> 16) * 0x85EBCA6B
  let h := (h ^^^ h >>> 13) * 0xC2B2AE35
  h ^^^ h >>> 16

end CellStore.Rounds

namespace CellStore

def HashKind.hashByRounds (kind : HashKind) (key : Bytes) (seed : Int32) : Int32 :=
  let seed := seed.toUInt32
  UInt32.toInt32 <| match kind with
    | .jenkins => Rounds.jenkins key seed
    | .murmur => Rounds.murmur key seed
    | .murmur3 => Rounds.murmur3 key seed

end CellStore
