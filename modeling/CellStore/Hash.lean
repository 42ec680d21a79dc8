import CellStore.Error

namespace CellStore

inductive HashKind
  | jenkins
  | murmur
  | murmur3
  deriving DecidableEq

def lowWord (bytes : Bytes) : UInt32 := bytes.foldr (fun b word => b.toUInt32 ||| word <<< 8) 0

def rotateLeft (word : UInt32) (n : UInt32) : UInt32 := word <<< n ||| word >>> (32 - n)

def signedWord (b : UInt8) : UInt32 := b.toInt8.toInt32.toUInt32

namespace Jenkins

def absorb : (rounds : Nat) → (a b c : UInt32) → Bytes → UInt32 × UInt32 × UInt32 × Bytes
  | 0, a, b, c, rest => (a, b, c, rest)
  | rounds + 1, a, b, c, rest =>
    let a := a + lowWord (rest.take 4)
    let b := b + lowWord ((rest.drop 4).take 4)
    let c := c + lowWord ((rest.drop 8).take 4)
    let a := a - c
    let a := a ^^^ rotateLeft c 4
    let c := c + b
    let b := b - a
    let b := b ^^^ rotateLeft a 6
    let a := a + c
    let c := c - b
    let c := c ^^^ rotateLeft b 8
    let b := b + a
    let a := a - c
    let a := a ^^^ rotateLeft c 16
    let c := c + b
    let b := b - a
    let b := b ^^^ rotateLeft a 19
    let a := a + c
    let c := c - b
    let c := c ^^^ rotateLeft b 4
    let b := b + a
    absorb rounds a b c (rest.drop 12)

def finish (a b c : UInt32) (rest : Bytes) : UInt32 :=
  let a := a + lowWord (rest.take 4)
  let b := if 4 < rest.length then b + lowWord ((rest.drop 4).take 4) else b
  let c := if 8 < rest.length then c + lowWord (rest.drop 8) else c
  let c := c ^^^ b
  let c := c - rotateLeft b 14
  let a := a ^^^ c
  let a := a - rotateLeft c 11
  let b := b ^^^ a
  let b := b - rotateLeft a 25
  let c := c ^^^ b
  let c := c - rotateLeft b 16
  let a := a ^^^ c
  let a := a - rotateLeft c 4
  let b := b ^^^ a
  let b := b - rotateLeft a 14
  let c := c ^^^ b
  c - rotateLeft b 24

def hash (key : Bytes) (seed : UInt32) : UInt32 :=
  let start := 0xDEADBEEF + UInt32.ofNat key.length + seed
  match absorb ((key.length - 1) / 12) start start start key with
  | (_, _, c, []) => c
  | (a, b, c, rest) => finish a b c rest

end Jenkins

namespace Murmur

def multiplier : UInt32 := 0x5BD1E995

def absorb : (rounds : Nat) → UInt32 → Bytes → UInt32 × Bytes
  | 0, h, rest => (h, rest)
  | rounds + 1, h, rest =>
    let k := lowWord (rest.take 4) * multiplier
    let k := k ^^^ k >>> 24
    let k := k * multiplier
    absorb rounds (h * multiplier ^^^ k) (rest.drop 4)

/-- Mixes in the last bytes, each one as a signed number. -/
def absorbTail (h : UInt32) : Bytes → UInt32
  | [a, b, c] => (h ^^^ signedWord c <<< 16 ^^^ signedWord b <<< 8 ^^^ signedWord a) * multiplier
  | [a, b] => (h ^^^ signedWord b <<< 8 ^^^ signedWord a) * multiplier
  | [a] => (h ^^^ signedWord a) * multiplier
  | _ => h

def hash (key : Bytes) (seed : UInt32) : UInt32 :=
  let (h, rest) := absorb (key.length / 4) (seed ^^^ UInt32.ofNat key.length) key
  let h := absorbTail h rest
  let h := h ^^^ h >>> 13
  let h := h * multiplier
  h ^^^ h >>> 15

end Murmur

namespace Murmur3

def absorb : (rounds : Nat) → UInt32 → Bytes → UInt32 × Bytes
  | 0, h, rest => (h, rest)
  | rounds + 1, h, rest =>
    let k := rotateLeft (lowWord (rest.take 4) * 0xCC9E2D51) 15 * 0x1B873593
    let h := h ^^^ k
    absorb rounds (rotateLeft h 13 * 5 + 0xE6546B64) (rest.drop 4)

def hash (key : Bytes) (seed : UInt32) : UInt32 :=
  let (h, rest) := absorb (key.length / 4) seed key
  let h :=
    if rest.isEmpty then h
    else h ^^^ rotateLeft (lowWord rest * 0xCC9E2D51) 15 * 0x1B873593
  let h := h ^^^ UInt32.ofNat key.length
  let h := h ^^^ h >>> 16
  let h := h * 0x85EBCA6B
  let h := h ^^^ h >>> 13
  let h := h * 0xC2B2AE35
  h ^^^ h >>> 16

end Murmur3

namespace HashKind

def id : HashKind → Nat
  | jenkins => 0
  | murmur => 1
  | murmur3 => 2

def ofId : Int → Decoded HashKind
  | 0 => .ok jenkins
  | 1 => .ok murmur
  | 2 => .ok murmur3
  | id => .error (.unsupportedHash id)

@[simp] theorem ofId_id (kind : HashKind) : ofId kind.id = .ok kind := by cases kind <;> rfl

def name : HashKind → String
  | jenkins => "Jenkins"
  | murmur => "Murmur"
  | murmur3 => "Murmur3"

def hash (kind : HashKind) (key : Bytes) (seed : Int32) : Int32 :=
  let seed := seed.toUInt32
  UInt32.toInt32 <| match kind with
    | jenkins => Jenkins.hash key seed
    | murmur => Murmur.hash key seed
    | murmur3 => Murmur3.hash key seed

end HashKind

end CellStore
