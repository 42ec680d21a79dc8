import CellStore.Bytes

namespace CellStore.Xxh64

def prime1 : UInt64 := 0x9E3779B185EBCA87
def prime2 : UInt64 := 0xC2B2AE3D27D4EB4F
def prime3 : UInt64 := 0x165667B19E3779F9
def prime4 : UInt64 := 0x85EBCA77C2B2AE63
def prime5 : UInt64 := 0x27D4EB2F165667C5

def rotateLeft (word n : UInt64) : UInt64 := word <<< n ||| word >>> (64 - n)

def word (width : Nat) (bytes : Bytes) : UInt64 :=
  UInt64.ofNat (Bytes.lowToNat (bytes.take width))

def round (lane input : UInt64) : UInt64 := rotateLeft (lane + input * prime2) 31 * prime1

structure Lanes where
  a : UInt64
  b : UInt64
  c : UInt64
  d : UInt64

def stripes : (rounds : Nat) → Lanes → Bytes → Lanes × Bytes
  | 0, s, rest => (s, rest)
  | rounds + 1, s, rest =>
    stripes rounds
      ⟨round s.a (word 8 rest), round s.b (word 8 (rest.drop 8)),
        round s.c (word 8 (rest.drop 16)), round s.d (word 8 (rest.drop 24))⟩
      (rest.drop 32)

def Lanes.merge (s : Lanes) : UInt64 :=
  let sum := rotateLeft s.a 1 + rotateLeft s.b 7 + rotateLeft s.c 12 + rotateLeft s.d 18
  [s.a, s.b, s.c, s.d].foldl (fun sum lane => (sum ^^^ round 0 lane) * prime1 + prime4) sum

def tail : (fuel : Nat) → UInt64 → Bytes → UInt64
  | 0, hash, _ => hash
  | _, hash, [] => hash
  | fuel + 1, hash, rest@(b :: after) =>
    if 8 ≤ rest.length then
      let hash := hash ^^^ round 0 (word 8 rest)
      tail fuel (rotateLeft hash 27 * prime1 + prime4) (rest.drop 8)
    else if 4 ≤ rest.length then
      let hash := hash ^^^ word 4 rest * prime1
      tail fuel (rotateLeft hash 23 * prime2 + prime3) (rest.drop 4)
    else
      let hash := hash ^^^ b.toUInt64 * prime5
      tail fuel (rotateLeft hash 11 * prime1) after

def hash (bytes : Bytes) : UInt64 :=
  let (start, rest) :=
    if bytes.length < 32 then (prime5, bytes)
    else
      let (lanes, rest) :=
        stripes (bytes.length / 32) ⟨prime1 + prime2, prime2, 0, 0 - prime1⟩ bytes
      (lanes.merge, rest)
  let hash := tail 32 (start + UInt64.ofNat bytes.length) rest
  let hash := (hash ^^^ hash >>> 33) * prime2
  let hash := (hash ^^^ hash >>> 29) * prime3
  hash ^^^ hash >>> 32

end CellStore.Xxh64
