import CellStore.Checksum.Crc
import CellStore.Compression.Codec
import CellStore.Compression.Frames
import CellStore.Compression.Zstd
import CellStore.Integer.Septets

/-! Packing the payload of a block. Contents are stored as they are in the form that each codec has
for what does not compress. -/

namespace CellStore

inductive Packing
  | stored
  | gzip
  | snappy
  | zstd
  /-- One zstd frame and nothing around it. -/
  | bareZstd
  deriving DecidableEq

namespace Packing

def codec : Packing → Codec
  | stored => .stored
  | gzip => .gzip
  | snappy => .snappy
  | zstd => .zstd
  | bareZstd => .zstd

def deflateLiterals : List Bytes → Bytes
  | [] => [1, 0, 0, 255, 255]
  | piece :: rest =>
    0 :: (Bytes.lowOfNat 2 piece.length ++ Bytes.lowOfNat 2 (65535 - piece.length) ++ piece)
      ++ deflateLiterals rest

def gzipMember (data : Bytes) : Bytes :=
  [0x1F, 0x8B, 8, 0, 0, 0, 0, 0, 0, 255] ++ deflateLiterals (pieces 65535 data)
    ++ Bytes.lowOfNat 4 (Crc.sum Crc.ieee data).toNat ++ Bytes.lowOfNat 4 data.length

def snappyLiteral (data : Bytes) : Bytes :=
  let head : Bytes :=
    if data.length ≤ 60 then [UInt8.ofNat (4 * (data.length - 1))]
    else 0xF4 :: Bytes.lowOfNat 2 (data.length - 1)
  Septets.write data.length ++ head ++ data

def zstdLiterals : List Bytes → Bytes
  | [] => []
  | [piece] => Bytes.lowOfNat 3 (8 * piece.length + 1) ++ piece
  | piece :: rest => Bytes.lowOfNat 3 (8 * piece.length) ++ piece ++ zstdLiterals rest

def zstdFrame (data : Bytes) : Bytes :=
  Zstd.frameMagic ++ 0xA0 :: Bytes.lowOfNat 4 data.length ++ zstdLiterals (pieces 131072 data)

def compress : Packing → Bytes → Bytes
  | stored, data => data
  | gzip, data => gzipMember data
  | snappy, data => Frames.encode snappyLiteral data
  | zstd, data => Frames.encode zstdFrame data
  | bareZstd, data => if data.isEmpty then [] else zstdFrame data

end Packing

end CellStore
