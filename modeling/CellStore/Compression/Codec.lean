namespace CellStore

inductive Codec
  | gzip
  | stored
  | snappy
  | zstd
  deriving DecidableEq

namespace Codec

def id : Codec → Nat
  | gzip => 1
  | stored => 2
  | snappy => 3
  | zstd => 6

def ofId? : Nat → Option Codec
  | 1 => some gzip
  | 2 => some stored
  | 3 => some snappy
  | 6 => some zstd
  | _ => none

@[simp] theorem ofId?_id (codec : Codec) : ofId? codec.id = some codec := by
  cases codec <;> rfl

def name : Codec → String
  | gzip => "GZIP"
  | stored => "NONE"
  | snappy => "SNAPPY"
  | zstd => "ZSTD"

end Codec

end CellStore
