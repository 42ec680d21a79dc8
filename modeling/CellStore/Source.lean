import CellStore.Error

namespace CellStore

structure Source where
  bytes : Bytes
  size : Nat
  size_eq : size = bytes.length

namespace Source

def ofBytes (bytes : Bytes) : Source := ⟨bytes, bytes.length, rfl⟩

def readAt (source : Source) (offset length : Nat) : Except SourceError Bytes :=
  if offset + length ≤ source.size then .ok ((source.bytes.drop offset).take length)
  else .error (.outOfRange length offset source.size)

end Source

/-- What can read from sources. Readers are written for any such `m`, so that the same ones can give
account of what they read. -/
class SourceReader (m : Type → Type) where
  readAt (source : Source) (offset length : Nat) : m Bytes

@[default_instance]
instance : SourceReader Fetched where
  readAt source offset length := liftM (source.readAt offset length)

@[simp] theorem SourceReader.readAt_eq (source : Source) (offset length : Nat) :
    (SourceReader.readAt source offset length : Fetched Bytes) =
      liftM (source.readAt offset length) := rfl

end CellStore
