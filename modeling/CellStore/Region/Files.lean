import CellStore.StoreFile

namespace CellStore

structure ListedFile where
  name : String
  /-- It points into the file of a parent region, and is not read. -/
  isReference : Bool

inductive Medium
  | memory
  | directory

/-- Files by name. Of several files under one name, the last counts. -/
structure FileStore where
  medium : Medium
  files : List (String × Bytes)

namespace FileStore

def fetch (store : FileStore) (name : String) : Except SourceError Source :=
  match store.files.reverse.lookup name, store.medium with
  | some bytes, _ => .ok (Source.ofBytes bytes)
  | none, .memory => .error (.noStoredFile name)
  | none, .directory => .error (.noLocalFile name)

def load (store : FileStore) : List ListedFile → Fetched (List StoreFile)
  | [] => .ok []
  | listed :: files => do
    if listed.isReference then load store files
    else
      let source ← store.fetch listed.name
      let file ← StoreFile.load source
      return file :: (← load store files)

end FileStore

end CellStore
