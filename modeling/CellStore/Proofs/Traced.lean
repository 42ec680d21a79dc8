import CellStore.Region.Scan
import CellStore.Traced

/-! Readers read only what is there. What a file says of sizes and offsets is checked against the
source before anything is read, so no error of a source is ever seen. -/

namespace CellStore

class Classified (ε : Type) where
  errorClass : ε → ErrorClass

instance : Classified ReadError := ⟨ReadError.errorClass⟩

instance : Classified CursorError := ⟨CursorError.errorClass⟩

theorem unsourced_format (error : FormatError) :
    Classified.errorClass (ReadError.format error) ≠ .source := by
  cases error <;> nofun

variable {ε α β γ δ : Type} [Classified ε]

/-- A reader that gives what `given` is, or something like it, has read nothing that is not there,
and has not failed because of its source. -/
inductive Traced.Accounts (like : α → β → Prop) : Traced ε α → Except ε β → Prop
  | ok {reads : List Access} {a : α} {b : β} (inside : ∀ access ∈ reads, access.Inside)
    (given : like a b) : Accounts like ⟨reads, .ok a⟩ (.ok b)
  | error {reads : List Access} {error : ε} (inside : ∀ access ∈ reads, access.Inside)
    (unsourced : Classified.errorClass error ≠ .source) :
    Accounts like ⟨reads, .error error⟩ (.error error)

namespace Traced.Accounts

section

variable {like like' : α → β → Prop} {reader reader' : Traced ε α} {given given' : Except ε β}

theorem pure {a : α} {b : β} (given : like a b) :
    Accounts like (Pure.pure a : Traced ε α) (Pure.pure b) :=
  .ok (List.forall_mem_nil _) given

theorem throw {error : ε} (unsourced : Classified.errorClass error ≠ .source) :
    Accounts like (MonadExcept.throw error : Traced ε α) (.error error) :=
  .error (List.forall_mem_nil _) unsourced

theorem imp (accounts : Accounts like reader given) (implied : ∀ a b, like a b → like' a b) :
    Accounts like' reader given := by
  cases accounts with
  | ok inside given => exact .ok inside (implied _ _ given)
  | error inside unsourced => exact .error inside unsourced

theorem before {reads : List Access} (inside : ∀ access ∈ reads, access.Inside)
    (accounts : Accounts like reader given) :
    Accounts like ⟨reads ++ reader.reads, reader.result⟩ given := by
  cases accounts with
  | ok inside' given => exact .ok (List.forall_mem_append.2 ⟨inside, inside'⟩) given
  | error inside' unsourced => exact .error (List.forall_mem_append.2 ⟨inside, inside'⟩) unsourced

theorem tryCatch {handle : ε → Traced ε α} {handle' : ε → Except ε β}
    (tried : Accounts like reader given)
    (later : ∀ error, Accounts like (handle error) (handle' error)) :
    Accounts like (MonadExcept.tryCatch reader handle)
      (MonadExcept.tryCatch given handle') := by
  cases tried with
  | ok inside given => exact .ok inside given
  | error inside unsourced => exact (later _).before inside

end

section

variable {like : α → β → Prop} {like' : γ → δ → Prop}

theorem bind {reader : Traced ε α} {given : Except ε β} {next : α → Traced ε γ}
    {next' : β → Except ε δ} (first : Accounts like reader given)
    (later : ∀ a b, like a b → Accounts like' (next a) (next' b)) :
    Accounts like' (reader >>= next) (given >>= next') := by
  cases first with
  | ok inside given => exact (later _ _ given).before inside
  | error inside unsourced => exact .error inside unsourced

theorem andThen {reader : Traced ε α} {given : Except ε α} {next : α → Traced ε γ}
    {next' : α → Except ε δ} (first : Accounts Eq reader given)
    (later : ∀ a, Accounts like' (next a) (next' a)) :
    Accounts like' (reader >>= next) (given >>= next') := by
  refine first.bind fun a b same => ?_
  cases same
  exact later a

end

theorem decoded (result : Decoded α) :
    Accounts Eq (liftM result : Traced ReadError α) (liftM result) := by
  cases result with
  | ok a => exact .ok (List.forall_mem_nil _) rfl
  | error error => exact .error (List.forall_mem_nil _) (unsourced_format error)

theorem read {like : α → β → Prop} {reader : Traced ReadError α} {given : Fetched β}
    (accounts : Accounts like reader given) :
    Accounts like (liftM reader : Traced CursorError α) (liftM given : Moved β) := by
  cases accounts with
  | ok inside given => exact .ok inside given
  | error inside unsourced => exact .error inside unsourced

end Traced.Accounts

open Traced (Accounts)

theorem Source.readAt_accounts (source : Source) {offset length : Nat}
    (inside : offset + length ≤ source.size) :
    Accounts Eq (SourceReader.readAt source offset length)
      (SourceReader.readAt source offset length) := by
  have read : (SourceReader.readAt source offset length : Fetched Bytes) =
      .ok ((source.bytes.drop offset).take length) := by
    rw [SourceReader.readAt_eq, readAt, if_pos inside]
    rfl
  rw [read]
  change Accounts Eq ⟨[_], SourceReader.readAt source offset length⟩ _
  rw [read]
  refine .ok (fun access read => ?_) rfl
  obtain rfl := List.mem_singleton.1 read
  exact inside

namespace Block

variable (source : Source) (what : String) (offset length : Nat) (codec : Codec)

theorem fetch_accounts :
    Accounts Eq (fetch source what offset length) (fetch source what offset length) := by
  rw [fetch, fetch]
  by_cases short : source.size < offset + length
  · rw [if_pos short, if_pos short]
    exact .throw (unsourced_format _)
  · rw [if_neg short, if_neg short]
    exact source.readAt_accounts (Nat.le_of_not_lt short)

theorem readHeader_accounts : Accounts Eq (readHeader source offset) (readHeader source offset) :=
  (fetch_accounts ..).andThen fun _ => .decoded _

theorem read_accounts : Accounts Eq (read source offset codec) (read source offset codec) :=
  (fetch_accounts ..).andThen fun _ =>
    (Accounts.decoded _).andThen fun _ =>
      (fetch_accounts ..).andThen fun _ => .decoded _

end Block

theorem Trailer.read_accounts (source : Source) : Accounts Eq (read source) (read source) := by
  rw [read, read]
  by_cases short : source.size < size
  · rw [if_pos short, if_pos short]
    exact .throw (unsourced_format _)
  · rw [if_neg short, if_neg short]
    refine (source.readAt_accounts ?_).andThen fun _ => .decoded _
    exact Nat.le_of_eq (Nat.sub_add_cancel (Nat.le_of_not_lt short))

theorem BloomFilter.mayContain_accounts (filter : BloomFilter) (source : Source) (codec : Codec)
    (key : Bytes) :
    Accounts Eq (filter.mayContain source codec key) (filter.mayContain source codec key) := by
  rw [mayContain, mayContain]
  by_cases empty : filter.chunks.isEmpty
  · rw [if_pos empty, if_pos empty]
    exact .pure rfl
  · rw [if_neg empty, if_neg empty]
    cases Index.search filter.chunks compare key with
    | none => exact .pure rfl
    | some i =>
      exact (Block.read_accounts ..).andThen fun _ =>
        (Accounts.decoded _).andThen fun _ => .pure rfl

namespace StoreFile

theorem readMetaIndex_accounts (source : Source) (trailer : Trailer) (offset : Nat) :
    Accounts Eq (readMetaIndex source trailer offset) (readMetaIndex source trailer offset) := by
  rw [readMetaIndex, readMetaIndex]
  split
  · refine (Block.read_accounts ..).andThen fun _ =>
      (Accounts.decoded _).andThen fun _ => (Accounts.decoded _).andThen fun parsed => ?_
    obtain ⟨entries, after⟩ := parsed
    exact .pure rfl
  · exact (Block.readHeader_accounts ..).andThen fun _ => .pure rfl

theorem readBloom_accounts (source : Source) (codec : Codec) (offset : Nat) :
    Accounts Eq (readBloom source codec offset) (readBloom source codec offset) := by
  rw [readBloom, readBloom]
  by_cases outside : Trailer.start source.size ≤ offset
  · rw [if_pos outside, if_pos outside]
    exact .pure rfl
  · rw [if_neg outside, if_neg outside]
    have tried : Accounts Eq (some <$> Block.readHeader source offset)
        (some <$> Block.readHeader source offset) :=
      (Block.readHeader_accounts source offset).andThen fun _ => .pure rfl
    refine (tried.tryCatch fun _ => .pure rfl).andThen fun header => ?_
    cases header.bind (·.kind.toOption) with
    | none => exact .pure rfl
    | some kind =>
      cases kind with
      | generalBloomMeta =>
        exact (Block.read_accounts ..).andThen fun _ =>
          (Accounts.decoded _).andThen fun _ => .pure rfl
      | _ => exact .pure rfl

theorem load_accounts (source : Source) : Accounts Eq (load source) (load source) := by
  refine (Trailer.read_accounts source).andThen fun trailer => ?_
  refine (Block.read_accounts ..).andThen fun root => ?_
  refine (Accounts.decoded _).andThen fun _ => (Accounts.decoded _).andThen fun index => ?_
  refine (readMetaIndex_accounts ..).andThen fun found => ?_
  obtain ⟨metaIndex, infoOffset⟩ := found
  refine (Block.read_accounts ..).andThen fun block => ?_
  refine (Accounts.decoded _).andThen fun _ => (Accounts.decoded _).andThen fun info => ?_
  refine (Accounts.decoded _).andThen fun encoding => (Accounts.decoded _).andThen fun format => ?_
  exact (readBloom_accounts ..).andThen fun bloom => .pure rfl

variable (file : StoreFile)

theorem readBlock_accounts (offset : Nat) :
    Accounts Eq (file.readBlock offset) (file.readBlock offset) :=
  Block.read_accounts ..

theorem readIndexBlock_accounts (offset : Nat) :
    Accounts Eq (file.readIndexBlock offset) (file.readIndexBlock offset) :=
  (file.readBlock_accounts offset).andThen fun _ =>
    (Accounts.decoded _).andThen fun _ => (Accounts.decoded _).andThen fun _ => by
      dsimp only
      split
      · exact .throw (unsourced_format _)
      · exact .pure rfl

theorem readRecords_accounts (offset : Nat) :
    Accounts Eq (file.readRecords offset) (file.readRecords offset) :=
  (file.readBlock_accounts offset).andThen fun _ =>
    (Accounts.decoded _).andThen fun _ => by
      split
      · exact .decoded _
      · exact .pure rfl

theorem mayContainRow_accounts (row : Bytes) :
    Accounts Eq (file.mayContainRow row) (file.mayContainRow row) := by
  rw [mayContainRow, mayContainRow]
  cases file.bloom with
  | none => exact .pure rfl
  | some filter =>
    cases file.bloomKind with
    | row => exact filter.mayContain_accounts ..
    | _ => exact .pure rfl

theorem metaBlock_accounts (name : String) :
    Accounts Eq (file.metaBlock name) (file.metaBlock name) := by
  rw [metaBlock, metaBlock]
  cases file.metaIndex.find? (·.key = Utf8.encode name) with
  | none => exact .pure rfl
  | some entry =>
    exact (file.readBlock_accounts ..).andThen fun _ =>
      (Accounts.decoded _).andThen fun _ => .pure rfl

theorem candidates_accounts (row : Bytes) (files : List StoreFile) :
    Accounts Eq (candidates row files) (candidates row files) := by
  induction files with
  | nil => exact .pure rfl
  | cons file files ih =>
    refine (file.mayContainRow_accounts row).andThen fun holds => ?_
    cases holds with
    | true => exact ih.andThen fun _ => .pure rfl
    | false => exact ih

end StoreFile

end CellStore
