import CellStore.FileInfo
import CellStore.Proofs.Message
import Mathlib.Data.List.Induction
import Mathlib.Data.String.Basic

namespace CellStore

namespace Named

def Sorted (entries : Named) : Prop := entries.Pairwise fun a b => a.1 < b.1

theorem mem_insert {name : String} {value : Bytes} {entries : Named} {entry : String × Bytes}
    (member : entry ∈ insert name value entries) : entry = (name, value) ∨ entry ∈ entries := by
  induction entries with
  | nil => simpa [insert] using member
  | cons first entries ih =>
    obtain ⟨n, v⟩ := first
    rw [insert] at member
    split at member
    · rcases List.mem_cons.1 member with found | later
      · exact .inl found
      · exact .inr (List.mem_cons_of_mem _ later)
    · split at member
      · exact List.mem_cons.1 member
      · rcases List.mem_cons.1 member with found | later
        · exact .inr (found ▸ List.mem_cons_self)
        · exact (ih later).imp_right (List.mem_cons_of_mem _)

theorem sorted_insert {entries : Named} (sorted : entries.Sorted) (name : String)
    (value : Bytes) : (insert name value entries).Sorted := by
  induction entries with
  | nil => exact List.pairwise_singleton _ _
  | cons first entries ih =>
    obtain ⟨n, v⟩ := first
    obtain ⟨before, later⟩ := List.pairwise_cons.1 sorted
    rw [insert]
    split
    · rename_i same
      exact List.pairwise_cons.2 ⟨fun entry member => same ▸ before entry member, later⟩
    · rename_i differs
      split
      · rename_i first
        refine List.pairwise_cons.2 ⟨fun entry member => ?_, sorted⟩
        rcases List.mem_cons.1 member with rfl | member
        · exact first
        · exact lt_trans first (before entry member)
      · rename_i notFirst
        refine List.pairwise_cons.2 ⟨fun entry member => ?_, ih later⟩
        rcases mem_insert member with rfl | member
        · exact lt_of_le_of_ne (not_lt.1 notFirst) (Ne.symm differs)
        · exact before entry member

theorem sorted_ofList (entries : List (String × Bytes)) : (ofList entries).Sorted := by
  have step (init : Named) (sorted : init.Sorted) :
      (entries.foldl (fun sorted entry => insert entry.1 entry.2 sorted) init).Sorted := by
    induction entries generalizing init with
    | nil => exact sorted
    | cons entry entries ih => exact ih _ (sorted_insert sorted entry.1 entry.2)
  exact step [] List.Pairwise.nil

theorem insert_last {entries : Named} {name : String} (value : Bytes)
    (last : ∀ entry ∈ entries, entry.1 < name) :
    insert name value entries = entries ++ [(name, value)] := by
  induction entries with
  | nil => rfl
  | cons first entries ih =>
    obtain ⟨n, v⟩ := first
    have after : n < name := last (n, v) List.mem_cons_self
    rw [insert, if_neg (ne_of_gt after), if_neg (lt_asymm after),
      ih fun entry member => last entry (List.mem_cons_of_mem _ member), List.cons_append]

theorem ofList_eq_self {entries : Named} (sorted : entries.Sorted) : ofList entries = entries := by
  induction entries using List.reverseRecOn with
  | nil => rfl
  | append_singleton entries last ih =>
    obtain ⟨before, -, between⟩ := List.pairwise_append.1 sorted
    rw [ofList, List.foldl_append]
    change insert last.1 last.2 (ofList entries) = _
    rw [ih before]
    exact insert_last _ fun entry member => between entry member last List.mem_cons_self

theorem lookup_ofList (entries : List (String × Bytes)) (name : String) :
    (ofList entries).lookup name = entries.reverse.lookup name := by
  induction entries using List.reverseRecOn with
  | nil => rfl
  | append_singleton entries last ih =>
    rw [ofList, List.foldl_append, List.reverse_append]
    change (insert last.1 last.2 (ofList entries)).lookup name = _
    rw [lookup_insert, ih]
    exact (lookup_cons_eq last.1 name last.2 entries.reverse).symm

end Named

namespace FileInfo

open Wire

def encodePair (pair : Bytes × Bytes) : Bytes :=
  writeBytesField 1 pair.1 ++ writeBytesField 2 pair.2

theorem pair?_encodePair (pair : Bytes × Bytes) (name : pair.1.length < 0x1_0000_0000_0000_0000)
    (value : pair.2.length < 0x1_0000_0000_0000_0000) : pair? (encodePair pair) = some pair := by
  have spells :
      Spells (encodePair pair) (bytesField? 1 (some pair.1) ++ bytesField? 2 (some pair.2)) :=
    (Spells.byteString (by decide) (by decide) name).append
      (.byteString (by decide) (by decide) value)
  simp [pair?, spells.fields?_eq (show 0 < 98 by decide), byteStrings?_append,
    byteStrings?_bytesField?]

theorem length_le_encodePair (pair : Bytes × Bytes) :
    pair.1.length ≤ (encodePair pair).length ∧ pair.2.length ≤ (encodePair pair).length := by
  simp only [encodePair, writeBytesField, List.length_append]
  omega

theorem spells_encodePairs {pairs : List (Bytes × Bytes)}
    (fits : ∀ pair ∈ pairs, (encodePair pair).length < 0x1_0000_0000_0000_0000) :
    Spells (encodePairs pairs) (pairs.map fun pair => ⟨1, .bytes (encodePair pair)⟩) := by
  induction pairs with
  | nil => exact .nil
  | cons pair pairs ih =>
    have first : Spells (writeBytesField 1 (encodePair pair)) [⟨1, .bytes (encodePair pair)⟩] :=
      .byteString (by decide) (by decide) (fits pair List.mem_cons_self)
    exact first.append (ih fun pair member => fits pair (List.mem_cons_of_mem _ member))

theorem pairs?_encodePairs {pairs : List (Bytes × Bytes)}
    (fits : ∀ pair ∈ pairs, (encodePair pair).length < 0x1_0000_0000_0000_0000) :
    pairs? (encodePairs pairs) = some pairs := by
  have messages : byteStrings? (pairs.map fun pair => ⟨1, .bytes (encodePair pair)⟩) 1 =
      some (pairs.map encodePair) := by
    clear fits
    induction pairs with
    | nil => rfl
    | cons pair pairs ih =>
      have first := byteStrings?_bytesField? 1 1 (some (encodePair pair))
      rw [List.map_cons, ← List.singleton_append, byteStrings?_append, ih]
      simp only [bytesField?, Option.elim_some, if_true] at first
      rw [first]
      rfl
  have each : (pairs.map encodePair).mapM pair? = some pairs := by
    clear messages
    induction pairs with
    | nil => rfl
    | cons pair pairs ih =>
      have small := fits pair List.mem_cons_self
      have parts := length_le_encodePair pair
      have first := pair?_encodePair pair (by omega) (by omega)
      have later := ih fun pair member => fits pair (List.mem_cons_of_mem _ member)
      simp [first, later]
  simp [pairs?, (spells_encodePairs fits).fields?_eq (show 0 < 99 by decide), messages, each]

theorem length_encodePair_le {pairs : List (Bytes × Bytes)} {pair : Bytes × Bytes}
    (member : pair ∈ pairs) : (encodePair pair).length ≤ (encodePairs pairs).length := by
  induction pairs with
  | nil => cases member
  | cons first pairs ih =>
    have split : encodePairs (first :: pairs) =
        writeBytesField 1 (encodePair first) ++ encodePairs pairs := rfl
    rw [split, List.length_append]
    rcases List.mem_cons.1 member with rfl | later
    · simp only [writeBytesField, List.length_append]
      omega
    · have := ih later
      omega

theorem parse_encodePairs {pairs : List (Bytes × Bytes)}
    (fits : (encodePairs pairs).length < 0x1_0000_0000_0000_0000) (rest : Bytes) :
    parse (magic ++ (writeDelimited (encodePairs pairs) ++ rest)) =
      .ok (ofList (pairs.map fun (name, value) => (Utf8.decodeLossy name, value))) := by
  have each (pair) (member : pair ∈ pairs) : (encodePair pair).length < 0x1_0000_0000_0000_0000 :=
    Nat.lt_of_le_of_lt (length_encodePair_le member) fits
  have start : (magic ++ (writeDelimited (encodePairs pairs) ++ rest)).take 4 = magic := rfl
  have body : (magic ++ (writeDelimited (encodePairs pairs) ++ rest)).drop 4 =
      writeDelimited (encodePairs pairs) ++ rest := rfl
  simp only [parse, start, body, ne_eq, not_true_eq_false, if_false,
    delimited?_writeDelimited fits, Option.bind_some, pairs?_encodePairs each]

def pairs (info : FileInfo) : List (Bytes × Bytes) :=
  info.entries.map fun entry => (Utf8.encode entry.1, entry.2)

theorem encode_eq (info : FileInfo) :
    info.encode = magic ++ writeDelimited (encodePairs info.pairs) := rfl

theorem parse_encode {info : FileInfo} (sorted : info.entries.Sorted)
    (fits : info.encode.length < 0x1_0000_0000_0000_0000) : parse info.encode = .ok info := by
  have small : (encodePairs info.pairs).length < 0x1_0000_0000_0000_0000 := by
    simp only [encode_eq, writeDelimited, List.length_append] at fits
    omega
  have read := parse_encodePairs small []
  have names : info.pairs.map (fun (name, value) => (Utf8.decodeLossy name, value)) =
      info.entries := by
    simp [pairs, Function.comp_def]
  rw [List.append_nil] at read
  rw [encode_eq, read, names, ofList, Named.ofList_eq_self sorted]

end FileInfo

end CellStore
