import CellStore.Proofs.FileInfo
import Mathlib.Data.List.Dedup

namespace CellStore

namespace Named

variable {entries : List (String × Bytes)} {name : String}

theorem mem_names_iff : name ∈ entries.map (·.1) ↔ (entries.lookup name).isSome := by
  rw [List.lookup_isSome_iff, List.mem_map]
  refine exists_congr fun entry => and_congr_right fun _ => ?_
  rw [beq_iff_eq, eq_comm]

theorem mem_names_ofList : name ∈ (ofList entries).map (·.1) ↔ name ∈ entries.map (·.1) := by
  rw [mem_names_iff, lookup_ofList, ← mem_names_iff, List.map_reverse, List.mem_reverse]

theorem nodup_names_ofList (entries : List (String × Bytes)) :
    ((ofList entries).map (·.1)).Nodup := by
  have ascending := sorted_ofList entries
  exact List.pairwise_map.2 (ascending.imp fun before => ne_of_lt before)

theorem length_ofList (entries : List (String × Bytes)) :
    (ofList entries).length = (entries.map (·.1)).dedup.length := by
  have same : ((ofList entries).map (·.1)).Perm (entries.map (·.1)).dedup := by
    refine (List.perm_ext_iff_of_nodup (nodup_names_ofList entries) (List.nodup_dedup _)).2 ?_
    intro name
    rw [mem_names_ofList, List.mem_dedup]
  rw [← same.length_eq, List.length_map]

theorem lookup_ofList_last {before after : List (String × Bytes)} {value : Bytes}
    (last : ∀ later ∈ after, later.1 ≠ name) :
    (ofList (before ++ (name, value) :: after)).lookup name = some value := by
  rw [lookup_ofList, List.lookup_eq_some_iff]
  refine ⟨after.reverse, before.reverse, by simp, fun later member => ?_⟩
  rw [bne_iff_ne]
  exact Ne.symm (last later (List.mem_reverse.1 member))

end Named

namespace FileInfo

def texts (pairs : List (Bytes × Bytes)) : List String :=
  pairs.map fun pair => Utf8.decodeLossy pair.1

theorem nodup_texts {pairs : List (Bytes × Bytes)} (different : (pairs.map (·.1)).Nodup)
    (valid : ∀ pair ∈ pairs, ∃ text, pair.1 = Utf8.encode text) : (texts pairs).Nodup := by
  have names : texts pairs = (pairs.map (·.1)).map Utf8.decodeLossy := by
    rw [List.map_map]
    rfl
  rw [names]
  refine different.map_on fun name member other member' same => ?_
  obtain ⟨pair, among, rfl⟩ := List.mem_map.1 member
  obtain ⟨pair', among', rfl⟩ := List.mem_map.1 member'
  obtain ⟨text, written⟩ := valid pair among
  obtain ⟨text', written'⟩ := valid pair' among'
  rw [written, written', Utf8.decodeLossy_encode, Utf8.decodeLossy_encode] at same
  rw [written, written', same]

/-- Pairs of names and values are read as one entry for each text that their names are read as, and
the last pair of a text gives its value. When all these texts are different, there are as many
entries as pairs, and each is found with its value. Different names that are UTF-8 are read as
different texts, each as its own. -/
theorem parse_entries {pairs : List (Bytes × Bytes)}
    (fits : (encodePairs pairs).length < 0x1_0000_0000_0000_0000) (rest : Bytes) :
    ∃ info, parse (magic ++ (Wire.writeDelimited (encodePairs pairs) ++ rest)) = .ok info
      ∧ info.entries.length = (texts pairs).dedup.length
      ∧ (∀ before name value after, pairs = before ++ (name, value) :: after →
        Utf8.decodeLossy name ∉ texts after → info.get? (Utf8.decodeLossy name) = some value)
      ∧ ((texts pairs).Nodup → info.entries.length = pairs.length
        ∧ ∀ pair ∈ pairs, info.get? (Utf8.decodeLossy pair.1) = some pair.2)
      ∧ ((pairs.map (·.1)).Nodup → (∀ pair ∈ pairs, ∃ text, pair.1 = Utf8.encode text) →
        info.entries.length = pairs.length
        ∧ ∀ text value, (Utf8.encode text, value) ∈ pairs → info.get? text = some value) := by
  let read : Bytes × Bytes → String × Bytes := fun pair => (Utf8.decodeLossy pair.1, pair.2)
  have names (pairs : List (Bytes × Bytes)) : (pairs.map read).map (·.1) = texts pairs := by
    rw [List.map_map]
    rfl
  have count : (ofList (pairs.map read)).entries.length = (texts pairs).dedup.length := by
    rw [ofList, Named.length_ofList, names]
  have last (before : List (Bytes × Bytes)) (name value : Bytes) (after : List (Bytes × Bytes))
      (split : pairs = before ++ (name, value) :: after)
      (unrepeated : Utf8.decodeLossy name ∉ texts after) :
      (ofList (pairs.map read)).get? (Utf8.decodeLossy name) = some value := by
    subst split
    rw [List.map_append, List.map_cons]
    refine Named.lookup_ofList_last fun later member same => unrepeated ?_
    rw [← names, ← same]
    exact List.mem_map_of_mem member
  have all (different : (texts pairs).Nodup) :
      (ofList (pairs.map read)).entries.length = pairs.length
        ∧ ∀ pair ∈ pairs,
          (ofList (pairs.map read)).get? (Utf8.decodeLossy pair.1) = some pair.2 := by
    refine ⟨by rw [count, different.dedup, texts, List.length_map], fun pair member => ?_⟩
    obtain ⟨before, after, split⟩ := List.append_of_mem member
    refine last before pair.1 pair.2 after split fun repeated => ?_
    rw [split, texts, List.map_append, List.map_cons] at different
    exact (List.nodup_cons.1 (List.nodup_append.1 different).2.1).1 repeated
  refine ⟨ofList (pairs.map read), parse_encodePairs fits rest, count, last, all, ?_⟩
  intro different valid
  obtain ⟨length, found⟩ := all (nodup_texts different valid)
  refine ⟨length, fun text value member => ?_⟩
  have here := found _ member
  rwa [Utf8.decodeLossy_encode] at here

def mixedNames : List (Bytes × Bytes) := [([0x6B], [1]), ([0xFF], [2])]

theorem parse_entries_mixedNames : (encodePairs mixedNames).length < 0x1_0000_0000_0000_0000
    ∧ (texts mixedNames).Nodup
    ∧ ∃ info, parse (magic ++ (Wire.writeDelimited (encodePairs mixedNames) ++ [9])) = .ok info
      ∧ info.entries.length = 2 ∧ info.get? "k" = some [1] ∧ info.get? "\uFFFD" = some [2] := by
  have fits : (encodePairs mixedNames).length < 0x1_0000_0000_0000_0000 := by decide
  have different : (texts mixedNames).Nodup := by decide
  obtain ⟨info, parsed, -, -, all, -⟩ := parse_entries fits [9]
  obtain ⟨length, found⟩ := all different
  exact ⟨fits, different, info, parsed, length, found ([0x6B], [1]) (by decide),
    found ([0xFF], [2]) (by decide)⟩

def likeNames : List (Bytes × Bytes) := [([0xEF, 0xBF, 0xBD], [1]), ([0xFF], [2])]

/-- Of two different names, the first of them a text, only the value of the second one is kept. -/
theorem parse_likeNames : (likeNames.map (·.1)).Nodup
    ∧ (Utf8.encode "\uFFFD", [1]) ∈ likeNames
    ∧ ∃ info, parse (magic ++ Wire.writeDelimited (encodePairs likeNames)) = .ok info
      ∧ info.entries.length = 1 ∧ info.get? "\uFFFD" = some [2] := by
  have fits : (encodePairs likeNames).length < 0x1_0000_0000_0000_0000 := by decide
  have parsed := parse_encodePairs fits []
  rw [List.append_nil] at parsed
  exact ⟨by decide, by decide, _, parsed, by decide, by decide⟩

end FileInfo

end CellStore
