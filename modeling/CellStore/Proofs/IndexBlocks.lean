import CellStore.Proofs.Index

namespace CellStore.Index

variable {data : Bytes} {entry : IndexEntry} {entries found : List IndexEntry}

theorem exists_of_readPlace {size start place length : Nat} {rest : Bytes} {after : Input}
    (read : readPlace ⟨size, start, rest⟩ = .ok (place, length, after)) :
    ∃ behind, rest = Bytes.ofNat 8 place ++ (Bytes.ofNat 4 length ++ behind)
      ∧ after.rest = behind ∧ place < 0x8000_0000_0000_0000 ∧ length < 0x1_0000_0000 := by
  obtain ⟨⟨offset, middle⟩, first, read⟩ := exists_of_bind read
  obtain ⟨behind, rfl, rfl⟩ := Input.exists_of_number first
  obtain ⟨⟨n, last⟩, second, read⟩ := exists_of_bind read
  have short := Input.lt_of_number second
  obtain ⟨behind, rfl, rfl⟩ := Input.exists_of_number second
  by_cases negative : 0x8000_0000_0000_0000 ≤ offset
  · simp only [negative, if_true] at read
    cases read
  · simp only [negative, if_false] at read
    cases read
    exact ⟨behind, rfl, rfl, Nat.lt_of_not_le negative, short⟩

theorem ok_of_blame {result : Decoded α} {a : α} (read : blame result = .ok a) :
    result = .ok a := by
  cases result with
  | ok b => exact read
  | error e => cases e <;> cases read

theorem exists_of_readEntry {i start stop : Nat}
    (read : readEntry data data.length i start stop = .ok entry) :
    entry.Fits ∧ stop = start + 12 + entry.key.length
      ∧ data.drop start = encodePlace entry ++ (entry.key ++ data.drop stop) := by
  rw [readEntry] at read
  split at read
  · cases read
  · rename_i inside
    obtain ⟨⟨offset, size, after⟩, place, read⟩ := exists_of_bind read
    cases read
    obtain ⟨behind, here, same, offsetBound, sizeBound⟩ := exists_of_readPlace (ok_of_blame place)
    have further : data.drop (start + 12) = behind := by
      rw [← List.drop_drop, here, ← List.append_assoc]
      exact List.drop_left' (by simp)
    have length := congrArg List.length further
    have past : start + 12 + (stop - (start + 12)) = stop := by omega
    rw [List.length_drop] at length
    refine ⟨⟨offsetBound, sizeBound⟩, ?_, ?_⟩
    · simp only [same, List.length_take]
      omega
    · have key : behind = behind.take (stop - (start + 12)) ++ data.drop stop := by
        conv_lhs => rw [← List.take_append_drop (stop - (start + 12)) behind]
        rw [← further, List.drop_drop, past]
      rw [here, same, ← key, encodePlace, List.append_assoc]

theorem exists_of_readEntries {base start i : Nat} {later : List Nat}
    (read : readEntries data data.length base i (start :: later) found = .ok entries) :
    ∃ more, entries = found.reverse ++ more ∧ (∀ entry ∈ more, entry.Fits)
      ∧ start :: later = starts start more
      ∧ ∃ rest, data.drop (base + start) = encodeEntries more ++ rest := by
  induction later generalizing start i found with
  | nil =>
    cases read
    exact ⟨[], (List.append_nil _).symm, by simp, rfl, _, rfl⟩
  | cons stop later ih =>
    rw [readEntries] at read
    split at read
    · rename_i entry first
      obtain ⟨fits, ends, here⟩ := exists_of_readEntry first
      obtain ⟨more, rfl, each, same, rest, there⟩ := ih read
      have next : stop = start + 12 + entry.key.length := by omega
      refine ⟨entry :: more, by simp, List.forall_mem_cons.2 ⟨fits, each⟩, ?_, rest, ?_⟩
      · rw [starts, ← next, ← same]
      · rw [here, there]
        simp [encodeEntries]
    · cases read

theorem length_readStarts (count : Nat) (directory : Bytes) :
    (readStarts count directory).length = count := by
  simp [readStarts]

theorem flatMap_readStarts (count : Nat) (directory : Bytes)
    (room : 4 * count ≤ directory.length) :
    directory = (readStarts count directory).flatMap (Bytes.ofNat 4) ++ directory.drop (4 * count)
      ∧ ∀ n ∈ readStarts count directory, n < 0x1_0000_0000 := by
  induction count generalizing directory with
  | zero => simp [readStarts]
  | succ count ih =>
    have four : (directory.take 4).length = 4 := by
      rw [List.length_take]
      omega
    have later : 4 * count ≤ (directory.drop 4).length := by
      rw [List.length_drop]
      omega
    obtain ⟨whole, small⟩ := ih _ later
    have digits := Bytes.ofNat_toNat (directory.take 4)
    have bound := Bytes.toNat_lt (directory.take 4)
    rw [four] at digits bound
    have shift : 4 * (count + 1) = 4 + 4 * count := by omega
    rw [readStarts_succ, List.flatMap_cons, digits, shift, ← List.drop_drop, List.append_assoc,
      ← whole, List.take_append_drop]
    exact ⟨rfl, List.forall_mem_cons.2 ⟨bound, small⟩⟩

theorem last_mem_starts (start : Nat) (entries : List IndexEntry) :
    start + (encodeEntries entries).length ∈ starts start entries := by
  induction entries generalizing start with
  | nil => simp [starts, encodeEntries]
  | cons entry entries ih =>
    have last := ih (start + 12 + entry.key.length)
    refine List.mem_cons_of_mem _ ?_
    simpa [encodeEntries, Nat.add_assoc] using last

theorem parse_eq_ok_iff :
    parse data = .ok entries ↔ (∀ entry ∈ entries, entry.Fits) ∧ Laid entries data := by
  refine ⟨fun read => ?_, fun ⟨fits, laid⟩ => parse_of_laid fits laid⟩
  obtain ⟨⟨count, input⟩, number, read⟩ := exists_of_bind read
  obtain ⟨behind, whole, rfl⟩ := Input.exists_of_number (ok_of_blame number)
  dsimp only at read
  split at read
  · cases read
  · rename_i room
    have total := congrArg List.length whole
    simp only [List.length_append, Bytes.length_ofNat] at total
    obtain ⟨directory, small⟩ := flatMap_readStarts (count + 1) behind (by omega)
    have counted := length_readStarts (count + 1) behind
    obtain ⟨first, later, split⟩ := List.exists_cons_of_length_eq_add_one counted
    rw [split] at directory small counted
    change readEntries data data.length (4 * (count + 1) + 4) 0
      (readStarts (count + 1) behind) [] = .ok entries at read
    rw [split] at read
    obtain ⟨more, same, fits, starting, rest, here⟩ := exists_of_readEntries read
    rw [List.reverse_nil, List.nil_append] at same
    subst same
    rw [starting] at directory small counted
    rw [length_starts] at counted
    obtain rfl : entries.length = count := by omega
    -- What is behind the directory, up to the first entry and from it on.
    have base : data.drop (4 * (entries.length + 1) + 4) =
        behind.drop (4 * (entries.length + 1)) := by
      rw [whole, Nat.add_comm, ← List.drop_drop, List.drop_left' (Bytes.length_ofNat ..)]
    rw [← List.drop_drop, base] at here
    refine ⟨fits, first, (behind.drop (4 * (entries.length + 1))).take first, rest, ?_,
      small _ (last_mem_starts first entries), fun nonempty => ?_⟩
    · rw [← here, List.take_append_drop, encodeStarts_eq, ← directory]
      exact whole
    · have filled : 0 < (encodeEntries entries).length :=
        Nat.lt_of_lt_of_le (List.length_pos_iff.2 nonempty) (length_le_encodeEntries entries)
      have length := congrArg List.length here
      rw [List.length_drop, List.length_append] at length
      rw [List.length_take]
      omega

/-- Whatever goes wrong is said of the index. -/
def Blames (result : Decoded α) : Prop :=
  ∀ error, result = .error error → error.errorClass = .corruptIndex

namespace Blames

theorem ok (a : α) : Blames (.ok a : Decoded α) := fun _ failed => nomatch failed

theorem error {cause : FormatError} (index : cause.errorClass = .corruptIndex) :
    Blames (.error cause : Decoded α) := by
  intro error failed
  cases failed
  exact index

theorem bind {result : Decoded α} {next : α → Decoded β} (first : Blames result)
    (later : ∀ a, Blames (next a)) : Blames (result >>= next) := by
  cases result with
  | ok a => exact later a
  | error cause => exact .error (first cause rfl)

theorem blame (result : Decoded α) : Blames (blame result) := by
  cases result with
  | ok a => exact .ok a
  | error cause => cases cause <;> exact .error rfl

end Blames

theorem blames_readRootEntry (i : Nat) (input : Input) : Blames (readRootEntry i input) := by
  refine .bind (.blame _) fun (offset, size, after) => ?_
  dsimp only
  cases VarLong.readBytes after with
  | ok read => exact .ok _
  | error cause => exact .error rfl

theorem blames_readRootEntries (count : Nat) (found : List IndexEntry) (input : Input) :
    Blames (readRootEntries count found input) := by
  induction count generalizing found input with
  | zero => exact .ok _
  | succ count ih =>
    rw [readRootEntries]
    split
    · exact ih _ _
    · rename_i error failed
      exact .error (blames_readRootEntry _ _ error failed)

theorem blames_parseRoot (data : Bytes) (count levels : Nat) :
    Blames (parseRoot data count levels) :=
  .bind (blames_readRootEntries count [] _) fun _ => .ok _

theorem blames_readEntry (data : Bytes) (blockLength i start stop : Nat) :
    Blames (readEntry data blockLength i start stop) := by
  rw [readEntry]
  split
  · exact .error rfl
  · exact .bind (.blame _) fun _ => .ok _

theorem blames_readEntries (data : Bytes) (blockLength base i : Nat) (starts : List Nat)
    (found : List IndexEntry) : Blames (readEntries data blockLength base i starts found) := by
  induction starts generalizing i found with
  | nil => exact .ok _
  | cons start later ih =>
    cases later with
    | nil => exact .ok _
    | cons stop later =>
      rw [readEntries]
      split
      · exact ih _ _
      · rename_i error failed
        exact .error (blames_readEntry _ _ _ _ _ error failed)

theorem blames_parse (data : Bytes) : Blames (parse data) := by
  refine .bind (.blame _) fun (count, input) => ?_
  dsimp only
  split
  · exact .error rfl
  · exact blames_readEntries _ _ _ _ _ _

theorem length_key_le_encodeEntries (member : entry ∈ entries) :
    entry.key.length ≤ (encodeEntries entries).length := by
  obtain ⟨before, after, rfl⟩ := List.append_of_mem member
  simp only [encodeEntries, List.flatMap_append, List.flatMap_cons, List.length_append]
  omega

theorem Laid.slice? (laid : Laid entries data) :
    ∃ start, data.slice? start (encodeEntries entries).length = some (encodeEntries entries) := by
  obtain ⟨first, gap, rest, whole, -⟩ := laid
  refine ⟨_, Bytes.slice?_eq_some_iff.2 ⟨Bytes.ofNat 4 entries.length
    ++ (encodeStarts first entries ++ gap), rest, ?_, rfl, rfl⟩⟩
  rw [whole, List.append_assoc, List.append_assoc]

/-- Root blocks and blocks below the root are read back with all their entries, whatever is behind
them. The entries that are read from any block below the root stand in it one after another, as one
piece of it, and all that can go wrong is said of the index. -/
theorem blocks_read_back :
    (∀ entries : List IndexEntry, (∀ entry ∈ entries, entry.Fits) →
      (encodeEntries entries).length < 0x1_0000_0000 → ∀ rest,
        rootEntries entries.length (encodeRoot entries ++ rest) =
          .ok (entries, ⟨(encodeRoot entries ++ rest).length, (encodeRoot entries).length, rest⟩)
        ∧ parse (encode entries ++ rest) = .ok entries)
    ∧ (∀ data entries, parse data = .ok entries → Laid entries data
      ∧ ∃ start, data.slice? start (encodeEntries entries).length = some (encodeEntries entries))
    ∧ (∀ data count, Blames (rootEntries count data))
    ∧ (∀ data count levels, Blames (parseRoot data count levels))
    ∧ ∀ data, Blames (parse data) := by
  refine ⟨fun entries fits small rest => ⟨?_, ?_⟩, fun data entries read => ?_,
    fun data count => blames_readRootEntries count [] _, blames_parseRoot, blames_parse⟩
  · refine rootEntries_encodeRoot (fun entry member => ⟨fits entry member, ?_⟩) rest
    have part := length_key_le_encodeEntries member
    omega
  · refine parse_of_laid fits ⟨0, [], rest, ?_, by omega, fun _ => rfl⟩
    rw [encode_eq, List.append_assoc, List.append_assoc, List.nil_append]
  · obtain ⟨-, laid⟩ := parse_eq_ok_iff.1 read
    exact ⟨laid, laid.slice?⟩

def twoBlocks : List IndexEntry := [⟨0, 40, [0, 1, 97]⟩, ⟨40, 41, [0, 1, 98]⟩]

def twoBlocksApart : Bytes :=
  Bytes.ofNat 4 2 ++ (encodeStarts 1 twoBlocks ++ (255 :: encodeEntries twoBlocks))

/-- Both are read, with a byte before or behind them; of the block that is cut short, the second one
is refused. -/
theorem blocks_read_back_twoBlocks :
    (∀ entry ∈ twoBlocks, entry.Fits) ∧ (encodeEntries twoBlocks).length < 0x1_0000_0000
    ∧ rootEntries 2 (encodeRoot twoBlocks ++ [7]) = .ok (twoBlocks, ⟨33, 32, [7]⟩)
    ∧ parse (encode twoBlocks ++ [7]) = .ok twoBlocks
    ∧ parse twoBlocksApart = .ok twoBlocks
    ∧ (∃ start, twoBlocksApart.slice? start 30 = some (encodeEntries twoBlocks))
    ∧ parse (twoBlocksApart.take 40) = .error (.badIndex (.badSpan 1 32 47 40))
    ∧ (FormatError.badIndex (.badSpan 1 32 47 40)).errorClass = .corruptIndex := by
  have fits : ∀ entry ∈ twoBlocks, entry.Fits := by
    simp only [twoBlocks, List.forall_mem_cons]
    exact ⟨⟨by decide, by decide⟩, ⟨by decide, by decide⟩, by simp⟩
  have small : (encodeEntries twoBlocks).length < 0x1_0000_0000 := by decide
  have apart : parse twoBlocksApart = .ok twoBlocks := by rfl
  have cut : parse (twoBlocksApart.take 40) = .error (.badIndex (.badSpan 1 32 47 40)) := by rfl
  obtain ⟨written, held, -, -, blamed⟩ := blocks_read_back
  obtain ⟨root, block⟩ := written twoBlocks fits small [7]
  exact ⟨fits, small, root, block, apart, (held _ _ apart).2, cut, blamed _ _ cut⟩

end CellStore.Index
