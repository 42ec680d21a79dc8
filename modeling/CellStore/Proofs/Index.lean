import CellStore.Index.Writer
import CellStore.Proofs.Integer
import Mathlib.Tactic.Common

namespace CellStore

structure IndexEntry.Fits (entry : IndexEntry) : Prop where
  offset : entry.offset < 0x8000_0000_0000_0000
  size : entry.size < 0x1_0000_0000

namespace Index

variable {entry : IndexEntry} {entries : List IndexEntry}

@[simp] theorem length_encodePlace (entry : IndexEntry) : (encodePlace entry).length = 12 := by
  simp [encodePlace]

theorem readPlace_encodePlace (fits : entry.Fits) (size offset : Nat) (rest : Bytes) :
    readPlace ⟨size, offset, encodePlace entry ++ rest⟩ =
      .ok (entry.offset, entry.size, ⟨size, offset + 12, rest⟩) := by
  have offsetBound := fits.offset
  have sizeBound := fits.size
  have offsetRead := (Input.reads_number 8 entry.offset "index entry" (by omega)).eq size offset
  have sizeRead := (Input.reads_number 4 entry.size "index entry" (by omega)).eq size (offset + 8)
  have positive : ¬ 0x8000_0000_0000_0000 ≤ entry.offset := by omega
  simp only [Bytes.length_ofNat] at offsetRead sizeRead
  simp only [readPlace, encodePlace, List.append_assoc, offsetRead, ok_bind, sizeRead, positive,
    if_false, pure_eq_ok]

theorem reads_rootEntry (fits : entry.Fits) (key : entry.key.length < 0x8000_0000_0000_0000)
    (i : Nat) :
    Reads (readRootEntry i) (encodePlace entry ++ VarLong.writeBytes entry.key) entry := by
  intro size offset rest
  have place := readPlace_encodePlace fits size offset (VarLong.writeBytes entry.key ++ rest)
  have read := (VarLong.reads_writeBytes key).eq size (offset + 12) rest
  simp only [readRootEntry, List.append_assoc, place, blame, ok_bind, read, pure_eq_ok,
    List.length_append, length_encodePlace, Nat.add_assoc]

theorem readRootEntries_encodeRoot
    (fits : ∀ entry ∈ entries, entry.Fits ∧ entry.key.length < 0x8000_0000_0000_0000)
    (found : List IndexEntry) (size offset : Nat) (rest : Bytes) :
    readRootEntries entries.length found ⟨size, offset, encodeRoot entries ++ rest⟩ =
      .ok (found.reverse ++ entries, ⟨size, offset + (encodeRoot entries).length, rest⟩) := by
  induction entries generalizing found offset with
  | nil => simp [readRootEntries, encodeRoot]
  | cons entry entries ih =>
    obtain ⟨place, key⟩ := fits entry List.mem_cons_self
    have first := (reads_rootEntry place key found.length).eq size offset
      (encodeRoot entries ++ rest)
    have later := ih (fun entry member => fits entry (List.mem_cons_of_mem _ member))
      (entry :: found) (offset + (encodePlace entry ++ VarLong.writeBytes entry.key).length)
    have split : encodeRoot (entry :: entries) =
        encodePlace entry ++ VarLong.writeBytes entry.key ++ encodeRoot entries := rfl
    generalize encodePlace entry ++ VarLong.writeBytes entry.key = written at first later split
    rw [List.length_cons, readRootEntries, split, List.append_assoc, first]
    simp only [later, List.reverse_cons, List.append_assoc, List.singleton_append,
      List.length_append, Nat.add_assoc]

theorem rootEntries_encodeRoot
    (fits : ∀ entry ∈ entries, entry.Fits ∧ entry.key.length < 0x8000_0000_0000_0000)
    (rest : Bytes) :
    rootEntries entries.length (encodeRoot entries ++ rest) =
      .ok (entries, ⟨(encodeRoot entries ++ rest).length, (encodeRoot entries).length, rest⟩) := by
  have read := readRootEntries_encodeRoot fits [] (encodeRoot entries ++ rest).length 0 rest
  rw [List.reverse_nil, List.nil_append, Nat.zero_add] at read
  exact read

/-- Where entries start and where the last one stops, when the first starts at `start`. -/
def starts : (start : Nat) → List IndexEntry → List Nat
  | start, [] => [start]
  | start, entry :: entries => start :: starts (start + 12 + entry.key.length) entries

theorem encodeStarts_eq (start : Nat) (entries : List IndexEntry) :
    encodeStarts start entries = (starts start entries).flatMap (Bytes.ofNat 4) := by
  induction entries generalizing start with
  | nil => simp [encodeStarts, starts]
  | cons entry entries ih => rw [encodeStarts, starts, List.flatMap_cons, ih]

theorem length_starts (start : Nat) (entries : List IndexEntry) :
    (starts start entries).length = entries.length + 1 := by
  induction entries generalizing start with
  | nil => rfl
  | cons entry entries ih => simp [starts, ih]

theorem starts_eq_cons (start : Nat) (entries : List IndexEntry) :
    ∃ later, starts start entries = start :: later := by
  cases entries with
  | nil => exact ⟨[], rfl⟩
  | cons entry entries => exact ⟨_, rfl⟩

theorem readStarts_succ (count : Nat) (directory : Bytes) :
    readStarts (count + 1) directory =
      Bytes.toNat (directory.take 4) :: readStarts count (directory.drop 4) := by
  have shift (i : Nat) : 4 * (i + 1) = 4 + 4 * i := by omega
  rw [readStarts, List.range_succ_eq_map, List.map_cons, List.map_map]
  simp only [readStarts, Nat.mul_zero, List.drop_zero, Function.comp_def, Nat.succ_eq_add_one,
    shift, List.drop_drop]

theorem readStarts_flatMap {numbers : List Nat} (small : ∀ n ∈ numbers, n < 0x1_0000_0000)
    (rest : Bytes) :
    readStarts numbers.length (numbers.flatMap (Bytes.ofNat 4) ++ rest) = numbers := by
  induction numbers with
  | nil => rfl
  | cons n numbers ih =>
    have later := ih fun n member => small n (List.mem_cons_of_mem _ member)
    have same := Nat.mod_eq_of_lt (small n List.mem_cons_self)
    rw [List.length_cons, readStarts_succ, List.flatMap_cons, List.append_assoc,
      List.take_left' (Bytes.length_ofNat 4 n), List.drop_left' (Bytes.length_ofNat 4 n), later,
      Bytes.toNat_ofNat]
    rw [show n % 256 ^ 4 = n from same]

def encodeEntries (entries : List IndexEntry) : Bytes :=
  entries.flatMap fun entry => encodePlace entry ++ entry.key

theorem encode_eq (entries : List IndexEntry) :
    encode entries = Bytes.ofNat 4 entries.length ++ (encodeStarts 0 entries
      ++ encodeEntries entries) := by
  rw [← List.append_assoc]
  rfl

theorem le_of_mem_starts {start n : Nat} (member : n ∈ starts start entries) :
    n ≤ start + (encodeEntries entries).length := by
  induction entries generalizing start with
  | nil =>
    rw [starts, List.mem_singleton] at member
    omega
  | cons entry entries ih =>
    rw [starts, List.mem_cons] at member
    simp only [encodeEntries, List.flatMap_cons, List.length_append, length_encodePlace]
    rcases member with rfl | later
    · omega
    · have := ih later
      simp only [encodeEntries] at this
      omega

theorem readEntry_encode (fits : entry.Fits) {data rest : Bytes} {start : Nat}
    (here : data.drop start = encodePlace entry ++ (entry.key ++ rest)) (i : Nat) :
    readEntry data data.length i start (start + (12 + entry.key.length)) = .ok entry := by
  have length := congrArg List.length here
  simp only [List.length_drop, List.length_append, length_encodePlace] at length
  have good : ¬ (data.length < start + (12 + entry.key.length) ∨
      start + (12 + entry.key.length) < start + 12) := by omega
  have place := readPlace_encodePlace fits data.length start (entry.key ++ rest)
  have key : start + (12 + entry.key.length) - (start + 12) = entry.key.length := by omega
  simp only [readEntry, good, if_false, Input.startingAt, here, place, blame, ok_bind, pure_eq_ok,
    key, List.take_left]

theorem readEntries_starts (fits : ∀ entry ∈ entries, entry.Fits) {data rest : Bytes}
    {base start : Nat} (here : data.drop (base + start) = encodeEntries entries ++ rest)
    (i : Nat) (found : List IndexEntry) :
    readEntries data data.length base i (starts start entries) found =
      .ok (found.reverse ++ entries) := by
  induction entries generalizing start i found with
  | nil => simp [starts, readEntries]
  | cons entry entries ih =>
    obtain ⟨later, next⟩ := starts_eq_cons (start + 12 + entry.key.length) entries
    have split : data.drop (base + start) =
        encodePlace entry ++ (entry.key ++ (encodeEntries entries ++ rest)) := by
      rw [here]
      simp [encodeEntries]
    have first := readEntry_encode (fits entry List.mem_cons_self) split i
    have after : data.drop (base + (start + 12 + entry.key.length)) =
        encodeEntries entries ++ rest := by
      have past : base + (start + 12 + entry.key.length) =
          base + start + 12 + entry.key.length := by
        omega
      rw [past, ← List.drop_drop, ← List.drop_drop, split,
        List.drop_left' (length_encodePlace entry), List.drop_left]
    have rest := ih (fun entry member => fits entry (List.mem_cons_of_mem _ member)) after (i + 1)
      (entry :: found)
    rw [next] at rest
    have stop : base + (start + 12 + entry.key.length) =
        base + start + (12 + entry.key.length) := by
      omega
    rw [starts, next, readEntries]
    simp only [stop, first, rest, List.reverse_cons, List.append_assoc, List.singleton_append]

theorem length_encodeStarts (start : Nat) (entries : List IndexEntry) :
    (encodeStarts start entries).length = 4 * (entries.length + 1) := by
  rw [encodeStarts_eq, ← length_starts start entries]
  generalize starts start entries = numbers
  induction numbers with
  | nil => rfl
  | cons n numbers ih => simp [ih]; omega

theorem length_le_encodeEntries (entries : List IndexEntry) :
    entries.length ≤ (encodeEntries entries).length := by
  induction entries with
  | nil => exact Nat.le_refl _
  | cons entry entries ih =>
    simp only [encodeEntries, List.flatMap_cons, List.length_append, List.length_cons,
      length_encodePlace] at ih ⊢
    omega

/-- A block that holds these entries one after another, and says where. There may be bytes before
the first one and behind the last one. -/
def Laid (entries : List IndexEntry) (data : Bytes) : Prop :=
  ∃ first gap rest, data = Bytes.ofNat 4 entries.length ++ (encodeStarts first entries ++
      (gap ++ (encodeEntries entries ++ rest)))
    ∧ first + (encodeEntries entries).length < 0x1_0000_0000 ∧ (entries ≠ [] → gap.length = first)

theorem parse_of_laid {data : Bytes} (fits : ∀ entry ∈ entries, entry.Fits)
    (laid : Laid entries data) : parse data = .ok entries := by
  obtain ⟨first, gap, rest, whole, small, place⟩ := laid
  have directory := length_encodeStarts first entries
  have many := length_le_encodeEntries entries
  have number := (Input.reads_number 4 entries.length "non-root index entry count" (by omega)).eq
    data.length 0 (encodeStarts first entries ++ (gap ++ (encodeEntries entries ++ rest)))
  rw [← whole] at number
  have room : ¬ data.length < 4 * (entries.length + 1) + 4 := by
    simp only [whole, List.length_append, directory, Bytes.length_ofNat]
    omega
  have numbers : readStarts (entries.length + 1)
      (encodeStarts first entries ++ (gap ++ (encodeEntries entries ++ rest))) =
        starts first entries := by
    rw [encodeStarts_eq, ← length_starts first entries]
    apply readStarts_flatMap
    intro n member
    have := le_of_mem_starts member
    omega
  have read : readEntries data data.length (4 * (entries.length + 1) + 4) 0
      (starts first entries) [] = .ok entries := by
    by_cases none : entries = []
    · subst none
      rfl
    · have here : data.drop (4 * (entries.length + 1) + 4 + first) =
          encodeEntries entries ++ rest := by
        rw [whole, ← List.append_assoc, ← List.append_assoc]
        apply List.drop_left'
        simp only [List.length_append, directory, Bytes.length_ofNat, place none]
        omega
      exact readEntries_starts fits here 0 []
  simp only [parse, Input.ofBytes, number, blame, ok_bind, room, if_false, numbers, read]

theorem parse_encode (fits : ∀ entry ∈ entries, entry.Fits)
    (small : (encode entries).length < 0x1_0000_0000) (rest : Bytes) :
    parse (encode entries ++ rest) = .ok entries := by
  refine parse_of_laid fits ⟨0, [], rest, ?_, ?_, fun _ => rfl⟩
  · rw [encode_eq, List.append_assoc, List.append_assoc, List.nil_append]
  · rw [encode_eq, List.length_append, List.length_append] at small
    omega

theorem search_eq_some {order : Bytes → Bytes → Ordering} {key : Bytes} {i : Nat}
    (found : search entries order key = some i) :
    ∃ entry, entries[i]? = some entry ∧ order entry.key key ≠ .gt := by
  simp only [search] at found
  split at found
  · rename_i kept
    simp only [Option.some.injEq] at found
    rw [found] at kept
    cases here : entries[i]? with
    | none => simp [here] at kept
    | some entry => exact ⟨entry, rfl, by simpa [here] using kept⟩
  · cases found

end Index

end CellStore
