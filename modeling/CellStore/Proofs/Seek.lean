import CellStore.Proofs.Index
import CellStore.Proofs.ReadBack

open Std (TransCmp)

namespace CellStore

theorem Run.dropUntil_ofCells (found : StoredCell → Bool) (cells : List StoredCell) :
    (ofCells cells fun _ => .finished).dropUntil found =
      ofCells (cells.dropWhile fun stored => !found stored) fun _ => .finished := by
  induction cells with
  | nil => rfl
  | cons stored cells ih =>
    rw [ofCells, dropUntil_cell, List.dropWhile_cons]
    cases found stored with
    | false => exact ih
    | true => rfl

namespace StoreFile

variable {file : StoreFile} {key : Bytes}

/-- In front of a cell that is not after `key` are only cells that are before it. -/
def Split (key : Bytes) (cells : List StoredCell) : Prop :=
  cells.Pairwise fun a b => Key.order b.key key ≠ .gt → Key.order a.key key = .lt

theorem split_of_ascending {cells : List StoredCell}
    (ascending : cells.Pairwise fun a b => Key.order a.key b.key = .lt) : Split key cells :=
  ascending.imp fun before reached =>
    TransCmp.lt_of_lt_of_isLE before (Ordering.ne_gt_iff_isLE.1 reached)

theorem Split.of_append {before after : List StoredCell} (split : Split key (before ++ after)) :
    Split key after := (List.pairwise_append.1 split).2.1

theorem Split.before_lt {before after : List StoredCell} (split : Split key (before ++ after))
    {first : StoredCell} (member : first ∈ after) (reached : Key.order first.key key ≠ .gt) :
    ∀ stored ∈ before, Key.order stored.key key = .lt :=
  fun stored here => (List.pairwise_append.1 split).2.2 stored here first member reached

theorem before_search {height : Nat} {entries : List IndexEntry} {parts : List (List StoredCell)}
    (covers : List.Forall₂ (file.Covers height) entries parts) (split : Split key parts.flatten) :
    ∃ before, parts.flatten = before
        ++ (parts.drop ((Index.search entries Key.order key).getD 0)).flatten
      ∧ ∀ stored ∈ before, Key.order stored.key key = .lt := by
  cases found : Index.search entries Key.order key with
  | none => exact ⟨[], by simp, by simp⟩
  | some i =>
    obtain ⟨entry, here, reached⟩ := Index.search_eq_some found
    obtain ⟨inside, rfl⟩ := List.getElem?_eq_some_iff.1 here
    have later := List.forall₂_drop i covers
    rw [List.drop_eq_getElem_cons inside, List.forall₂_cons_left_iff] at later
    obtain ⟨cells, rest, lands, -, there⟩ := later
    obtain ⟨first, _, rfl, same⟩ := lands.exists_cons
    have whole : parts.flatten = (parts.take i).flatten ++ (parts.drop i).flatten := by
      rw [← List.flatten_append, List.take_append_drop]
    refine ⟨_, whole, ?_⟩
    rw [whole, there] at split
    have reached : Key.order first.key key ≠ .gt := by rwa [same]
    exact split.before_lt (by simp) reached

/-- The descent leaves out only cells before `key`. -/
theorem runFrom_eq {height : Nat} {entries : List IndexEntry} {parts : List (List StoredCell)}
    (covers : List.Forall₂ (file.Covers height) entries parts) (split : Split key parts.flatten)
    (next : Unit → Run) :
    ∃ before after, parts.flatten = before ++ after
      ∧ (∀ stored ∈ before, Key.order stored.key key = .lt)
      ∧ file.runFrom key height entries next = Run.ofCells after next := by
  induction height generalizing entries parts next with
  | zero =>
    obtain ⟨before, whole, passed⟩ := before_search covers split
    have inside := List.forall₂_drop ((Index.search entries Key.order key).getD 0) covers
    have run := concat_subtrees inside next
    refine ⟨before, _, whole, passed, ?_⟩
    rw [runFrom, ← run]
    cases entries.drop ((Index.search entries Key.order key).getD 0) <;> rfl
  | succ height ih =>
    obtain ⟨before, whole, passed⟩ := before_search covers split
    have inside := List.forall₂_drop ((Index.search entries Key.order key).getD 0) covers
    rw [runFrom]
    cases entered : entries.drop ((Index.search entries Key.order key).getD 0) with
    | nil =>
      rw [entered, List.forall₂_nil_left_iff] at inside
      rw [inside] at whole
      exact ⟨before, _, whole, passed, rfl⟩
    | cons entry later =>
      rw [entered, List.forall₂_cons_left_iff] at inside
      obtain ⟨_, rest, ⟨-, entries, parts, read, each, rfl⟩, others, there⟩ := inside
      rw [there, List.flatten_cons] at whole
      rw [whole] at split
      -- The block that is entered may still begin with cells before `key`.
      have within := (List.pairwise_append.1 split.of_append).1
      obtain ⟨skipped, after, cut, passed', run⟩ := ih each within fun _ =>
        Run.concat (file.subtreeRun (height + 1)) next later
      have remaining := concat_subtrees others next
      refine ⟨before ++ skipped, after ++ rest.flatten, ?_, ?_, ?_⟩
      · rw [whole, cut, List.append_assoc, List.append_assoc]
      · exact List.forall_mem_append.2 ⟨passed, passed'⟩
      · simp only [read, RunReader.follow_ok]
        rw [run, remaining, Run.ofCells_append]

theorem seekRun_eq {cells : List StoredCell} (contains : file.Contains cells)
    (split : Split key cells) : file.seekRun key =
      Run.ofCells (cells.dropWhile fun stored => Key.order stored.key key = .lt)
        fun _ => .finished := by
  obtain ⟨parts, covers, rfl⟩ := contains
  obtain ⟨before, after, whole, skipped, run⟩ := runFrom_eq covers split fun _ => .finished
  have none (stored : StoredCell) (member : stored ∈ before) :
      decide (Key.order stored.key key = .lt) = true := decide_eq_true (skipped stored member)
  rw [seekRun, run, Run.dropUntil_ofCells, whole, List.dropWhile_append_of_pos none]
  simp

end StoreFile

namespace Cursor

/-- Where a cursor gets by moves that do not fail. -/
inductive Reaches (start : Cursor) : Cursor → Prop
  | start : Reaches start start
  | next {cursor moved : Cursor} {found : Bool} :
    Reaches start cursor → cursor.next = (.ok found, moved) → Reaches start moved
  | first {cursor moved : Cursor} {found : Bool} :
    Reaches start cursor → cursor.first = (.ok found, moved) → Reaches start moved
  | seek {cursor moved : Cursor} {found : Bool} (target : SeekTarget) :
    Reaches start cursor → cursor.seek target = (.ok found, moved) → Reaches start moved

def Live (file : StoreFile) (cursor : Cursor) : Prop :=
  cursor.file = file ∧ ∃ current ahead, cursor.position = .at current ahead

variable {file : StoreFile} {cursor moved : Cursor} {found : Bool}

theorem Live.enter (live : cursor.Live file) {run : Run}
    (entered : cursor.enter run = (.ok found, moved)) : moved.Live file := by
  cases run with
  | finished =>
    obtain ⟨-, rfl⟩ := Prod.mk.inj entered
    exact ⟨live.1, _, _, rfl⟩
  | failed error => cases (Prod.mk.inj entered).1
  | cell stored rest =>
    obtain ⟨-, rfl⟩ := Prod.mk.inj entered
    exact ⟨live.1, _, _, rfl⟩

theorem Reaches.live (reaches : (ofFile file).Reaches cursor) : cursor.Live file := by
  induction reaches with
  | start => exact ⟨rfl, _, _, rfl⟩
  | next _ moves live =>
    obtain ⟨same, current, ahead, position⟩ := live
    rw [Cursor.next, position] at moves
    exact Live.enter ⟨same, _, _, position⟩ moves
  | first _ moves live =>
    obtain ⟨same, current, ahead, position⟩ := live
    rw [Cursor.first, position] at moves
    exact Live.enter ⟨same, _, _, position⟩ moves
  | seek target _ moves live =>
    obtain ⟨same, current, ahead, position⟩ := live
    rw [Cursor.seek, position] at moves
    exact Live.enter ⟨same, _, _, position⟩ moves

theorem Live.seek_eq (live : cursor.Live file) (target : SeekTarget) :
    cursor.seek target = cursor.enter (file.seekRun target.toKey) := by
  obtain ⟨rfl, current, ahead, position⟩ := live
  rw [Cursor.seek, position]

end Cursor

namespace Blueprint

variable {plan : Blueprint} {family : Bytes}

theorem ascending_sorted (fits : ∀ m ∈ plan.mutations, m.Fits plan.format)
    (distinct : (plan.mutations.map (·.key)).Nodup) :
    (plan.sorted.map (·.stored plan.format)).Pairwise fun a b => Key.order a.key b.key = .lt := by
  have sorts := plan.stableSort_sorted
  have apart : (plan.sorted.map (·.key)).Nodup := (sorts.perm.map _).nodup_iff.2 distinct
  rw [List.Nodup, List.pairwise_map] at apart
  rw [List.pairwise_map]
  refine (sorts.ascending.and apart).imp_of_mem ?_
  rintro a b here there ⟨le, differs⟩
  have order := Mutation.order_key (fits a (mem_sorted.1 here)) (fits b (mem_sorted.1 there))
  change Key.order a.key b.key = .lt
  rw [order]
  cases found : a.order b with
  | lt => rfl
  | eq => exact (differs (Mutation.key_eq_of_order_eq found)).elim
  | gt => exact (le found).elim

/-- However a cursor got where it is, it is sent to the first cell of the file that is not before
the target, and goes on from there through all that follow. -/
theorem seek_lands (sound : plan.Sound) (plain : plan.PlainInfo)
    (fits : ∀ m ∈ plan.mutations, m.Fits plan.format)
    (families : ∀ m ∈ plan.mutations, m.family = family)
    (distinct : (plan.mutations.map (·.key)).Nodup) :
    ∃ file, StoreFile.load (Source.ofBytes plan.bytes) = .ok file
      ∧ ∀ cursor, (Cursor.ofFile file).Reaches cursor → ∀ target : SeekTarget,
        let ahead := (Mutation.sort plan.mutations).dropWhile fun m =>
          Key.order m.key target.toKey = .lt
        ∃ landed, cursor.seek target = (.ok ahead.head?.isSome, landed)
          ∧ landed.cell? = ahead.head?.map (·.stored plan.format)
          ∧ ∀ n, answers Cursor.step n landed = (List.range n).map fun i =>
            (.ok ahead.tail[i]?.isSome, ahead.tail[i]?.map (·.stored plan.format)) := by
  refine ⟨plan.opened, load_eq sound plain, fun cursor reaches target => ?_⟩
  have contains := contains_opened sound (fun m member => fits m (mem_sorted.1 member))
    fun m member => families m (mem_sorted.1 member)
  have run : plan.opened.seekRun target.toKey = _ :=
    StoreFile.seekRun_eq contains (StoreFile.split_of_ascending (ascending_sorted fits distinct))
  rw [List.dropWhile_map, ← plan.sort_mutations] at run
  intro ahead
  change plan.opened.seekRun target.toKey =
    Run.ofCells (ahead.map (·.stored plan.format)) fun _ => .finished at run
  obtain ⟨landed, entered, current, later⟩ :=
    Cursor.enter_lands cursor (ahead.map (·.stored plan.format))
  have moves : cursor.seek target = (.ok ahead.head?.isSome, landed) := by
    rw [reaches.live.seek_eq, run]
    simpa only [List.head?_map, Option.isSome_map] using entered
  refine ⟨landed, moves, current.trans List.head?_map, fun n => ?_⟩
  rw [later.answers_step]
  simp only [← List.map_tail, List.getElem?_map, Option.isSome_map]

theorem distinct_twoRows : (twoRows.mutations.map (·.key)).Nodup := by decide

theorem seek_lands_twoRows : twoRows.Sound ∧ twoRows.PlainInfo
    ∧ (∀ m ∈ twoRows.mutations, m.Fits twoRows.format)
    ∧ (∀ m ∈ twoRows.mutations, m.family = [102])
    ∧ (twoRows.mutations.map (·.key)).Nodup
    ∧ ∃ file, StoreFile.load (Source.ofBytes twoRows.bytes) = .ok file
      ∧ ∀ target : SeekTarget,
        let ahead := (Mutation.sort twoRows.mutations).dropWhile fun m =>
          Key.order m.key target.toKey = .lt
        ∃ landed, (Cursor.ofFile file).seek target = (.ok ahead.head?.isSome, landed)
          ∧ landed.cell? = ahead.head?.map (·.stored twoRows.format)
          ∧ ∀ n, answers Cursor.step n landed = (List.range n).map fun i =>
            (.ok ahead.tail[i]?.isSome, ahead.tail[i]?.map (·.stored twoRows.format)) := by
  obtain ⟨file, load, lands⟩ := seek_lands sound_twoRows plain_twoRows fits_twoRows families_twoRows
    distinct_twoRows
  exact ⟨sound_twoRows, plain_twoRows, fits_twoRows, families_twoRows, distinct_twoRows, file, load,
    lands _ .start⟩

end Blueprint

end CellStore
