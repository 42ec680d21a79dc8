import CellStore.Proofs.Merge
import CellStore.Proofs.Seek
import CellStore.Proofs.Visible
import CellStore.Region.Scan

open Std (TransCmp)

namespace CellStore

theorem takeWhile_eq_filter {α : Type} {p : α → Bool} {xs : List α}
    (down : xs.Pairwise fun a b => p b = true → p a = true) : xs.takeWhile p = xs.filter p := by
  induction xs with
  | nil => rfl
  | cons x xs ih =>
    obtain ⟨first, later⟩ := List.pairwise_cons.1 down
    rw [List.takeWhile_cons, List.filter_cons, ih later]
    by_cases here : p x = true
    · rw [if_pos here, if_pos here]
    · rw [if_neg here, if_neg here, eq_comm, List.filter_eq_nil_iff]
      exact fun y member there => here (first y member there)

theorem dropWhile_eq_filter {α : Type} {p : α → Bool} {xs : List α}
    (down : xs.Pairwise fun a b => p b = true → p a = true) :
    xs.dropWhile p = xs.filter fun x => !p x := by
  induction xs with
  | nil => rfl
  | cons x xs ih =>
    obtain ⟨first, later⟩ := List.pairwise_cons.1 down
    rw [List.dropWhile_cons, List.filter_cons, ih later]
    by_cases here : p x = true
    · rw [if_pos here, here, Bool.not_true, if_neg Bool.false_ne_true]
    · have none : (xs.filter fun y => !p y) = xs :=
        List.filter_eq_self.2 fun y member => by
          simpa using fun there => here (first y member there)
      simp [here, none]

/-- What a cell says, apart from its kind, its tags and its memstore timestamp. -/
def Cell.content (cell : Cell) : Bytes × Bytes × Bytes × UInt64 × Bytes :=
  (cell.row, cell.family, cell.qualifier, cell.timestamp, cell.value)

def Mutation.content (m : Mutation) : Bytes × Bytes × Bytes × UInt64 × Bytes :=
  (m.row, m.family, m.qualifier, m.timestamp, m.value)

namespace ScanOptions

def covers (options : ScanOptions) (row : Bytes) : Bool :=
  compare row options.startRow ≠ .lt
    && (options.stopRow = [] || compare row options.stopRow = .lt)

def target (options : ScanOptions) : Option SeekTarget :=
  if options.startRow = [] then none else some (.row options.startRow)

variable {options : ScanOptions} {a b : Bytes}

theorem covers_eq (options : ScanOptions) (row : Bytes) : options.covers row =
    (!options.isPastStop row && decide (compare row options.startRow ≠ .lt)) := by
  rw [covers, isPastStop, Bool.and_comm]
  by_cases unbounded : options.stopRow = [] <;> simp [unbounded]

theorem down (le : compare a b ≠ .gt) (before : (!options.isPastStop b) = true) :
    (!options.isPastStop a) = true := by
  by_cases unbounded : options.stopRow = []
  · simp [isPastStop, unbounded]
  · have lt : compare b options.stopRow = .lt := by simpa [isPastStop, unbounded] using before
    have first : compare a options.stopRow = .lt :=
      TransCmp.lt_of_isLE_of_lt (Ordering.ne_gt_iff_isLE.1 le) lt
    simp [isPastStop, first]

end ScanOptions

theorem RegionScan.ofFiles_of_merge {files : List StoreFile} {options : ScanOptions} {merge : Merge}
    (made : Merge.ofCursors (files.map Cursor.ofFile) options.target = .ok merge) :
    ofFiles files options = .ok (.at ((Merge.run merge.lanes).visible options (.start []))) := by
  change (do
    let merge ← Merge.ofCursors (files.map Cursor.ofFile) options.target
    return RegionScan.at ((Merge.run merge.lanes).visible options (.start []))) = _
  rw [made]
  rfl

namespace Blueprint

variable {plan : Blueprint} {family : Bytes}

def fromRow (plan : Blueprint) (row : Bytes) : List Mutation :=
  plan.sorted.filter fun m => compare m.row row ≠ .lt

theorem lands_of_enter {target : Option SeekTarget} {cursor : Cursor} {cells : List StoredCell}
    (moves : target.elim cursor.next cursor.seek =
      cursor.enter (Run.ofCells cells fun _ => .finished)) : cursor.Lands target cells :=
  ⟨_, _, moves.trans (Cursor.enter_ofCells cursor cells), rfl⟩

theorem split_ofRow (fits : ∀ m ∈ plan.mutations, m.Fits plan.format) {row : Bytes}
    (short : row.length ≤ 65535) :
    StoreFile.Split (Key.ofRow row) (plan.sorted.map (·.stored plan.format)) := by
  rw [StoreFile.Split, List.pairwise_map]
  refine plan.rows_sorted.imp_of_mem fun {a b} here there rows reached => ?_
  have order (m : Mutation) (member : m ∈ plan.sorted) :
      Key.order (m.stored plan.format).key (Key.ofRow row) = (compare m.row row).then .gt :=
    Mutation.order_ofRow (fits m (mem_sorted.1 member)) short
  rw [order b there] at reached
  have before : compare b.row row = .lt := by
    cases found : compare b.row row <;> simp_all
  have first : compare a.row row = .lt :=
    TransCmp.lt_of_isLE_of_lt (Ordering.ne_gt_iff_isLE.1 rows) before
  rw [order a here, first]
  rfl

theorem dropWhile_ofRow (fits : ∀ m ∈ plan.mutations, m.Fits plan.format) {row : Bytes}
    (short : row.length ≤ 65535) :
    (plan.sorted.dropWhile fun m => Key.order m.key (Key.ofRow row) = .lt) = plan.fromRow row := by
  have before (m : Mutation) (member : m ∈ plan.sorted) :
      Key.order m.key (Key.ofRow row) = .lt ↔ compare m.row row = .lt := by
    rw [Mutation.order_ofRow (fits m (mem_sorted.1 member)) short]
    cases compare m.row row <;> simp
  rw [dropWhile_eq_filter]
  · refine List.filter_congr fun m member => ?_
    simp only [before m member, ne_eq, decide_not]
  · have split := split_ofRow fits short
    rw [StoreFile.Split, List.pairwise_map] at split
    simp only [Mutation.key_stored] at split
    refine split.imp fun {a b} passes there => ?_
    have reached : Key.order b.key (Key.ofRow row) ≠ .gt := by simp [of_decide_eq_true there]
    exact decide_eq_true (passes reached)

theorem lands_of_contains (contains : plan.opened.Contains (plan.sorted.map (·.stored plan.format)))
    (fits : ∀ m ∈ plan.mutations, m.Fits plan.format) {options : ScanOptions}
    (short : options.startRow.length ≤ 65535) :
    (Cursor.ofFile plan.opened).Lands options.target
      ((plan.fromRow options.startRow).map (·.stored plan.format)) := by
  apply lands_of_enter
  rw [ScanOptions.target]
  by_cases whole : options.startRow = []
  · have all : plan.fromRow options.startRow = plan.sorted := by
      refine List.filter_eq_self.2 fun m _ => ?_
      rw [whole]
      cases m.row <;> rfl
    rw [if_pos whole, all, ← contains.run_eq]
    rfl
  · have run := StoreFile.seekRun_eq contains (split_ofRow fits short)
    rw [List.dropWhile_map] at run
    change plan.opened.seekRun (Key.ofRow options.startRow) = Run.ofCells ((plan.sorted.dropWhile
      fun m => Key.order m.key (Key.ofRow options.startRow) = .lt).map (·.stored plan.format))
        fun _ => .finished at run
    rw [dropWhile_ofRow fits short] at run
    rw [if_neg whole, ← run]
    rfl

end Blueprint

namespace Ranked

theorem visible_ofCells (options : ScanOptions) (formats : Nat → RecordFormat) (state : RowState)
    (xs : List Ranked) :
    (Run.ofCells (xs.map (·.stored formats)) fun _ => .finished).visible options state =
      Run.ofCells ((shown options.maxVersions state
          (xs.takeWhile fun x => !options.isPastStop x.mutation.row)).map (·.stored formats))
        fun _ => .finished := by
  induction xs generalizing state with
  | nil => rfl
  | cons x xs ih =>
    have row : (x.stored formats).cell.row = x.mutation.row := rfl
    have see : state.see options.maxVersions (x.stored formats).cell =
        state.see options.maxVersions (x.mutation.cell ⟨false, false⟩) := rfl
    rw [List.map_cons, Run.ofCells, Run.visible_cell, row, see, List.takeWhile_cons]
    cases past : options.isPastStop x.mutation.row with
    | true => rfl
    | false =>
      simp only [Bool.not_false, if_true, Bool.false_eq_true, if_false, shown]
      obtain ⟨found, after⟩ := state.see options.maxVersions (x.mutation.cell ⟨false, false⟩)
      cases found with
      | false => exact ih after
      | true =>
        rw [List.map_cons, Run.ofCells]
        simp only [ih after]

theorem shown_merged {files : List (List Mutation)} {family : Bytes} {options : ScanOptions}
    {merged : List Ranked} (families : ∀ ms ∈ files, ∀ m ∈ ms, m.family = family)
    (bare : ∀ ms ∈ files, ∀ m ∈ ms, m.kind = .deleteFamily → m.qualifier = [])
    (ascending : merged.Pairwise fun a b => a.order b ≠ .gt)
    (whole : merged.map (·.mutation) =
      (sorted files).filter fun m => compare m.row options.startRow ≠ .lt) :
    (shown options.maxVersions (.start [])
        (merged.takeWhile fun x => !options.isPastStop x.mutation.row)).map (·.mutation) =
      (Mutation.visible files options.maxVersions).filter fun m => options.covers m.row := by
  have rows : merged.Pairwise fun a b => compare a.mutation.row b.mutation.row ≠ .gt :=
    ascending.imp fun le => Mutation.rows_of_order (order_of_ranked le)
  have origin (x : Ranked) (member : x ∈ merged) : ∃ ms ∈ files, x.mutation ∈ ms := by
    have inside : x.mutation ∈ merged.map (·.mutation) := List.mem_map_of_mem member
    rw [whole] at inside
    exact mem_sorted (List.mem_filter.1 inside).1
  have early : merged.Pairwise fun a b =>
      a.mutation.kind = .put → b.mutation.hides a.mutation = false := by
    refine ascending.imp_of_mem fun {a b} here there le put => ?_
    obtain ⟨ms, file, member⟩ := origin a here
    obtain ⟨ms', file', member'⟩ := origin b there
    exact Mutation.not_hides_later put
      ((families ms file _ member).trans (families ms' file' _ member').symm)
      (bare ms' file' _ member') (order_of_ranked le)
  have kept := takeWhile_eq_filter (p := fun x : Ranked => !options.isPastStop x.mutation.row)
    (rows.imp fun {a b} le => options.down le)
  have list : (merged.filter fun x => !options.isPastStop x.mutation.row).map (·.mutation) =
      (sorted files).filter fun m => options.covers m.row := by
    simp only [options.covers_eq]
    rw [← List.filter_filter, ← whole, List.filter_map]
    rfl
  have known (t : Mutation) (tombstone : t.kind.isTombstone = true) :
      t ∈ ((merged.filter fun x => !options.isPastStop x.mutation.row).map (·.mutation)).filter
        (·.kind.isTombstone) ↔
      t ∈ [] ∨
        t ∈ (merged.filter fun x => !options.isPastStop x.mutation.row).map (·.mutation) := by
    simp [tombstone]
  have shows := shown_eq options.maxVersions Seen.start
    (fun x _ => by cases x.mutation.row <;> simp [RowState.start]) (rows.filter _) (early.filter _)
    known
  -- Rows are shown one by one, so it is the same to leave rows out before or afterwards.
  rw [kept, shows, list, Mutation.visible,
    Mutation.filter_newest options.maxVersions options.covers fun _ _ _ => rfl]
  congr 1
  exact (Mutation.filter_shown options.covers (sorted files)).symm

end Ranked

namespace Blueprint

/-- A file of one family that can be read, in which the tombstones of rows have no column. -/
structure InFamily (family : Bytes) (plan : Blueprint) : Prop where
  sound : plan.Sound
  plain : plan.PlainInfo
  fits : ∀ m ∈ plan.mutations, m.Fits plan.format
  family : ∀ m ∈ plan.mutations, m.family = family
  bare : ∀ m ∈ plan.mutations, m.kind = .deleteFamily → m.qualifier = []

def formats (plans : List Blueprint) (rank : Nat) : RecordFormat :=
  (plans[rank]?.map (·.format)).getD ⟨false, false⟩

variable {plans : List Blueprint} {family : Bytes} {options : ScanOptions}

theorem lands_all {formats : Nat → RecordFormat}
    (each : ∀ i plan, plans[i]? = some plan → formats i = plan.format
      ∧ (Cursor.ofFile plan.opened).Lands options.target
        ((plan.fromRow options.startRow).map (·.stored plan.format))) :
    List.Forall₂ (fun cursor entry =>
      cursor.Lands options.target (entry.1.map (·.stored (formats entry.2))))
      ((plans.map opened).map Cursor.ofFile)
      (plans.map fun plan => plan.fromRow options.startRow).zipIdx := by
  rw [List.forall₂_iff_get]
  refine ⟨by simp, fun i here there => ?_⟩
  have inside : i < plans.length := by simpa using here
  obtain ⟨format, lands⟩ := each i plans[i] (List.getElem?_eq_getElem inside)
  simpa [format] using lands

theorem merge_of_lands {formats : Nat → RecordFormat}
    (each : ∀ i plan, plans[i]? = some plan → formats i = plan.format
      ∧ (Cursor.ofFile plan.opened).Lands options.target
        ((plan.fromRow options.startRow).map (·.stored plan.format))) :
    ∃ (merge : Merge) (merged : List Ranked),
      Merge.ofCursors ((plans.map opened).map Cursor.ofFile) options.target = .ok merge
      ∧ Merge.run merge.lanes =
        Run.ofCells (merged.map (·.stored formats)) (fun _ => .finished)
      ∧ merged.Pairwise (fun a b => a.order b ≠ .gt)
      ∧ merged.map (·.mutation) = (Ranked.sorted (plans.map (·.mutations))).filter fun m =>
        compare m.row options.startRow ≠ .lt := by
  have lists : ∀ ms ∈ plans.map fun plan => plan.fromRow options.startRow,
      ms.Pairwise fun a b => a.order b ≠ .gt := by
    intro ms member
    obtain ⟨plan, -, rfl⟩ := List.mem_map.1 member
    exact plan.stableSort_sorted.ascending.filter _
  obtain ⟨merge, merged, made, run, ascending, ranks⟩ :=
    Ranked.ofCursors_eq (lands_all each) lists
  refine ⟨merge, merged, made, run, ascending, Ranked.merged_eq_sorted ascending fun rank => ?_⟩
  rw [ranks, List.getElem?_map, List.getElem?_map]
  cases plans[rank]? with
  | none => simp [Mutation.sort]
  | some plan =>
    simp only [Option.map_some, Option.getD_some, sort_mutations]
    rfl

theorem InFamily.lands {plan : Blueprint} (inside : plan.InFamily family)
    (short : options.startRow.length ≤ 65535) :
    (Cursor.ofFile plan.opened).Lands options.target
      ((plan.fromRow options.startRow).map (·.stored plan.format)) :=
  lands_of_contains (contains_opened inside.sound
    (fun m member => inside.fits m (mem_sorted.1 member))
    fun m member => inside.family m (mem_sorted.1 member)) inside.fits short

theorem merge_opened (each : ∀ plan ∈ plans, plan.InFamily family)
    (short : options.startRow.length ≤ 65535) :
    ∃ (merge : Merge) (merged : List Ranked),
      Merge.ofCursors ((plans.map opened).map Cursor.ofFile) options.target = .ok merge
      ∧ Merge.run merge.lanes =
        Run.ofCells (merged.map (·.stored (formats plans))) (fun _ => .finished)
      ∧ merged.Pairwise (fun a b => a.order b ≠ .gt)
      ∧ merged.map (·.mutation) = (Ranked.sorted (plans.map (·.mutations))).filter fun m =>
        compare m.row options.startRow ≠ .lt :=
  merge_of_lands fun _ _ here =>
    ⟨by rw [formats, here]; rfl, (each _ (List.mem_of_getElem? here)).lands short⟩

theorem content_stored (formats : Nat → RecordFormat) (xs : List Ranked) :
    ((xs.map (·.stored formats)).map (·.cell)).map Cell.content =
      (xs.map (·.mutation)).map Mutation.content := by
  simp only [List.map_map]
  rfl

/-- A scan of files goes without an error through exactly the cells that are visible among all of
their mutations and lie in its rows, in their order, and then comes to its end. -/
theorem scan_shows_visible (each : ∀ plan ∈ plans, plan.InFamily family)
    (short : options.startRow.length ≤ 65535) :
    ∃ files scan, ∃ cells : List Cell,
      List.Forall₂ (fun plan file => StoreFile.load (Source.ofBytes plan.bytes) = .ok file)
        plans files
      ∧ RegionScan.ofFiles files options = .ok scan
      ∧ cells.map Cell.content =
        ((Mutation.visible (plans.map (·.mutations)) options.maxVersions).filter fun m =>
          options.covers m.row).map Mutation.content
      ∧ (∀ n, answers RegionScan.next n scan = (List.range n).map fun i => .ok cells[i]?)
      ∧ ∀ n, answers RegionScan.iterate n scan = (List.range n).map fun i => cells[i]?.map .ok := by
  obtain ⟨merge, merged, made, run, ascending, whole⟩ := merge_opened each short
  have loads : List.Forall₂ (fun plan file => StoreFile.load (Source.ofBytes plan.bytes) = .ok file)
      plans (plans.map opened) :=
    List.forall₂_map_right_iff.2 (List.forall₂_same.2 fun plan member =>
      load_eq (each plan member).sound (each plan member).plain)
  have families : ∀ ms ∈ plans.map (·.mutations), ∀ m ∈ ms, m.family = family := by
    intro ms member
    obtain ⟨plan, given, rfl⟩ := List.mem_map.1 member
    exact (each plan given).family
  have bare : ∀ ms ∈ plans.map (·.mutations), ∀ m ∈ ms, m.kind = .deleteFamily →
      m.qualifier = [] := by
    intro ms member
    obtain ⟨plan, given, rfl⟩ := List.mem_map.1 member
    exact (each plan given).bare
  have shows := Ranked.shown_merged families bare ascending whole
  have scan : RegionScan.ofFiles (plans.map opened) options = .ok (.at (Run.ofCells
      ((Ranked.shown options.maxVersions (.start []) (merged.takeWhile fun x =>
        !options.isPastStop x.mutation.row)).map (·.stored (formats plans)))
      fun _ => .finished)) := by
    rw [← Ranked.visible_ofCells, ← run]
    change (do
      let merge ← Merge.ofCursors ((plans.map opened).map Cursor.ofFile) options.target
      return RegionScan.at ((Merge.run merge.lanes).visible options (.start []))) = _
    rw [made]
    rfl
  refine ⟨_, _, _, loads, scan, ?_, RegionScan.answers_next _, RegionScan.answers_iterate _⟩
  rw [content_stored, shows]

theorem inFamily_twoRows : twoRows.InFamily [102] :=
  ⟨sound_twoRows, plain_twoRows, fits_twoRows, families_twoRows, by decide⟩

def rowTombstone : Blueprint :=
  { standard with mutations := [
    ⟨[97], [102], [], 4, .deleteFamily, [], [], 0⟩,
    ⟨[97], [102], [113], 3, .put, [3], [], 0⟩,
    ⟨[98], [102], [113], 5, .put, [9], [], 0⟩] }

theorem inFamily_rowTombstone : rowTombstone.InFamily [102] where
  sound := by decide +kernel
  plain := by decide
  fits := by decide
  family := by decide
  bare := by decide

theorem scan_shows_visible_rowTombstone :
    (∀ plan ∈ [twoRows, rowTombstone], plan.InFamily [102])
    ∧ ([97] : Bytes).length ≤ 65535
    ∧ ∃ files scan, ∃ cells : List Cell,
      List.Forall₂ (fun plan file => StoreFile.load (Source.ofBytes plan.bytes) = .ok file)
        [twoRows, rowTombstone] files
      ∧ RegionScan.ofFiles files ⟨1, [97], [99]⟩ = .ok scan
      ∧ cells.map Cell.content =
        ((Mutation.visible [twoRows.mutations, rowTombstone.mutations] 1).filter fun m =>
          ScanOptions.covers ⟨1, [97], [99]⟩ m.row).map Mutation.content
      ∧ (∀ n, answers RegionScan.next n scan = (List.range n).map fun i => .ok cells[i]?)
      ∧ ∀ n, answers RegionScan.iterate n scan = (List.range n).map fun i => cells[i]?.map .ok := by
  have each : ∀ plan ∈ [twoRows, rowTombstone], plan.InFamily [102] := by
    simp [inFamily_twoRows, inFamily_rowTombstone]
  have short : ([97] : Bytes).length ≤ 65535 := by decide
  exact ⟨each, short, scan_shows_visible each short⟩

end Blueprint

end CellStore
