import CellStore.Proofs.BloomRows
import CellStore.Proofs.RegionScan

/-! The cells of one row, looked up in several files. Files that a filter rules out do not change
what is visible of the row, and the scan of the others is cut to it. -/

open Std (TransCmp ReflCmp OrientedCmp)

namespace CellStore

theorem StableSort.filter {α : Type} {order : α → α → Ordering} {given sorted : List α}
    (sorts : StableSort order given sorted) (p : α → Bool) :
    StableSort order (given.filter p) (sorted.filter p) where
  perm := sorts.perm.filter p
  ascending := sorts.ascending.filter p
  stable a := by rw [Ranked.filter_comm, sorts.stable, Ranked.filter_comm]

namespace Mutation

theorem visible_congr (most : Nat) (keeps : Bytes → Bool) {files files' : List (List Mutation)}
    (same : (files.flatten.filter fun m => keeps m.row) =
      files'.flatten.filter fun m => keeps m.row) :
    ((visible files most).filter fun m => keeps m.row) =
      (visible files' most).filter fun m => keeps m.row := by
  have sorted : ((Ranked.sorted files).filter fun m => keeps m.row) =
      (Ranked.sorted files').filter fun m => keeps m.row := by
    have sorts := (Ranked.stableSort_sorted files).filter fun m => keeps m.row
    rw [same] at sorts
    exact sorts.unique ((Ranked.stableSort_sorted files').filter fun m => keeps m.row)
  rw [visible, visible, filter_newest most keeps fun _ _ _ => rfl,
    filter_newest most keeps fun _ _ _ => rfl, filter_shown, filter_shown, sorted]

theorem mem_of_mem_newest {most : Nat} {versions : Tally (Bytes × Bytes)} {m : Mutation}
    {ms : List Mutation} (member : m ∈ newest most versions ms) : m ∈ ms := by
  fun_induction newest most versions ms with
  | case1 => exact member
  | case2 versions first ms unbounded ih =>
    rcases List.mem_cons.1 member with rfl | later
    · exact List.mem_cons_self
    · exact List.mem_cons_of_mem _ (ih later)
  | case3 versions first ms column bounded enough ih => exact List.mem_cons_of_mem _ (ih member)
  | case4 versions first ms column bounded fewer ih =>
    rcases List.mem_cons.1 member with rfl | later
    · exact List.mem_cons_self
    · exact List.mem_cons_of_mem _ (ih later)

theorem mem_of_mem_visible {files : List (List Mutation)} {most : Nat} {m : Mutation}
    (member : m ∈ visible files most) : ∃ ms ∈ files, m ∈ ms :=
  Ranked.mem_sorted (List.mem_filter.1 (mem_of_mem_newest member)).1

end Mutation

theorem compare_take_iff {n : Nat} {row other : Bytes} (short : other.length ≤ n) :
    compare other (row.take n) ≠ .lt ∧ compare other (row ++ [0]) = .lt ↔
      other = row.take n := by
  have empty (bytes : Bytes) : compare bytes [] ≠ .lt := by
    cases bytes <;> exact Ordering.noConfusion
  induction row generalizing n other with
  | nil =>
    rw [List.take_nil, List.nil_append]
    cases other with
    | nil => exact ⟨fun _ => rfl, fun _ => ⟨empty [], rfl⟩⟩
    | cons b other =>
      have above : compare (b :: other) [0] ≠ .lt := by
        rw [List.compare_cons_cons]
        have least : compare b 0 ≠ .lt := fun before =>
          UInt8.not_lt_zero (Std.compare_eq_lt.1 before)
        cases order : compare b 0 with
        | lt => exact (least order).elim
        | eq => exact empty other
        | gt => exact Ordering.noConfusion
      exact ⟨fun inside => (above inside.2).elim, fun none => by cases none⟩
  | cons c row ih =>
    cases n with
    | zero =>
      obtain rfl : other = [] := List.length_eq_zero_iff.1 (Nat.le_zero.1 short)
      exact ⟨fun _ => rfl, fun _ => ⟨empty [], rfl⟩⟩
    | succ n =>
      rw [List.take_succ_cons, List.cons_append]
      cases other with
      | nil => simp
      | cons b other =>
        rw [List.compare_cons_cons, List.compare_cons_cons]
        cases order : compare b c with
        | eq =>
          obtain rfl := Std.compare_eq_iff_eq.1 order
          simpa using ih (Nat.le_of_succ_le_succ short)
        | lt =>
          have differs : b ≠ c := fun same => by simp [same] at order
          simp [differs]
        | gt =>
          have differs : b ≠ c := fun same => by simp [same] at order
          simp [differs]

theorem Run.collect_ofCells (cells : List StoredCell) (found : List Cell) :
    (Run.ofCells cells fun _ => .finished).collect found =
      .ok (found.reverse ++ cells.map (·.cell)) := by
  rw [Run.collect_eq, Run.error?_ofCells, Run.toList_ofCells]
  rfl

theorem Merge.addCursors_congr {target target' : Option SeekTarget}
    (same : ∀ cursor : Cursor,
      target.elim cursor.next cursor.seek = target'.elim cursor.next cursor.seek)
    (rank : Nat) (cursors : List Cursor) (merge : Merge) :
    addCursors target rank cursors merge = addCursors target' rank cursors merge := by
  induction cursors generalizing rank merge with
  | nil => rfl
  | cons cursor cursors ih => simp only [addCursors, same, ih]

theorem Cursor.seek_take (cursor : Cursor) (row : Bytes) :
    cursor.seek (.row row) = cursor.seek (.row (row.take 65535)) := by
  have key : SeekTarget.toKey (.row row) = SeekTarget.toKey (.row (row.take 65535)) := by
    simp only [SeekTarget.toKey, Key.ofRow, List.take_take, Nat.min_self]
  rw [Cursor.seek, Cursor.seek, key]

namespace ScanOptions

variable {row other : Bytes} {most : Nat}

/-- The rows of a lookup, as far as they can be told by a key. -/
def ofStart (row : Bytes) (most : Nat) : ScanOptions := ⟨most, row.take 65535, row ++ [0]⟩

theorem covers_ofStart (short : other.length ≤ 65535) :
    (ofStart row most).covers other = decide (other = row.take 65535) := by
  have bounded : (ofStart row most).stopRow ≠ [] := by simp [ofStart]
  rw [Bool.eq_iff_iff, decide_eq_true_eq, ← compare_take_iff short, covers, decide_eq_false bounded,
    Bool.false_or, Bool.and_eq_true, decide_eq_true_iff, decide_eq_true_iff]
  rfl

theorem ofCursors_ofStart (cursors : List Cursor) :
    Merge.ofCursors cursors (ofRow row most).target =
      Merge.ofCursors cursors (ofStart row most).target := by
  refine Merge.addCursors_congr (fun cursor => ?_) 0 cursors .empty
  have whole : (ofRow row most).target = if row = [] then none else some (.row row) := rfl
  have start : (ofStart row most).target =
      if row.take 65535 = [] then none else some (.row (row.take 65535)) := rfl
  rw [whole, start]
  by_cases empty : row = []
  · subst empty
    rfl
  · have cut : row.take 65535 ≠ [] := by simp [empty]
    rw [if_neg empty, if_neg cut]
    exact cursor.seek_take row

end ScanOptions

namespace Blueprint

variable {plans : List Blueprint} {family : Bytes}

theorem candidates_opened (sound : ∀ plan ∈ plans, plan.Sound)
    (pos : ∀ plan ∈ plans, ∀ bloom ∈ plan.bloom, 0 < bloom.keysPerChunk) (row : Bytes) :
    ∃ kept, kept.Sublist plans
      ∧ StoreFile.candidates row (plans.map opened) = .ok (kept.map opened)
      ∧ ((plans.map (·.mutations)).flatten.filter fun m => m.row = row) =
        ((kept.map (·.mutations)).flatten.filter fun m => m.row = row)
      ∧ ((∀ plan ∈ plans, plan.bloom = none) → kept = plans) := by
  induction plans with
  | nil => exact ⟨[], .slnil, rfl, rfl, fun _ => rfl⟩
  | cons plan plans ih =>
    obtain ⟨first, later⟩ := List.forall_mem_cons.1 sound
    obtain ⟨chunks, chunksLater⟩ := List.forall_mem_cons.1 pos
    obtain ⟨kept, sub, listed, same, all⟩ := ih later chunksLater
    obtain ⟨found, asked⟩ := exists_mayContainRow first row
    cases found with
    | true =>
      refine ⟨plan :: kept, sub.cons_cons plan, ?_, ?_, fun none => ?_⟩
      · simp only [List.map_cons, StoreFile.candidates, asked, ok_bind, if_true, listed, pure_eq_ok]
      · simp only [List.map_cons, List.flatten_cons, List.filter_append, same]
      · rw [all (List.forall_mem_cons.1 none).2]
    | false =>
      have other : (plan.mutations.filter fun m => m.row = row) = [] := by
        rw [List.filter_eq_nil_iff]
        intro m member here
        have allowed := mayContainRow_of_mem first chunks member
        rw [of_decide_eq_true here, asked] at allowed
        cases allowed
      refine ⟨kept, sub.cons plan, ?_, ?_, fun none => ?_⟩
      · simp only [List.map_cons, StoreFile.candidates, asked, ok_bind, Bool.false_eq_true,
          if_false, listed]
      · rw [List.map_cons, List.flatten_cons, List.filter_append, other, List.nil_append, same]
      · have allowed := mayContainRow_of_none (List.forall_mem_cons.1 none).1 row
        rw [asked] at allowed
        cases allowed

theorem scan_ofRow (each : ∀ plan ∈ plans, plan.InFamily family) (row : Bytes) (most : Nat) :
    ∃ cells, RegionScan.ofFiles (plans.map opened) (.ofRow row most) =
        .ok (.at (Run.ofCells cells fun _ => .finished))
      ∧ (cells.map (·.cell)).map Cell.content =
        ((Mutation.visible (plans.map (·.mutations)) most).filter fun m =>
          m.row = row.take 65535).map Mutation.content := by
  have member (P : Mutation → Prop) (all : ∀ plan ∈ plans, ∀ m ∈ plan.mutations, P m) :
      ∀ ms ∈ plans.map (·.mutations), ∀ m ∈ ms, P m := List.forall_mem_map.2 all
  have families := member (·.family = family) fun plan given => (each plan given).family
  have bare := member (fun m => m.kind = .deleteFamily → m.qualifier = []) fun plan given =>
    (each plan given).bare
  have rows := member (·.row.length ≤ 65535) fun plan given m inside =>
    ((each plan given).fits m inside).row
  have short : (ScanOptions.ofStart row most).startRow.length ≤ 65535 :=
    List.length_take_le 65535 row
  obtain ⟨merge, merged, made, run, ascending, whole⟩ := merge_opened each short
  have shows := Ranked.shown_merged families bare ascending whole
  let cells := (Ranked.shown most (.start []) (merged.takeWhile fun x =>
    !(ScanOptions.ofRow row most).isPastStop x.mutation.row)).map (·.stored (formats plans))
  refine ⟨cells, ?_, ?_⟩
  · rw [← ScanOptions.ofCursors_ofStart] at made
    rw [RegionScan.ofFiles_of_merge made, run, Ranked.visible_ofCells]
    rfl
  · have content : (cells.map (·.cell)).map Cell.content =
        ((Mutation.visible (plans.map (·.mutations)) most).filter fun m =>
          (ScanOptions.ofStart row most).covers m.row).map Mutation.content := by
      rw [content_stored]
      exact congrArg _ shows
    rw [content]
    congr 1
    refine List.filter_congr fun m shown => ?_
    obtain ⟨ms, file, inside⟩ := Mutation.mem_of_mem_visible shown
    exact ScanOptions.covers_ofStart (rows ms file m inside)

/-- The cells looked up of a row are, without an error, those that are visible of it among all
mutations, in their order. A row that is too long for a key is taken for its start: only cells of
the row that is its first 65535 bytes are found, and without filters all of these. -/
theorem row_shows_visible (each : ∀ plan ∈ plans, plan.InFamily family)
    (pos : ∀ plan ∈ plans, ∀ bloom ∈ plan.bloom, 0 < bloom.keysPerChunk) (row : Bytes)
    (most : Nat) :
    ∃ files cells,
      List.Forall₂ (fun plan file => StoreFile.load (Source.ofBytes plan.bytes) = .ok file)
        plans files
      ∧ RegionScan.row files row most = .ok cells
      ∧ (∀ cell ∈ cells, cell.row = row.take 65535)
      ∧ (row.length ≤ 65535 → cells.map Cell.content =
        ((Mutation.visible (plans.map (·.mutations)) most).filter fun m =>
          m.row = row).map Mutation.content)
      ∧ ((∀ plan ∈ plans, plan.bloom = none) → cells.map Cell.content =
        ((Mutation.visible (plans.map (·.mutations)) most).filter fun m =>
          m.row = row.take 65535).map Mutation.content) := by
  obtain ⟨kept, sub, listed, same, all⟩ :=
    candidates_opened (fun plan given => (each plan given).sound) pos row
  obtain ⟨cells, scan, content⟩ :=
    scan_ofRow (fun plan given => each plan (sub.subset given)) row most
  have loads : List.Forall₂ (fun plan file => StoreFile.load (Source.ofBytes plan.bytes) = .ok file)
      plans (plans.map opened) :=
    List.forall₂_map_right_iff.2 (List.forall₂_same.2 fun plan member =>
      load_eq (each plan member).sound (each plan member).plain)
  refine ⟨_, cells.map (·.cell), loads, ?_, fun cell found => ?_, fun short => ?_, fun none => ?_⟩
  · have lists : (RegionScan.at (Run.ofCells cells fun _ => .finished)).toList =
        .ok (cells.map (·.cell)) := by
      rw [RegionScan.toList, Run.collect_ofCells]
      rfl
    rw [RegionScan.row, listed]
    change (RegionScan.ofFiles (kept.map opened) (.ofRow row most) >>= (·.toList)) = _
    rw [scan, ok_bind, lists]
  · have inside : cell.content ∈ (cells.map (·.cell)).map Cell.content := List.mem_map_of_mem found
    rw [content] at inside
    obtain ⟨m, shown, same⟩ := List.mem_map.1 inside
    have rows : m.row = cell.row := congrArg Prod.fst same
    rw [← rows]
    exact of_decide_eq_true (List.mem_filter.1 shown).2
  · rw [content, List.take_of_length_le short,
      Mutation.visible_congr most (fun other => decide (other = row)) same]
  · rw [content, all none]

theorem row_shows_visible_rowTombstone :
    (∀ plan ∈ [twoRows, rowTombstone], plan.InFamily [102])
    ∧ (∀ plan ∈ [twoRows, rowTombstone], ∀ bloom ∈ plan.bloom, 0 < bloom.keysPerChunk)
    ∧ ∃ files cells,
      List.Forall₂ (fun plan file => StoreFile.load (Source.ofBytes plan.bytes) = .ok file)
        [twoRows, rowTombstone] files
      ∧ RegionScan.row files [97] 1 = .ok cells
      ∧ (∀ cell ∈ cells, cell.row = ([97] : Bytes).take 65535)
      ∧ (([97] : Bytes).length ≤ 65535 → cells.map Cell.content =
        ((Mutation.visible ([twoRows, rowTombstone].map (·.mutations)) 1).filter fun m =>
          m.row = [97]).map Mutation.content)
      ∧ ((∀ plan ∈ [twoRows, rowTombstone], plan.bloom = none) → cells.map Cell.content =
        ((Mutation.visible ([twoRows, rowTombstone].map (·.mutations)) 1).filter fun m =>
          m.row = ([97] : Bytes).take 65535).map Mutation.content) := by
  have each : ∀ plan ∈ [twoRows, rowTombstone], plan.InFamily [102] := by
    simp [inFamily_twoRows, inFamily_rowTombstone]
  have pos : ∀ plan ∈ [twoRows, rowTombstone], ∀ bloom ∈ plan.bloom, 0 < bloom.keysPerChunk := by
    decide
  exact ⟨each, pos, row_shows_visible each pos [97] 1⟩

end Blueprint

end CellStore
