import CellStore.Proofs.RegionScan
import CellStore.Proofs.SeekRuns

namespace CellStore

theorem Run.error?_visible (options : ScanOptions) {run : Run} (ends : run.error? = none)
    (state : RowState) : (run.visible options state).error? = none := by
  induction run generalizing state with
  | finished => rfl
  | failed error => cases ends
  | cell stored rest ih =>
    rw [visible_cell]
    split
    · rfl
    · obtain ⟨found, after⟩ := state.see options.maxVersions stored.cell
      cases found with
      | true => exact ih () ends after
      | false => exact ih () ends after

namespace Blueprint

/-- A file of plain records, of any families, that can be read. -/
structure PlainRecords (format : RecordFormat) (plan : Blueprint) : Prop where
  sound : plan.Sound
  info : plan.PlainInfo
  plain : plan.encoding = .plain
  sameFormat : plan.format = format
  fits : ∀ m ∈ plan.mutations, m.Fits plan.format

def storedFrom (format : RecordFormat) (row : Bytes) (files : List (List Mutation)) :
    List StoredCell :=
  ((Ranked.sorted files).filter fun m => compare m.row row ≠ .lt).map (·.stored format)

variable {format : RecordFormat} {plan whole : Blueprint} {plans : List Blueprint}
  {options : ScanOptions}

theorem PlainRecords.lands (records : plan.PlainRecords format)
    (short : options.startRow.length ≤ 65535) :
    (Cursor.ofFile plan.opened).Lands options.target
      ((plan.fromRow options.startRow).map (·.stored plan.format)) := by
  have families : plan.encoding = .fastDiff → ∀ m ∈ plan.sorted, m.family = [] := by
    rw [records.plain]
    intro delta
    cases delta
  exact lands_of_contains (contains_of_encoding records.sound
    (fun m member => records.fits m (mem_sorted.1 member)) families) records.fits short

theorem ofFiles_eq (each : ∀ plan ∈ plans, plan.PlainRecords format)
    (short : options.startRow.length ≤ 65535) :
    RegionScan.ofFiles (plans.map opened) options = .ok (.at ((Run.ofCells
      (storedFrom format options.startRow (plans.map (·.mutations))) fun _ => .finished).visible
        options (.start []))) := by
  have lands (i : Nat) (plan : Blueprint) (here : plans[i]? = some plan) : format = plan.format
      ∧ (Cursor.ofFile plan.opened).Lands options.target
        ((plan.fromRow options.startRow).map (·.stored plan.format)) :=
    have records := each plan (List.mem_of_getElem? here)
    ⟨records.sameFormat.symm, records.lands short⟩
  obtain ⟨merge, merged, made, run, -, sorted⟩ := merge_of_lands lands
  have stored : merged.map (·.stored fun _ => format) =
      storedFrom format options.startRow (plans.map (·.mutations)) := by
    rw [storedFrom, ← sorted, List.map_map]
    rfl
  rw [← stored, ← run]
  exact RegionScan.ofFiles_of_merge made

/-- A scan of several files, newest first, is one of a single file of all their mutations, and goes
through the same cells without an error. -/
theorem scan_of_partition (each : ∀ plan ∈ plans, plan.PlainRecords format)
    (joined : whole.PlainRecords format) (same : whole.mutations = plans.flatMap (·.mutations))
    (short : options.startRow.length ≤ 65535) :
    ∃ files file scan, ∃ cells : List Cell,
      List.Forall₂ (fun plan file => StoreFile.load (Source.ofBytes plan.bytes) = .ok file)
        plans files
      ∧ StoreFile.load (Source.ofBytes whole.bytes) = .ok file
      ∧ RegionScan.ofFiles files options = .ok scan
      ∧ RegionScan.ofFiles [file] options = .ok scan
      ∧ (∀ n, answers RegionScan.next n scan = (List.range n).map fun i => .ok cells[i]?)
      ∧ ∀ n, answers RegionScan.iterate n scan = (List.range n).map fun i => cells[i]?.map .ok := by
  have loads : List.Forall₂ (fun plan file => StoreFile.load (Source.ofBytes plan.bytes) = .ok file)
      plans (plans.map opened) :=
    List.forall₂_map_right_iff.2 (List.forall₂_same.2 fun plan member =>
      load_eq (each plan member).sound (each plan member).info)
  have one : ∀ plan ∈ [whole], plan.PlainRecords format := by simpa using joined
  have sorted : Ranked.sorted ([whole].map (·.mutations)) =
      Ranked.sorted (plans.map (·.mutations)) := by
    rw [List.map_singleton, same, List.flatMap, Ranked.sorted_flatten]
  have alone := ofFiles_eq one short
  rw [storedFrom, sorted, ← storedFrom] at alone
  have ends := Run.error?_visible options (Run.error?_ofCells (storedFrom format options.startRow
    (plans.map (·.mutations)))) (.start [])
  exact ⟨_, _, _, _, loads, load_eq joined.sound joined.info, ofFiles_eq each short, alone,
    RegionScan.answers_next_complete ends, RegionScan.answers_iterate_complete ends⟩

def olderValue : Blueprint :=
  { standard with
    form := ⟨.stored, .crc32, 64⟩
    mutations := [
      ⟨[97], [102], [113], 5, .put, [3], [], 0⟩,
      ⟨[98], [103], [113], 5, .put, [4], [], 0⟩] }

theorem plainRecords_olderValue : olderValue.PlainRecords ⟨false, false⟩ where
  sound := by decide +kernel
  info := by decide
  plain := rfl
  sameFormat := rfl
  fits := by decide

def allValues : Blueprint :=
  { standard with
    blockSize := 1
    fanout := 2
    mutations := twoValues.mutations ++ olderValue.mutations }

theorem plainRecords_allValues : allValues.PlainRecords ⟨false, false⟩ where
  sound := by decide +kernel
  info := by decide
  plain := rfl
  sameFormat := rfl
  fits := by decide

theorem scan_of_partition_allValues :
    (∀ plan ∈ [twoValues, olderValue], plan.PlainRecords ⟨false, false⟩)
    ∧ allValues.PlainRecords ⟨false, false⟩
    ∧ allValues.mutations = [twoValues, olderValue].flatMap (·.mutations)
    ∧ ([97] : Bytes).length ≤ 65535
    ∧ ∃ files file scan, ∃ cells : List Cell,
      List.Forall₂ (fun plan file => StoreFile.load (Source.ofBytes plan.bytes) = .ok file)
        [twoValues, olderValue] files
      ∧ StoreFile.load (Source.ofBytes allValues.bytes) = .ok file
      ∧ RegionScan.ofFiles files ⟨2, [97], []⟩ = .ok scan
      ∧ RegionScan.ofFiles [file] ⟨2, [97], []⟩ = .ok scan
      ∧ (∀ n, answers RegionScan.next n scan = (List.range n).map fun i => .ok cells[i]?)
      ∧ ∀ n, answers RegionScan.iterate n scan = (List.range n).map fun i => cells[i]?.map .ok := by
  have newest : twoValues.PlainRecords ⟨false, false⟩ :=
    ⟨sound_twoValues, plain_twoValues, rfl, rfl, fits_twoValues⟩
  have each : ∀ plan ∈ [twoValues, olderValue], plan.PlainRecords ⟨false, false⟩ := by
    simp [newest, plainRecords_olderValue]
  have same : allValues.mutations = [twoValues, olderValue].flatMap (·.mutations) := rfl
  have short : ([97] : Bytes).length ≤ 65535 := by decide
  exact ⟨each, plainRecords_allValues, same, short,
    scan_of_partition each plainRecords_allValues same short⟩

end Blueprint

end CellStore
