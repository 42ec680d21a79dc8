import CellStore.Proofs.BlockPlaces
import CellStore.Proofs.CursorFailure
import CellStore.Proofs.DamagedScan
import CellStore.Proofs.Traced

open List (Forall₂)

namespace CellStore

/-- The same cells, between which nothing is read that is not there. If there is an error in the
end, it is not one of a source. -/
inductive Run.Accounts : Run Event → Run → Prop
  | finished : Accounts .finished .finished
  | failed {error : ReadError} (unsourced : error.errorClass ≠ .source) :
    Accounts (.failed error) (.failed error)
  | cell {stored : StoredCell} {rest : Unit → Run Event} {rest' : Unit → Run}
    (later : Accounts (rest ()) (rest' ())) :
    Accounts (.cell (.cell stored) rest) (.cell stored rest')
  | read {access : Access} {rest : Unit → Run Event} {plain : Run} (inside : access.Inside)
    (later : Accounts (rest ()) plain) : Accounts (.cell (.read access) rest) plain

/-- What stands first in two runs, and what comes after it. -/
inductive Run.Starts : Fetched (Option (StoredCell × Run Event)) →
    Fetched (Option (StoredCell × Run)) → Prop
  | finished : Starts (.ok none) (.ok none)
  | failed {error : ReadError} (unsourced : error.errorClass ≠ .source) :
    Starts (.error error) (.error error)
  | cell (stored : StoredCell) {rest : Run Event} {rest' : Run} (later : Accounts rest rest') :
    Starts (.ok (some (stored, rest))) (.ok (some (stored, rest')))

namespace Run.Accounts

variable {run : Run Event} {plain : Run}

theorem after {accesses : List Access} (inside : ∀ access ∈ accesses, access.Inside)
    (accounts : Accounts run plain) : Accounts (Run.after (accesses.map .read) run) plain := by
  induction accesses with
  | nil => exact accounts
  | cons access accesses ih =>
    obtain ⟨first, others⟩ := List.forall_mem_cons.1 inside
    exact .read first (ih others)

/-- What is read on the way to the first cell of a run can be read before another one. -/
theorem after_before {run' : Run Event} {plain' : Run} (accounts : Accounts run plain)
    (later : Accounts run' plain') : Accounts (Run.after run.before run') plain' := by
  induction accounts with
  | finished => exact later
  | failed unsourced => exact later
  | cell _ _ => exact later
  | read inside _ ih => exact .read inside ih

theorem follow {β : Type} {reader : Traced ReadError β} {given : Fetched β} {next : β → Run Event}
    {next' : β → Run} (first : Traced.Accounts Eq reader given)
    (later : ∀ b, Accounts (next b) (next' b)) :
    Accounts (RunReader.follow reader next) (RunReader.follow given next') := by
  cases first with
  | ok inside same =>
    cases same
    exact (later _).after inside
  | error inside unsourced => exact after inside (.failed unsourced)

theorem dropUntil (found : StoredCell → Bool) (accounts : Accounts run plain) :
    Accounts (run.dropUntil found) (plain.dropUntil found) := by
  induction accounts with
  | finished => exact .finished
  | failed unsourced => exact .failed unsourced
  | @cell stored _ _ later ih =>
    rw [Run.dropUntil, dropUntil_cell, Event.cell?_cell]
    dsimp only
    split
    · exact .cell later
    · exact ih
  | read inside _ ih => exact .read inside ih

theorem ofRecords (format : RecordFormat) {next : Unit → Run Event} {next' : Unit → Run}
    (last : Accounts (next ()) (next' ())) (fuel : Nat) (input : Input) :
    Accounts (Run.ofRecords format next fuel input) (Run.ofRecords format next' fuel input) := by
  induction fuel generalizing input with
  | zero => exact last
  | succ fuel ih =>
    rw [Run.ofRecords, Run.ofRecords]
    by_cases ended : input.rest.isEmpty
    · rw [if_pos ended, if_pos ended]
      exact last
    · rw [if_neg ended, if_neg ended]
      cases StoredCell.parse format input with
      | ok parsed => exact .cell (ih parsed.2)
      | error error => exact .failed (unsourced_format error)

theorem concat {β : Type} {run : β → (Unit → Run Event) → Run Event}
    {plain : β → (Unit → Run) → Run}
    (each : ∀ b next next', Accounts (next ()) (next' ()) → Accounts (run b next) (plain b next'))
    {next : Unit → Run Event} {next' : Unit → Run} (last : Accounts (next ()) (next' ()))
    (bs : List β) : Accounts (Run.concat run next bs) (Run.concat plain next' bs) := by
  induction bs with
  | nil => exact last
  | cons b bs ih => exact each b _ _ ih

theorem visible (options : ScanOptions) (state : RowState) (accounts : Accounts run plain) :
    Accounts (run.visible options state) (plain.visible options state) := by
  induction accounts generalizing state with
  | finished => exact .finished
  | failed unsourced => exact .failed unsourced
  | @cell stored _ _ later ih =>
    rw [Run.visible, visible_cell, Event.cell?_cell]
    dsimp only
    split
    · exact .finished
    · obtain ⟨shown, after⟩ := state.see options.maxVersions stored.cell
      cases shown with
      | true => exact .cell (ih after)
      | false => exact ih after
  | read inside _ ih => exact .read inside (ih state)

theorem unsourced (accounts : Accounts run plain) :
    ∀ error ∈ plain.error?, error.errorClass ≠ .source := by
  induction accounts with
  | finished => exact fun _ => nofun
  | failed unsourced =>
    intro error found
    cases found
    exact unsourced
  | cell _ ih => exact ih
  | read _ _ ih => exact ih

theorem before (accounts : Accounts run plain) :
    ∀ access ∈ run.before.filterMap Event.access?, access.Inside := by
  induction accounts with
  | finished => exact List.forall_mem_nil _
  | failed unsourced => exact List.forall_mem_nil _
  | cell _ _ => exact List.forall_mem_nil _
  | read inside _ ih => exact List.forall_mem_cons.2 ⟨inside, ih⟩

theorem first (accounts : Accounts run plain) : Starts run.first plain.first := by
  induction accounts with
  | finished => exact .finished
  | failed unsourced => exact .failed unsourced
  | @cell stored _ _ later _ => exact .cell stored later
  | read _ _ ih => exact ih

theorem collect (found : List Cell) (accounts : Accounts run plain) :
    Traced.Accounts Eq ⟨run.besides.filterMap Event.access?, run.collect found⟩
      (plain.collect found) := by
  induction accounts generalizing found with
  | finished => exact .pure rfl
  | failed unsourced => exact .throw unsourced
  | cell _ ih => exact ih _
  | read inside _ ih => exact (ih _).before (List.forall_mem_singleton.2 inside)

end Run.Accounts

namespace StoreFile

open Run (Accounts)

variable (file : StoreFile) {next : Unit → Run Event} {next' : Unit → Run}

theorem dataBlockRun_accounts (entry : IndexEntry) (last : Accounts (next ()) (next' ())) :
    Accounts (file.dataBlockRun entry next) (file.dataBlockRun entry next') :=
  .follow (file.readRecords_accounts entry.offset) fun records =>
    .ofRecords file.format last records.length (Input.ofBytes records)

theorem subtreeRun_accounts (height : Nat) (entry : IndexEntry)
    (last : Accounts (next ()) (next' ())) :
    Accounts (file.subtreeRun height entry next) (file.subtreeRun height entry next') := by
  induction height generalizing entry next next' with
  | zero => exact file.dataBlockRun_accounts entry last
  | succ height ih =>
    exact .follow (file.readIndexBlock_accounts entry.offset) fun entries =>
      .concat (fun entry _ _ => ih entry) last entries

theorem run_accounts : Accounts file.run file.run :=
  .concat (fun entry _ _ => file.subtreeRun_accounts file.indexHeight entry) .finished
    file.index.entries

theorem runFrom_accounts (key : Bytes) (height : Nat) (entries : List IndexEntry)
    (last : Accounts (next ()) (next' ())) :
    Accounts (file.runFrom key height entries next) (file.runFrom key height entries next') := by
  induction height generalizing entries next next' with
  | zero =>
    rw [runFrom, runFrom]
    cases entries.drop ((Index.search entries Key.order key).getD 0) with
    | nil => exact last
    | cons entry later => exact .concat (fun entry _ _ => file.dataBlockRun_accounts entry) last _
  | succ below ih =>
    rw [runFrom, runFrom]
    cases entries.drop ((Index.search entries Key.order key).getD 0) with
    | nil => exact last
    | cons entry later =>
      refine .follow (file.readIndexBlock_accounts entry.offset) fun entries => ih entries ?_
      exact .concat (fun entry _ _ => file.subtreeRun_accounts (below + 1) entry) last later

theorem seekRun_accounts (key : Bytes) : Accounts (file.seekRun key) (file.seekRun key) :=
  (file.runFrom_accounts key file.indexHeight file.index.entries .finished).dropUntil _

end StoreFile

namespace Cursor

inductive Accounts : Cursor Event → Cursor → Prop
  | live (file : StoreFile) (current : Option StoredCell) {run : Run Event} {plain : Run}
    (ahead : run.Accounts plain) : Accounts ⟨file, .at current run⟩ ⟨file, .at current plain⟩
  | failed (file : StoreFile) : Accounts ⟨file, .failed⟩ ⟨file, .failed⟩

theorem ofFile_accounts (file : StoreFile) : Accounts (ofFile file) (ofFile file) :=
  .live file none file.run_accounts

theorem enter_accounts (file : StoreFile) (position : Position Event) (position' : Position)
    {run : Run Event} {plain : Run} (accounts : run.Accounts plain) :
    Traced.Accounts Eq (enter ⟨file, position⟩ run).1 (enter ⟨file, position'⟩ plain).1
      ∧ Accounts (enter ⟨file, position⟩ run).2 (enter ⟨file, position'⟩ plain).2 := by
  have starts := accounts.first
  rw [enter, enter]
  generalize run.first = found, plain.first = found' at starts ⊢
  cases starts with
  | finished => exact ⟨.ok accounts.before rfl, .live file none .finished⟩
  | failed unsourced => exact ⟨.error accounts.before unsourced, .failed file⟩
  | cell stored later => exact ⟨.ok accounts.before rfl, .live file (some stored) later⟩

theorem Accounts.move {cursor : Cursor Event} {plain : Cursor} (accounts : Accounts cursor plain)
    (call : Move) : Traced.Accounts Eq (cursor.move call).1 (plain.move call).1
      ∧ Accounts (cursor.move call).2 (plain.move call).2 := by
  cases accounts with
  | live file current ahead =>
    cases call with
    | next => exact enter_accounts file _ _ ahead
    | first => exact enter_accounts file _ _ file.run_accounts
    | seek target => exact enter_accounts file _ _ (file.seekRun_accounts target.toKey)
  | failed file =>
    cases call <;> exact ⟨.throw nofun, .failed file⟩

theorem Accounts.responses {cursor : Cursor Event} {plain : Cursor}
    (accounts : Accounts cursor plain) (calls : List Move) :
    Forall₂ (Traced.Accounts Eq) (responses Cursor.move calls cursor)
      (responses Cursor.move calls plain) := by
  induction calls generalizing cursor plain with
  | nil => exact .nil
  | cons call calls ih =>
    obtain ⟨answer, later⟩ := accounts.move call
    exact .cons answer (ih later)

end Cursor

structure Lane.Accounts (lane : Lane Event) (plain : Lane) : Prop where
  rank : lane.rank = plain.rank
  head : lane.head = plain.head
  rest : lane.rest.Accounts plain.rest

namespace Merge

variable {lane : Lane Event} {plain : Lane} {lanes : List (Lane Event)} {plains : List Lane}

theorem insert_accounts (accounts : lane.Accounts plain)
    (others : Forall₂ Lane.Accounts lanes plains) :
    Forall₂ Lane.Accounts (insert lane lanes) (insert plain plains) := by
  induction others with
  | nil => exact .cons accounts .nil
  | @cons l l' lanes plains first others ih =>
    have order : lane.order l = plain.order l' := by
      rw [Lane.order, Lane.order, accounts.head, accounts.rank, first.head, first.rank]
    rw [insert, insert, order]
    split
    · exact .cons first ih
    · exact .cons accounts (.cons first others)

theorem run_accounts (accounts : Forall₂ Lane.Accounts lanes plains) :
    (run lanes).Accounts (run plains) := by
  induction plains using Merge.run.induct generalizing lanes with
  | case1 =>
    cases accounts
    rw [run, run]
    exact .finished
  | case2 plain plains again others =>
    obtain ⟨lane, lanes, same, rest, rfl⟩ := List.forall₂_cons_right_iff.1 accounts
    obtain ⟨rank, head, ahead⟩ := lane
    obtain ⟨_, _, plain⟩ := plain
    obtain ⟨rfl, rfl, later⟩ := same
    rw [run, run]
    refine .cell ?_
    rw [Run.before_eq_nil]
    refine later.after_before ?_
    have starts := later.first
    generalize ahead.first = found, plain.first = found' at starts again ⊢
    cases starts with
    | finished => exact others rest
    | failed unsourced => exact .failed unsourced
    | cell stored later => exact again stored _ rfl (insert_accounts ⟨rfl, rfl, later⟩ rest)

theorem addCursors_accounts (target : Option SeekTarget) (rank : Nat)
    {cursors : List (Cursor Event)} {plainCursors : List Cursor}
    (same : Forall₂ Cursor.Accounts cursors plainCursors) {merge : Merge Event} {plainMerge : Merge}
    (accounts : Forall₂ Lane.Accounts merge.lanes plainMerge.lanes) :
    Traced.Accounts (fun merge plain => Forall₂ Lane.Accounts merge.lanes plain.lanes)
      (addCursors target rank cursors merge) (addCursors target rank plainCursors plainMerge) := by
  induction same generalizing rank merge plainMerge with
  | nil => exact .pure accounts
  | @cons cursor plain cursors plainCursors first others ih =>
    rw [addCursors, addCursors]
    have moves : Traced.Accounts Eq (target.elim cursor.next cursor.seek).1
          (target.elim plain.next plain.seek).1
        ∧ Cursor.Accounts (target.elim cursor.next cursor.seek).2
          (target.elim plain.next plain.seek).2 := by
      cases target with
      | none => exact first.move .next
      | some target => exact first.move (.seek target)
    generalize target.elim cursor.next cursor.seek = moved,
      target.elim plain.next plain.seek = moved' at moves ⊢
    obtain ⟨found, cursor⟩ := moved
    obtain ⟨found', plain⟩ := moved'
    obtain ⟨answer, follows⟩ := moves
    refine answer.andThen fun _ => ih (rank + 1) ?_
    cases follows with
    | failed file => exact accounts
    | live file current ahead =>
      cases current with
      | none => exact accounts
      | some head => exact insert_accounts ⟨rfl, rfl, ahead⟩ accounts

end Merge

theorem CellIterator.unsourced_of_mem {cells : List Cell} {failure : Option ReadError}
    (unsourced : ∀ error ∈ failure, error.errorClass ≠ .source) {n : Nat} {error : CursorError}
    (given : some (.error error) ∈ (List.range n).map fun i => (items cells failure)[i]?) :
    error.errorClass ≠ .source := by
  obtain ⟨i, -, found⟩ := List.mem_map.1 given
  have member := List.mem_of_getElem? found
  rw [items, List.mem_append, List.mem_map, List.mem_map] at member
  obtain ⟨cell, -, same⟩ | ⟨cause, failed, same⟩ := member
  · cases same
  · cases same
    exact unsourced cause (Option.mem_toList.1 failed)

namespace RegionScan

inductive Accounts : RegionScan Event → RegionScan → Prop
  | at {run : Run Event} {plain : Run} (ahead : run.Accounts plain) : Accounts (.at run) (.at plain)
  | failed : Accounts .failed .failed

theorem ofFiles_accounts (files : List StoreFile) (options : ScanOptions) :
    Traced.Accounts Accounts (ofFiles files options) (ofFiles files options) := by
  have cursors : Forall₂ Cursor.Accounts (files.map Cursor.ofFile) (files.map Cursor.ofFile) :=
    List.forall₂_map_left_iff.2 <| List.forall₂_map_right_iff.2 <|
      List.forall₂_same.2 fun file _ => Cursor.ofFile_accounts file
  exact (Merge.addCursors_accounts _ 0 cursors .nil).bind fun _ _ lanes =>
    .pure (.at ((Merge.run_accounts lanes).visible options (.start [])))

variable {scan : RegionScan Event} {plain : RegionScan}

theorem next_accounts (accounts : Accounts scan plain) :
    Traced.Accounts Eq scan.next.1 plain.next.1 ∧ Accounts scan.next.2 plain.next.2 := by
  cases accounts with
  | failed => exact ⟨.throw nofun, .failed⟩
  | @«at» run plain ahead =>
    have starts := ahead.first
    rw [next, next]
    generalize run.first = found, plain.first = found' at starts ⊢
    cases starts with
    | finished => exact ⟨.ok ahead.before rfl, .at .finished⟩
    | failed unsourced => exact ⟨.error ahead.before unsourced, .failed⟩
    | cell stored later => exact ⟨.ok ahead.before rfl, .at later⟩

theorem answers_accounts (accounts : Accounts scan plain) (n : Nat) :
    Forall₂ (Traced.Accounts Eq) (answers next n scan) (answers next n plain) := by
  induction n generalizing scan plain with
  | zero => exact .nil
  | succ n ih =>
    obtain ⟨answer, later⟩ := next_accounts accounts
    exact .cons answer (ih later)

theorem iterate_unsourced (accounts : Accounts scan plain) {n : Nat} {error : CursorError}
    (given : some (.error error) ∈ answers iterate n plain) :
    error.errorClass ≠ .source := by
  cases accounts with
  | failed =>
    have stays : iterate .failed = (none, .failed) := rfl
    rw [answers_of_stays stays] at given
    cases (List.mem_replicate.1 given).2
  | «at» ahead =>
    rw [answers_iterate_at] at given
    exact CellIterator.unsourced_of_mem ahead.unsourced given

theorem toList_accounts (accounts : Accounts scan plain) :
    Traced.Accounts Eq scan.toList plain.toList := by
  cases accounts with
  | failed => exact .pure rfl
  | «at» ahead => exact (ahead.collect []).read

theorem row_accounts (files : List StoreFile) (row : Bytes) (maxVersions : Nat) :
    Traced.Accounts Eq (RegionScan.row (α := Event) files row maxVersions)
      (RegionScan.row files row maxVersions) :=
  (StoreFile.candidates_accounts row files).read.andThen fun files =>
    (ofFiles_accounts files (.ofRow row maxVersions)).bind fun _ _ => toList_accounts

end RegionScan

/-- Nothing is read that is not there: not to open a file, whatever its bytes are, nor to get its
meta blocks, to ask its filter, to move cursors over it or to scan it with other files. So none of
this fails because of a source, and giving account of it changes no answer. A trailer or a block
that the source does not hold is said to be cut off. -/
theorem reads_inside :
    (∀ source, (StoreFile.load source : Traced ReadError StoreFile).Accounts Eq
      (StoreFile.load source))
    ∧ (∀ file : StoreFile,
      (∀ name, (file.metaBlock name : Traced ReadError (Option Bytes)).Accounts Eq
        (file.metaBlock name))
      ∧ (∀ row, (file.mayContainRow row : Traced ReadError Bool).Accounts Eq
        (file.mayContainRow row))
      ∧ (∀ calls, Forall₂ (Traced.Accounts Eq)
        (responses Cursor.move calls (Cursor.ofFile file : Cursor Event))
        (responses Cursor.move calls (Cursor.ofFile file)))
      ∧ ∀ n error, some (.error error) ∈ answers CellIterator.next n (.ofCursor (.ofFile file)) →
        error.errorClass ≠ .source)
    ∧ (∀ files options, (RegionScan.ofFiles files options :
        Traced CursorError (RegionScan Event)).Accounts
      (fun traced scan =>
        (∀ n, Forall₂ (Traced.Accounts Eq) (answers RegionScan.next n traced)
          (answers RegionScan.next n scan))
        ∧ (∀ n error, some (.error error) ∈ answers RegionScan.iterate n scan →
          error.errorClass ≠ .source)
        ∧ traced.toList.Accounts Eq scan.toList)
      (RegionScan.ofFiles files options))
    ∧ (∀ files row maxVersions, (RegionScan.row (α := Event) files row maxVersions).Accounts Eq
      (RegionScan.row files row maxVersions))
    ∧ (∀ source : Source, source.size < Trailer.size → StoreFile.load source =
      .error (.format (.truncated "trailer" Trailer.size source.size)))
    ∧ ∀ source offset codec, source.size < offset + Block.reach (source.bytes.drop offset) →
      ∃ what needed, Block.read source offset codec =
        .error (.format (.truncated what needed source.size)) := by
  refine ⟨StoreFile.load_accounts, fun file => ⟨file.metaBlock_accounts,
    file.mayContainRow_accounts, fun calls => ?_, fun n error given => ?_⟩,
    fun files options => ?_, RegionScan.row_accounts, fun source short => ?_,
    fun source offset codec short => ⟨_, _, Block.read_of_short source offset codec short⟩⟩
  · exact (Cursor.ofFile_accounts file).responses calls
  · rw [Cursor.ofFile, CellIterator.answers_at] at given
    exact CellIterator.unsourced_of_mem file.run_accounts.unsourced given
  · refine (RegionScan.ofFiles_accounts files options).imp fun traced scan accounts => ?_
    exact ⟨RegionScan.answers_accounts accounts, fun _ _ => RegionScan.iterate_unsourced accounts,
      RegionScan.toList_accounts accounts⟩
  · have fails : (Trailer.read source : Fetched Trailer) =
        .error (.format (.truncated "trailer" Trailer.size source.size)) := by
      rw [Trailer.read, if_pos short]
      exact error_bind _ _
    rw [StoreFile.load, fails]
    exact error_bind _ _

theorem reads_inside_twoBlocks :
    let file := StoreFile.twoBlocks .metadata
    let error : CursorError := .read (.format (.unexpectedBlock [.data, .encodedData] .metadata))
    let source := Source.ofBytes [1]
    (some (.error error) ∈ answers CellIterator.next 2 (.ofCursor (.ofFile file))
        ∧ error.errorClass ≠ .source)
      ∧ (source.size < Trailer.size
        ∧ StoreFile.load source = .error (.format (.truncated "trailer" 4096 1)))
      ∧ source.size < 1 + Block.reach (source.bytes.drop 1)
      ∧ ∃ what needed,
        Block.read source 1 .stored = .error (.format (.truncated what needed 1)) := by
  intro file error source
  have shown : some (.error error) ∈ answers CellIterator.next 2 (.ofCursor (.ofFile file)) := by
    decide +kernel
  have small : source.size < Trailer.size := by decide
  have short : source.size < 1 + Block.reach (source.bytes.drop 1) := by decide +kernel
  obtain ⟨-, files, -, -, cut, cutBlock⟩ := reads_inside
  obtain ⟨-, -, -, unsourced⟩ := files file
  exact ⟨⟨shown, unsourced 2 error shown⟩, ⟨small, cut source small⟩, short,
    cutBlock source 1 .stored short⟩

end CellStore
