import CellStore.Cursor.Framed
import CellStore.Proofs.Answers

/-! What a cursor with frames finds is what comes next in the run that is ahead of it. -/

namespace CellStore

namespace Run

variable {format : RecordFormat} {next : Unit → Run}

theorem ofRecords_congr {fuel fuel' : Nat} {input : Input} (enough : input.rest.length ≤ fuel)
    (enough' : input.rest.length ≤ fuel') :
    ofRecords format next fuel input = ofRecords format next fuel' input := by
  induction fuel generalizing fuel' input with
  | zero =>
    have empty : input.rest.isEmpty = true :=
      List.isEmpty_iff.2 (List.eq_nil_of_length_eq_zero (Nat.le_zero.1 enough))
    cases fuel' with
    | zero => rfl
    | succ fuel' => rw [ofRecords, ofRecords, if_pos empty]
  | succ fuel ih =>
    cases fuel' with
    | zero =>
      have empty : input.rest.isEmpty = true :=
        List.isEmpty_iff.2 (List.eq_nil_of_length_eq_zero (Nat.le_zero.1 enough'))
      rw [ofRecords, ofRecords, if_pos empty]
    | succ fuel' =>
      rw [ofRecords, ofRecords]
      cases parsed : StoredCell.parse format input with
      | error error => rfl
      | ok found =>
        have shorter := StoredCell.length_of_parse parsed
        have later : ofRecords format next fuel found.2 = ofRecords format next fuel' found.2 :=
          ih (by omega) (by omega)
        simp only [later]

def records (format : RecordFormat) (next : Unit → Run) (block : Bytes) (offset : Nat) : Run :=
  ofRecords format next (block.length - offset) (.startingAt block offset)

variable {block : Bytes} {offset : Nat}

theorem records_of_le (through : block.length ≤ offset) :
    records format next block offset = next () := by
  rw [records, Nat.sub_eq_zero_of_le through, ofRecords]

theorem records_eq (more : offset < block.length) :
    records format next block offset =
      match StoredCell.parse format (.startingAt block offset) with
      | .ok (stored, input) =>
        cell stored fun _ => ofRecords format next input.rest.length input
      | .error error => failed (.format error) := by
  obtain ⟨fuel, left⟩ := Nat.exists_eq_succ_of_ne_zero (Nat.sub_ne_zero_of_lt more)
  have filled : (Input.startingAt block offset).rest.length = fuel + 1 := by
    simp only [Input.startingAt, List.length_drop, left]
  have nonempty : ¬ (Input.startingAt block offset).rest.isEmpty = true := by
    rw [List.isEmpty_iff, ← List.length_eq_zero_iff, filled]
    exact Nat.succ_ne_zero fuel
  rw [records, left, ofRecords, if_neg nonempty]
  cases parsed : StoredCell.parse format (.startingAt block offset) with
  | error error => rfl
  | ok found =>
    have shorter := StoredCell.length_of_parse parsed
    have later : ofRecords format next fuel found.2 =
        ofRecords format next found.2.rest.length found.2 :=
      ofRecords_congr (by omega) (Nat.le_refl _)
    simp only [later, RunItem.ofCell_eq]

end Run

namespace StoreFile

/-- The cells below the frames, those below the lowest one first. -/
def framesRun (file : StoreFile) : List Frame → Run
  | [] => .finished
  | frame :: above =>
    Run.concat (file.subtreeRun (file.levels - (above.length + 1)))
      (fun _ => file.framesRun above) (frame.entries.drop frame.next)

variable (file : StoreFile) {frame : Frame} (above : List Frame)

theorem framesRun_of_none (last : frame.entries[frame.next]? = none) :
    file.framesRun (frame :: above) = file.framesRun above := by
  rw [framesRun, List.drop_of_length_le (List.getElem?_eq_none_iff.1 last), Run.concat]

theorem framesRun_of_some {entry : IndexEntry} (here : frame.entries[frame.next]? = some entry) :
    file.framesRun (frame :: above) =
      file.subtreeRun (file.levels - (above.length + 1)) entry
        fun _ => file.framesRun (⟨frame.entries, frame.next + 1⟩ :: above) := by
  obtain ⟨inside, rfl⟩ := List.getElem?_eq_some_iff.1 here
  rw [framesRun, List.drop_eq_getElem_cons inside, Run.concat]
  rfl

section

open FramedCursor

variable {key : Bytes} {entries : List IndexEntry}

end

end StoreFile

namespace FramedCursor

def ahead (cursor : FramedCursor) : Run :=
  Run.records cursor.file.format (fun _ => cursor.file.framesRun cursor.frames) cursor.block
    cursor.offset

/-- What leads from one cursor to another inside of a move. The file is the same, and what failed
before or did not is settled only when the move is over. -/
structure Leads (cursor moved : FramedCursor) : Prop where
  file : moved.file = cursor.file
  failed : moved.failed = cursor.failed

/-- What is found at the start of a run, and how the cursor is left. -/
inductive Meets (cursor : FramedCursor) : Run → Fetched Bool × FramedCursor → Prop
  | cell {stored : StoredCell} {rest : Unit → Run} {moved : FramedCursor}
    (leads : cursor.Leads moved) (shown : moved.cell? = some (stored.key, stored.cell))
    (later : moved.ahead = rest ()) : Meets cursor (.cell stored rest) (.ok true, moved)
  | finished {moved : FramedCursor} (leads : cursor.Leads moved) (shown : moved.cell? = none)
    (later : moved.ahead = .finished) : Meets cursor .finished (.ok false, moved)
  | failed {error : ReadError} {moved : FramedCursor} (leads : cursor.Leads moved) :
    Meets cursor (.failed error) (.error error, moved)

/-- A step passes over nothing of a run, and stops at what is found there. -/
def Agrees (cursor : FramedCursor) (run : Run) : Step → Prop
  | .pass moved => cursor.Leads moved ∧ moved.ahead = run
  | .stop found moved => cursor.Meets run (found, moved)

section

variable {cursor moved : FramedCursor}

theorem ahead_of_le (through : cursor.block.length ≤ cursor.offset) :
    cursor.ahead = cursor.file.framesRun cursor.frames := Run.records_of_le through

theorem Leads.trans {other : FramedCursor} (leads : cursor.Leads moved)
    (later : moved.Leads other) : cursor.Leads other :=
  ⟨later.file.trans leads.file, later.failed.trans leads.failed⟩

theorem Meets.of_leads {run : Run} {answer : Fetched Bool × FramedCursor}
    (meets : moved.Meets run answer) (leads : cursor.Leads moved) : cursor.Meets run answer := by
  cases meets with
  | cell later shown ahead => exact .cell (leads.trans later) shown ahead
  | finished later shown ahead => exact .finished (leads.trans later) shown ahead
  | failed later => exact .failed (leads.trans later)

theorem Agrees.of_leads {run : Run} {result : Step} (agrees : moved.Agrees run result)
    (leads : cursor.Leads moved) : cursor.Agrees run result := by
  cases result with
  | pass other => exact ⟨leads.trans agrees.1, agrees.2⟩
  | stop found other => exact Meets.of_leads agrees leads

theorem Visits.agrees {entry : IndexEntry} {result : Step} (visits : cursor.Visits entry result)
    (through : cursor.block.length ≤ cursor.offset) :
    cursor.Agrees (cursor.file.subtreeRun (cursor.file.levels - cursor.frames.length) entry
      fun _ => cursor.file.framesRun cursor.frames) result := by
  have below (above : cursor.frames.length < cursor.file.levels) :
      cursor.file.levels - cursor.frames.length =
        cursor.file.levels - (cursor.frames.length + 1) + 1 := by omega
  cases visits with
  | loaded bottom read =>
    rw [Nat.sub_eq_zero_of_le bottom, StoreFile.subtreeRun, StoreFile.dataBlockRun, read]
    exact ⟨⟨rfl, rfl⟩, rfl⟩
  | unloaded bottom read =>
    rw [Nat.sub_eq_zero_of_le bottom, StoreFile.subtreeRun, StoreFile.dataBlockRun, read]
    exact .failed ⟨rfl, rfl⟩
  | entered above read =>
    rw [below above, StoreFile.subtreeRun, read]
    exact ⟨⟨rfl, rfl⟩, ahead_of_le through⟩
  | unentered above read =>
    rw [below above, StoreFile.subtreeRun, read]
    exact .failed ⟨rfl, rfl⟩

theorem Steps.agrees {result : Step} (steps : cursor.Steps result) :
    cursor.Agrees cursor.ahead result := by
  obtain ⟨file, frames, block, offset, current, failed⟩ := cursor
  cases steps with
  | record more parsed =>
    obtain ⟨stored, read, shown, -⟩ := CellLayout.exists_of_parse parsed
    rw [ahead, Run.records_eq more, read]
    exact .cell ⟨rfl, rfl⟩ shown
      (by simp only [ahead, Run.records, Input.startingAt, List.length_drop])
  | flawed more parsed =>
    rw [CellLayout.parse_eq] at parsed
    cases read : StoredCell.parse file.format (.startingAt block offset) with
    | ok found =>
      rw [read] at parsed
      cases parsed
    | error error =>
      rw [read] at parsed
      cases parsed
      rw [ahead, Run.records_eq more, read]
      exact .failed ⟨rfl, rfl⟩
  -- No frame is left, or only the root: both are the end, and the cursor stays there.
  | ended through frames =>
    cases frames
    rw [ahead_of_le through]
    exact .finished ⟨rfl, rfl⟩ rfl (ahead_of_le through)
  | stayed through frames last =>
    cases frames
    have finished : file.framesRun _ = .finished := file.framesRun_of_none [] last
    rw [ahead_of_le through, finished]
    exact .finished ⟨rfl, rfl⟩ rfl ((ahead_of_le through).trans finished)
  | left through frames last =>
    cases frames
    rw [ahead_of_le through, StoreFile.framesRun_of_none _ _ last]
    exact ⟨⟨rfl, rfl⟩, ahead_of_le through⟩
  | visited through frames here visits =>
    cases frames
    rw [ahead_of_le through, StoreFile.framesRun_of_some _ _ here]
    exact (visits.agrees through).of_leads ⟨rfl, rfl⟩

end

inductive Opens (cursor : FramedCursor) : Run → Fetched Unit × FramedCursor → Prop
  | ok {run : Run} {moved : FramedCursor} (leads : cursor.Leads moved) (ahead : moved.ahead = run) :
    Opens cursor run (.ok (), moved)
  | failed {error : ReadError} {moved : FramedCursor} (leads : cursor.Leads moved) :
    Opens cursor (.failed error) (.error error, moved)

theorem Opens.of_leads {cursor moved : FramedCursor} {run : Run}
    {answer : Fetched Unit × FramedCursor} (opens : moved.Opens run answer)
    (leads : cursor.Leads moved) : cursor.Opens run answer := by
  cases opens with
  | ok later ahead => exact .ok (leads.trans later) ahead
  | failed later => exact .failed (leads.trans later)

end FramedCursor

end CellStore
