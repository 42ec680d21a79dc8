import CellStore.Proofs.CursorFailure
import CellStore.Walk

namespace CellStore

namespace Reading

theorem andThen_assoc (a b c : Reading) : (a.andThen b).andThen c = a.andThen (b.andThen c) := by
  obtain ⟨cells, error⟩ := a
  obtain ⟨cells', error'⟩ := b
  cases error <;> cases error' <;> simp [andThen]

end Reading

namespace Run

def reading (run : Run) : Reading := ⟨run.toList, run.error?⟩

variable {format : RecordFormat} {next : Unit → Run}

end Run

namespace StoreFile

variable (file : StoreFile)

end StoreFile

namespace Walk

inductive Yields (file : StoreFile) : Walk → Reading → Prop
  | cell {walk next : Walk} {stored : StoredCell} {reading : Reading} :
    walk.step file = .cell stored next → Yields file next reading →
      Yields file walk ((Reading.mk [stored] none).andThen reading)
  | pass {walk next : Walk} {reading : Reading} :
    walk.step file = .pass next → Yields file next reading → Yields file walk reading
  | finished {walk : Walk} : walk.step file = .finished → Yields file walk .empty
  | failed {walk : Walk} {error : ReadError} :
    walk.step file = .failed error → Yields file walk ⟨[], some error⟩

variable {file : StoreFile} {walk : Walk} {reading reading' : Reading}
  {frames : List (List IndexEntry)}

theorem Yields.unique (one : Yields file walk reading) (other : Yields file walk reading') :
    reading = reading' := by
  induction one generalizing reading' with
  | cell step _ ih =>
    cases other with
    | cell step' later =>
      obtain ⟨rfl, rfl⟩ := Step.cell.inj (step.symm.trans step')
      rw [ih later]
    | pass step' | finished step' | failed step' => cases step.symm.trans step'
  | pass step _ ih =>
    cases other with
    | pass step' later =>
      obtain rfl := Step.pass.inj (step.symm.trans step')
      exact ih later
    | cell step' | finished step' | failed step' => cases step.symm.trans step'
  | finished step =>
    cases other with
    | finished step' => rfl
    | cell step' | pass step' | failed step' => cases step.symm.trans step'
  | failed step =>
    cases other with
    | failed step' =>
      obtain rfl := Step.failed.inj (step.symm.trans step')
      rfl
    | cell step' | pass step' | finished step' => cases step.symm.trans step'

/-- What is read on a walk that is through with its data block. -/
def Resumes (file : StoreFile) (frames : List (List IndexEntry)) (reading : Reading) : Prop :=
  ∀ block : Input, block.rest = [] → Yields file ⟨frames, block⟩ reading

section

variable {block : Input} (empty : block.rest = [])

include empty

theorem step_leave : step file ⟨[] :: frames, block⟩ = .pass ⟨frames, block⟩ :=
  if_pos (List.isEmpty_iff.2 empty)

theorem step_visit (entry : IndexEntry) (entries : List IndexEntry) :
    step file ⟨(entry :: entries) :: frames, block⟩ = visit file entry (entries :: frames) :=
  if_pos (List.isEmpty_iff.2 empty)

end

section

variable {block : Input} (more : ¬ block.rest.isEmpty = true)

include more

theorem step_cell {stored : StoredCell} {after : Input}
    (parsed : StoredCell.parse file.format block = .ok (stored, after)) :
    step file ⟨frames, block⟩ = .cell stored ⟨frames, after⟩ := by
  rw [step, if_neg more, parsed]

theorem step_failed {error : FormatError}
    (parsed : StoredCell.parse file.format block = .error error) :
    step file ⟨frames, block⟩ = .failed (.format error) := by
  rw [step, if_neg more, parsed]

end

theorem Resumes.records (resumes : Resumes file frames reading) {fuel : Nat} {block : Input}
    (enough : block.rest.length ≤ fuel) :
    Yields file ⟨frames, block⟩ ((Reading.ofRecords file.format fuel block).andThen reading) := by
  induction fuel generalizing block with
  | zero => exact resumes block (List.eq_nil_of_length_eq_zero (Nat.le_zero.1 enough))
  | succ fuel ih =>
    rw [Reading.ofRecords]
    split
    · exact resumes block (List.isEmpty_iff.1 ‹_›)
    · rename_i more
      cases parsed : StoredCell.parse file.format block with
      | error error => exact .failed (step_failed more parsed)
      | ok found =>
        have shorter := StoredCell.length_of_parse parsed
        rw [Reading.andThen_assoc]
        exact .cell (step_cell more parsed) (ih (by omega))

theorem Resumes.all {read : IndexEntry → Reading} (resumes : Resumes file frames reading)
    (visits : ∀ entry entries reading, Resumes file (entries :: frames) reading →
      ∀ block : Input, block.rest = [] → Yields file ⟨(entry :: entries) :: frames, block⟩
        ((read entry).andThen reading)) (entries : List IndexEntry) :
    Resumes file (entries :: frames) ((Reading.all read entries).andThen reading) := by
  induction entries with
  | nil => exact fun block empty => .pass (step_leave empty) (resumes block empty)
  | cons entry entries ih =>
    rw [Reading.all, Reading.andThen_assoc]
    exact visits entry entries _ ih

/-- However the index blocks point at each other, the levels below the frames end the walk. -/
theorem Resumes.below {height : Nat} (depth : frames.length + height = file.indexHeight)
    (resumes : Resumes file frames reading) (entries : List IndexEntry) :
    Resumes file (entries :: frames)
      ((Reading.all (file.readSubtree height) entries).andThen reading) := by
  rw [StoreFile.indexHeight] at depth
  induction height generalizing frames reading entries with
  | zero =>
    refine resumes.all (fun entry entries reading later block empty => ?_) entries
    have bottom : max file.index.levels 1 ≤ (entries :: frames).length := by
      rw [List.length_cons]
      omega
    have step : step file ⟨(entry :: entries) :: frames, block⟩ = _ :=
      step_visit empty entry entries
    rw [visit, if_pos bottom] at step
    rw [StoreFile.readSubtree, StoreFile.readDataBlock]
    cases read : file.readRecords entry.offset with
    | error error =>
      rw [read] at step
      exact .failed step
    | ok records =>
      rw [read] at step
      exact .pass step (later.records (Nat.le_refl _))
  | succ height ih =>
    refine resumes.all (fun entry entries reading later block empty => ?_) entries
    have above : ¬ max file.index.levels 1 ≤ (entries :: frames).length := by
      rw [List.length_cons]
      omega
    have step : step file ⟨(entry :: entries) :: frames, block⟩ = _ :=
      step_visit empty entry entries
    rw [visit, if_neg above] at step
    rw [StoreFile.readSubtree]
    cases read : file.readIndexBlock entry.offset with
    | error error =>
      rw [read] at step
      exact .failed step
    | ok children =>
      rw [read] at step
      have deeper : (entries :: frames).length + height = file.index.levels - 1 := by
        rw [List.length_cons]
        omega
      exact .pass step (ih deeper later children _ rfl)

end Walk

end CellStore
