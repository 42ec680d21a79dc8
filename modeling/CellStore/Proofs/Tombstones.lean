import CellStore.Region.Tombstones
import Mathlib.Data.List.Induction
import Mathlib.Tactic.Tauto

namespace CellStore

/-- Whether a tombstone of this kind covers a version of a column in its row. -/
def CellKind.covers (kind : CellKind) (qualifier : Bytes) (timestamp : UInt64)
    (column : Bytes) (version : UInt64) : Prop :=
  match kind with
  | .put => False
  | .delete => qualifier = column ∧ timestamp = version
  | .deleteColumn => qualifier = column ∧ version ≤ timestamp
  | .deleteFamily => version ≤ timestamp

namespace CellKind

variable {kind : CellKind} {qualifier column : Bytes} {timestamp version : UInt64}

theorem isTombstone_of_covers (covers : kind.covers qualifier timestamp column version) :
    kind.isTombstone = true := by
  cases kind with
  | put => exact covers.elim
  | _ => rfl

theorem covers_self (tombstone : kind.isTombstone = true) :
    kind.covers qualifier timestamp qualifier timestamp := by
  cases kind with
  | put => cases tombstone
  | delete => exact ⟨rfl, rfl⟩
  | deleteColumn => exact ⟨rfl, UInt64.le_refl _⟩
  | deleteFamily => exact UInt64.le_refl _

end CellKind

namespace Tombstones

variable {t : Tombstones} {qualifier column : Bytes} {timestamp version : UInt64}

theorem le_newest_iff (a b c : UInt64) : a ≤ max b c ↔ a ≤ b ∨ a ≤ c := by
  change a ≤ (if b ≤ c then c else b) ↔ _
  split <;> simp only [UInt64.le_iff_toNat_le] at * <;> omega

theorem lookup_raise (columns : List (Bytes × UInt64)) :
    ((raise qualifier timestamp columns).lookup column).any (version ≤ ·) = true ↔
      (columns.lookup column).any (version ≤ ·) = true
        ∨ qualifier = column ∧ version ≤ timestamp := by
  induction columns with
  | nil =>
    rw [raise, List.lookup_cons]
    by_cases same : qualifier = column
    · simp [same]
    · simp [same, beq_false_of_ne (Ne.symm same)]
  | cons entry columns ih =>
    obtain ⟨q, newest⟩ := entry
    rw [raise]
    by_cases here : q = column
    · subst here
      by_cases same : q = qualifier
      · subst same
        simp [le_newest_iff]
      · simp [same, Ne.symm same]
    · have other : (column == q) = false := beq_false_of_ne (Ne.symm here)
      by_cases same : q = qualifier
      · subst same
        simp [List.lookup_cons, other, here]
      · simp only [same, if_false, List.lookup_cons, other, ih]

def covers (t : Tombstones) (kind : CellKind) (column : Bytes) (version : UInt64) : Prop :=
  match kind with
  | .put => False
  | .delete => (column, version) ∈ t.versions
  | .deleteColumn => (t.columns.lookup column).any (version ≤ ·) = true
  | .deleteFamily => t.family.any (version ≤ ·) = true

theorem covers_add (added kind : CellKind) :
    (t.add added qualifier timestamp).covers kind column version ↔
      t.covers kind column version
        ∨ added = kind ∧ kind.covers qualifier timestamp column version := by
  cases kind with
  | put => cases added <;> simp [covers, CellKind.covers]
  | delete =>
    cases added with
    | delete =>
      simp only [add, covers, CellKind.covers, List.mem_insert_iff, Prod.mk.injEq,
        @eq_comm _ column, @eq_comm _ version]
      tauto
    | _ => simp [add, covers]
  | deleteColumn =>
    cases added with
    | deleteColumn => simp only [add, covers, CellKind.covers, lookup_raise, true_and]
    | _ => simp [add, covers]
  | deleteFamily =>
    cases added with
    | deleteFamily =>
      cases family : t.family <;> simp [add, covers, CellKind.covers, family, le_newest_iff]
    | _ => simp [add, covers]

theorem not_covers_empty (kind : CellKind) : ¬ empty.covers kind column version := by
  cases kind <;> simp [covers, empty]

theorem check_eq_iff :
    (t.check column version = .family ↔ t.covers .deleteFamily column version)
    ∧ (t.check column version = .column ↔ ¬ t.covers .deleteFamily column version
      ∧ t.covers .deleteColumn column version)
    ∧ (t.check column version = .version ↔ ¬ t.covers .deleteFamily column version
      ∧ ¬ t.covers .deleteColumn column version ∧ t.covers .delete column version)
    ∧ (t.check column version = .visible ↔ ¬ t.covers .deleteFamily column version
      ∧ ¬ t.covers .deleteColumn column version ∧ ¬ t.covers .delete column version) := by
  simp only [covers, check]
  split
  · simp [*]
  · split
    · simp [*]
    · split <;> simp_all

theorem check_ne_visible_iff :
    t.check column version ≠ .visible ↔ ∃ kind, t.covers kind column version := by
  rw [Ne, check_eq_iff.2.2.2, ← not_iff_not, not_not, not_exists]
  refine ⟨fun ⟨family, columns, versions⟩ kind => ?_, fun none => ⟨none _, none _, none _⟩⟩
  cases kind with
  | put => exact id
  | delete => exact versions
  | deleteColumn => exact columns
  | deleteFamily => exact family

theorem check_add (kind : CellKind) :
    (t.add kind qualifier timestamp).check column version ≠ .visible ↔
      t.check column version ≠ .visible ∨ kind.covers qualifier timestamp column version := by
  simp only [check_ne_visible_iff, covers_add, exists_or, exists_eq_left']

theorem check_congr {other : Tombstones}
    (same : ∀ kind, t.covers kind column version ↔ other.covers kind column version) :
    t.check column version = other.check column version := by
  have family := same .deleteFamily
  have columns := same .deleteColumn
  have versions := same .delete
  simp only [covers] at family columns versions
  simp only [check, List.contains_iff_mem, family, columns, versions]

theorem isEmpty_iff : t.isEmpty = true ↔ ∀ kind column version, ¬ t.covers kind column version := by
  obtain ⟨family, columns, versions⟩ := t
  constructor
  · intro nothing kind column version
    simp only [isEmpty, Bool.and_eq_true, Option.isNone_iff_eq_none, List.isEmpty_iff] at nothing
    obtain ⟨⟨rfl, rfl⟩, rfl⟩ := nothing
    exact not_covers_empty kind
  · intro nothing
    have noFamily : family = none := by
      cases family with
      | none => rfl
      | some newest => exact (nothing .deleteFamily [] newest (by simp [covers])).elim
    have noColumns : columns = [] := by
      cases columns with
      | nil => rfl
      | cons entry columns =>
        obtain ⟨qualifier, newest⟩ := entry
        exact (nothing .deleteColumn qualifier newest (by simp [covers])).elim
    have noVersions : versions = [] := by
      cases versions with
      | nil => rfl
      | cons entry versions => exact (nothing .delete entry.1 entry.2 (by simp [covers])).elim
    simp [isEmpty, noFamily, noColumns, noVersions]

inductive Step
  | add (cell : Cell)
  | reset

def Step.apply (t : Tombstones) : Step → Tombstones
  | add cell => t.add cell.kind cell.qualifier cell.timestamp
  | reset => t.reset

def run (steps : List Step) : Tombstones := steps.foldl Step.apply empty

/-- Whether a cell was added and no reset came after it. -/
def Added (steps : List Step) (cell : Cell) : Prop :=
  ∃ before after, steps = before ++ .add cell :: after ∧ .reset ∉ after

def Hidden (steps : List Step) (kind : CellKind) (column : Bytes) (version : UInt64) : Prop :=
  ∃ cell, Added steps cell ∧ cell.kind = kind
    ∧ kind.covers cell.qualifier cell.timestamp column version

variable {steps steps' : List Step} {kind : CellKind} {cell : Cell}

theorem run_append (steps : List Step) (step : Step) :
    run (steps ++ [step]) = step.apply (run steps) := by
  rw [run, List.foldl_append]
  rfl

theorem not_added_nil : ¬ Added [] cell := by
  simp [Added]

theorem added_append (step : Step) : Added (steps ++ [step]) cell ↔
    step = .add cell ∨ step ≠ .reset ∧ Added steps cell := by
  constructor
  · rintro ⟨before, after, split, kept⟩
    rcases List.eq_nil_or_concat after with rfl | ⟨after, last, rfl⟩
    · obtain ⟨-, same⟩ := List.append_inj' split rfl
      exact .inl (List.singleton_inj.1 same)
    · rw [List.concat_eq_append] at split kept
      rw [← List.cons_append, ← List.append_assoc] at split
      obtain ⟨split, same⟩ := List.append_inj' split rfl
      rw [← List.singleton_inj.1 same, List.mem_append, List.mem_singleton, not_or] at kept
      exact .inr ⟨Ne.symm kept.2, before, after, split, kept.1⟩
  · rintro (rfl | ⟨other, before, after, rfl, kept⟩)
    · exact ⟨steps, [], rfl, by simp⟩
    · exact ⟨before, after ++ [step], by simp, by simp [kept, Ne.symm other]⟩

theorem covers_run (steps : List Step) (kind : CellKind) (column : Bytes) (version : UInt64) :
    (run steps).covers kind column version ↔ Hidden steps kind column version := by
  induction steps using List.reverseRecOn with
  | nil =>
    have none : ¬ Hidden [] kind column version := fun ⟨_, added, _⟩ => not_added_nil added
    exact iff_of_false (not_covers_empty kind) none
  | append_singleton steps step ih =>
    rw [run_append]
    cases step with
    | add last =>
      rw [Step.apply, covers_add, ih]
      simp [Hidden, added_append, or_and_right, exists_or, or_comm]
    | reset =>
      have none : ¬ Hidden (steps ++ [.reset]) kind column version := by
        simp [Hidden, added_append]
      exact iff_of_false (not_covers_empty kind) none

theorem isEmpty_run_iff : (run steps).isEmpty = true ↔
    ∀ cell, Added steps cell → cell.kind.isTombstone = false := by
  simp only [isEmpty_iff, covers_run]
  constructor
  · intro nothing cell added
    rw [← Bool.not_eq_true]
    exact fun tombstone => nothing _ _ _ ⟨cell, added, rfl, CellKind.covers_self tombstone⟩
  · rintro puts kind column version ⟨cell, added, rfl, covers⟩
    have tombstone := CellKind.isTombstone_of_covers covers
    rw [puts cell added] at tombstone
    cases tombstone

theorem hidden_congr
    (same : ∀ cell, cell.kind.isTombstone = true → (Added steps cell ↔ Added steps' cell))
    (column : Bytes) (version : UInt64) :
    Hidden steps kind column version ↔ Hidden steps' kind column version := by
  refine exists_congr fun cell => and_congr_left ?_
  rintro ⟨rfl, covers⟩
  exact same cell (CellKind.isTombstone_of_covers covers)

/-- The tombstones that were added since the last reset tell how a put is hidden: by one of its row,
else by one of its column, else by one of its version. Neither their order matters nor how often
they were added. -/
theorem check_run (steps : List Step) :
    (∀ put : Cell,
      ((run steps).check put.qualifier put.timestamp = .family ↔
        Hidden steps .deleteFamily put.qualifier put.timestamp)
      ∧ ((run steps).check put.qualifier put.timestamp = .column ↔
        ¬ Hidden steps .deleteFamily put.qualifier put.timestamp
          ∧ Hidden steps .deleteColumn put.qualifier put.timestamp)
      ∧ ((run steps).check put.qualifier put.timestamp = .version ↔
        ¬ Hidden steps .deleteFamily put.qualifier put.timestamp
          ∧ ¬ Hidden steps .deleteColumn put.qualifier put.timestamp
          ∧ Hidden steps .delete put.qualifier put.timestamp)
      ∧ ((run steps).check put.qualifier put.timestamp = .visible ↔
        ¬ Hidden steps .deleteFamily put.qualifier put.timestamp
          ∧ ¬ Hidden steps .deleteColumn put.qualifier put.timestamp
          ∧ ¬ Hidden steps .delete put.qualifier put.timestamp))
    ∧ ((run steps).isEmpty = true ↔ ∀ cell, Added steps cell → cell.kind.isTombstone = false)
    ∧ ∀ steps',
      (∀ cell, cell.kind.isTombstone = true → (Added steps cell ↔ Added steps' cell)) →
        (∀ put : Cell, (run steps').check put.qualifier put.timestamp =
          (run steps).check put.qualifier put.timestamp)
        ∧ (run steps').isEmpty = (run steps).isEmpty := by
  refine ⟨fun put => ?_, isEmpty_run_iff, fun steps' same => ?_⟩
  · simp only [← covers_run]
    exact check_eq_iff
  · have covered (kind : CellKind) (column : Bytes) (version : UInt64) :
        (run steps').covers kind column version ↔ (run steps).covers kind column version := by
      rw [covers_run, covers_run, hidden_congr same]
    refine ⟨fun put => check_congr fun kind => covered kind _ _, ?_⟩
    rw [Bool.eq_iff_iff, isEmpty_iff, isEmpty_iff]
    simp only [covered]

def rowMark : Cell := ⟨[97], [102], [], 9, .deleteFamily, [], none, 0⟩

def columnMark : Cell := ⟨[97], [102], [113], 5, .deleteColumn, [], none, 0⟩

def versionMark : Cell := ⟨[97], [102], [113], 7, .delete, [], none, 0⟩

theorem check_run_reordered :
    (∀ cell, cell.kind.isTombstone = true →
      (Added [.add rowMark, .reset, .add columnMark, .add versionMark] cell ↔
        Added [.add versionMark, .add columnMark, .add versionMark] cell))
    ∧ (run [.add rowMark, .reset, .add columnMark, .add versionMark]).check [113] 7 = .version
    ∧ (run [.add versionMark, .add columnMark, .add versionMark]).check [113] 7 =
      (run [.add rowMark, .reset, .add columnMark, .add versionMark]).check [113] 7 := by
  have same : ∀ cell, cell.kind.isTombstone = true →
      (Added [.add rowMark, .reset, .add columnMark, .add versionMark] cell ↔
        Added [.add versionMark, .add columnMark, .add versionMark] cell) := by
    intro cell _
    change Added ((([.add rowMark] ++ [.reset]) ++ [.add columnMark]) ++ [.add versionMark]) cell ↔
      Added ((([] ++ [.add versionMark]) ++ [.add columnMark]) ++ [.add versionMark]) cell
    simp only [added_append, not_added_nil]
    simp
    tauto
  obtain ⟨-, -, alike⟩ := check_run [.add rowMark, .reset, .add columnMark, .add versionMark]
  exact ⟨same, by decide, (alike _ same).1 ⟨[97], [102], [113], 7, .put, [], none, 0⟩⟩

end Tombstones

end CellStore
