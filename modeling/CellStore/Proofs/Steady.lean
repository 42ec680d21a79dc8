import CellStore.Proofs.Integer

/-! Readers that take what they need. What they make of it does not hang on the bytes that follow,
and where some of it is missing they find that the input is truncated. -/

namespace CellStore

def Truncates (result : Decoded α) : Prop :=
  ∃ what needed available, result = .error (.truncated what needed available)

theorem Truncates.bind {result : Decoded α} (short : Truncates result) (next : α → Decoded β) :
    Truncates (result >>= next) := by
  obtain ⟨what, needed, available, rfl⟩ := short
  exact ⟨what, needed, available, rfl⟩

/-- A reader takes these bytes for `a`, and nothing less. -/
structure Takes (read : Input → Decoded (α × Input)) (bytes : Bytes) (a : α) : Prop where
  reads : Reads read bytes a
  needs : ∀ part, part <+: bytes → part ≠ bytes → ∀ size offset,
    Truncates (read ⟨size, offset, part⟩)

/-- Whatever a reader gives, there are bytes that it takes for it. -/
def Steady (read : Input → Decoded (α × Input)) : Prop :=
  ∀ input a after, read input = .ok (a, after) →
    ∃ bytes, input.rest = bytes ++ after.rest ∧ Takes read bytes a

namespace Takes

variable {read : Input → Decoded (α × Input)} {next : α × Input → Decoded (β × Input)}
  {bytes more : Bytes} {a : α} {b : β}

theorem nothing (given : ∀ input, read input = .ok (a, input)) : Takes read [] a where
  reads _ _ _ := given _
  needs _ short other := absurd (List.prefix_nil.1 short) other

theorem bind (first : Takes read bytes a) (later : Takes (fun input => next (a, input)) more b) :
    Takes (fun input => read input >>= next) (bytes ++ more) b where
  reads size offset rest := by
    have second := later.reads.eq size (offset + bytes.length) rest
    simp only [List.append_assoc, first.reads.eq, ok_bind, second, List.length_append,
      Nat.add_assoc]
  needs part short other size offset := by
    obtain ⟨rest, whole⟩ := short
    -- The input ends within what the first reader takes, or else the second one finds its end.
    obtain ⟨missing, split, -⟩ | ⟨there, split, split'⟩ := List.append_eq_append_iff.1 whole
    · by_cases all : part = bytes
      · have begun := first.reads.eq size offset []
        rw [List.append_nil] at begun
        rw [all, begun, ok_bind]
        refine later.needs [] List.nil_prefix (fun same => other ?_) _ _
        rw [all, ← same, List.append_nil]
      · exact (first.needs part ⟨missing, split.symm⟩ all size offset).bind next
    · rw [split, first.reads.eq, ok_bind]
      refine later.needs there ⟨rest, split'.symm⟩ (fun same => other ?_) _ _
      rw [split, same]

theorem cons {read next : Input → Decoded (α × Input)} {first : UInt8}
    (begins : ∀ size offset rest,
      read ⟨size, offset, first :: rest⟩ = next ⟨size, offset + 1, rest⟩)
    (needed : ∀ size offset, Truncates (read ⟨size, offset, []⟩)) (later : Takes next bytes a) :
    Takes read (first :: bytes) a where
  reads size offset rest := by
    rw [List.cons_append, begins, later.reads.eq, List.length_cons, Nat.add_assoc, Nat.add_comm 1]
  needs part short other size offset := by
    cases part with
    | nil => exact needed size offset
    | cons b part =>
      obtain ⟨rfl, fewer⟩ := List.cons_prefix_cons.1 short
      rw [begins]
      exact later.needs part fewer (fun same => other (by rw [same])) size (offset + 1)

end Takes

namespace Steady

variable {read read' : Input → Decoded (α × Input)} {next : α × Input → Decoded (β × Input)}

theorem ok (a : α) : Steady fun input => .ok (a, input) := by
  intro input _ after given
  cases given
  exact ⟨[], rfl, .nothing fun _ => rfl⟩

theorem error (e : FormatError) : Steady fun _ => (.error e : Decoded (α × Input)) := by
  intro input a after given
  cases given

theorem bind (first : Steady read) (later : ∀ a, Steady fun input => next (a, input)) :
    Steady fun input => read input >>= next := by
  intro input b after made
  obtain ⟨⟨a, middle⟩, begun, ended⟩ := exists_of_bind made
  obtain ⟨bytes, rest, takes⟩ := first input a middle begun
  obtain ⟨more, rest', takes'⟩ := later a middle b after ended
  exact ⟨bytes ++ more, by rw [rest, rest', List.append_assoc], takes.bind takes'⟩

theorem ite {c : Prop} {known : Decidable c} (yes : Steady read) (no : Steady read') :
    Steady fun input => if c then read input else read' input := by
  by_cases holds : c
  · simpa only [holds, if_true] using yes
  · simpa only [holds, if_false] using no

end Steady

namespace Input

theorem takes_take {bytes : Bytes} {n : Nat} (length : bytes.length = n) (what : String) :
    Takes (·.take what n) bytes bytes where
  reads := reads_take bytes what length
  needs part short other size offset := by
    have fewer : part.length < n :=
      Nat.lt_of_le_of_ne (length ▸ short.length_le)
        fun same => other (short.eq_of_length (same.trans length.symm))
    have few : ¬ (part.take n).length = n := by
      rw [List.length_take]
      omega
    exact ⟨what, offset + n, size, if_neg few⟩

theorem steady_take (what : String) (n : Nat) : Steady (·.take what n) := by
  intro input bytes after made
  obtain ⟨length, rest, -, -⟩ := take_eq_ok_iff.1 made
  exact ⟨bytes, rest, takes_take length what⟩

end Input

namespace Septets

theorem takes_of_readGroups {start left weight sum n : Nat} {input after : Input}
    (made : readGroups start left weight sum input = .ok (n, after)) :
    ∃ bytes, input.rest = bytes ++ after.rest ∧ n < 0x1_0000_0000
      ∧ ∀ start, Takes (readGroups start left weight sum) bytes n := by
  induction left generalizing weight sum input with
  | zero => cases made
  | succ left ih =>
    obtain ⟨size, offset, rest⟩ := input
    cases rest with
    | nil => cases made
    | cons group rest =>
      simp only [readGroups] at made
      by_cases last : group.toNat < 128
      · rw [if_pos last] at made
        split at made
        · rename_i small
          cases made
          have ends : Takes (fun input => .ok (sum + group.toNat % 128 * weight, input)) []
              (sum + group.toNat % 128 * weight) := .nothing fun _ => rfl
          refine ⟨[group], rfl, small, fun start => ?_⟩
          refine .cons (fun size offset rest => ?_) (fun _ _ => ⟨_, _, _, rfl⟩) ends
          simp only [readGroups, last, small, if_true, Input.skip, List.drop_succ_cons,
            List.drop_zero]
        · cases made
      · rw [if_neg last] at made
        obtain ⟨bytes, split, small, takes⟩ := ih made
        refine ⟨group :: bytes, congrArg (group :: ·) split, small, fun start => ?_⟩
        refine .cons (fun size offset rest => ?_) (fun _ _ => ⟨_, _, _, rfl⟩) (takes start)
        simp only [readGroups, if_neg last, Input.skip, List.drop_succ_cons, List.drop_zero]

variable {n : Nat} {input after : Input}

theorem takes_of_read (made : read input = .ok (n, after)) :
    ∃ bytes, input.rest = bytes ++ after.rest ∧ n < 0x1_0000_0000 ∧ Takes read bytes n := by
  obtain ⟨bytes, split, small, takes⟩ := takes_of_readGroups made
  exact ⟨bytes, split, small, fun size offset => (takes offset).reads size offset,
    fun part short other size offset => (takes offset).needs part short other size offset⟩

theorem lt_of_read (made : read input = .ok (n, after)) : n < 0x1_0000_0000 := by
  obtain ⟨-, -, small, -⟩ := takes_of_read made
  exact small

theorem steady_read : Steady read := by
  intro input n after made
  obtain ⟨bytes, split, -, takes⟩ := takes_of_read made
  exact ⟨bytes, split, takes⟩

end Septets

namespace VarLong

theorem size_pos (first : UInt8) : 1 ≤ size first := by
  have bound := first.toNat_lt
  simp only [size]
  split
  · exact Nat.le_refl 1
  · split <;> omega

theorem takes_of_read {n : Int64} {input after : Input} (made : read input = .ok (n, after)) :
    ∃ first more, input.rest = first :: more ++ after.rest ∧ size first = more.length + 1
      ∧ Takes read (first :: more) n := by
  obtain ⟨whole, offset, rest⟩ := input
  cases rest with
  | nil => cases made
  | cons first rest =>
    obtain ⟨⟨more, atEnd⟩, taken, given⟩ := exists_of_bind made
    obtain ⟨rfl, rfl⟩ : _ ∧ atEnd = after := Prod.mk.inj (Except.ok.inj given)
    obtain ⟨length, split, -, -⟩ := Input.take_eq_ok_iff.1 taken
    have positive := size_pos first
    have ends : Takes (fun input => .ok (value first more, input)) [] (value first more) :=
      .nothing fun _ => rfl
    have magnitude : Takes (fun input => input.take "vint" (size first - 1) >>= fun taken =>
        .ok (value first taken.1, taken.2)) (more ++ []) (value first more) :=
      (Input.takes_take length "vint").bind ends
    rw [List.append_nil] at magnitude
    refine ⟨first, more, congrArg (first :: ·) split, by omega, ?_⟩
    exact .cons (fun _ _ _ => rfl) (fun _ _ => ⟨_, _, _, rfl⟩) magnitude

theorem steady_read : Steady read := by
  intro input n after made
  obtain ⟨first, more, split, -, takes⟩ := takes_of_read made
  exact ⟨first :: more, split, takes⟩

end VarLong

end CellStore
