import CellStore.Error

namespace CellStore

structure Input where
  size : Nat
  offset : Nat
  rest : Bytes

namespace Input

def ofBytes (bytes : Bytes) : Input := ⟨bytes.length, 0, bytes⟩

def startingAt (bytes : Bytes) (offset : Nat) : Input :=
  ⟨bytes.length, offset, bytes.drop offset⟩

def skip (input : Input) (n : Nat) : Input :=
  { input with offset := input.offset + n, rest := input.rest.drop n }

/-- The next `n` bytes; `what` names them when the buffer ends before. -/
def take (input : Input) (what : String) (n : Nat) : Decoded (Bytes × Input) :=
  let taken := input.rest.take n
  if taken.length = n then .ok (taken, input.skip n)
  else .error (.truncated what (input.offset + n) input.size)

def number (input : Input) (what : String) (width : Nat) : Decoded (Nat × Input) := do
  let (bytes, input) ← input.take what width
  return (Bytes.toNat bytes, input)

theorem take_eq_ok_iff {input after : Input} {what : String} {n : Nat} {taken : Bytes} :
    input.take what n = .ok (taken, after) ↔
      taken.length = n ∧ input.rest = taken ++ after.rest ∧ after.size = input.size
        ∧ after.offset = input.offset + n := by
  rcases after with ⟨size, offset, rest⟩
  simp only [take, skip]
  constructor
  · intro h
    split at h
    · rename_i enough
      simp only [Except.ok.injEq, Prod.mk.injEq, Input.mk.injEq] at h
      obtain ⟨rfl, rfl, rfl, rfl⟩ := h
      simp [enough]
    · simp at h
  · rintro ⟨rfl, whole, rfl, rfl⟩
    simp [whole]

theorem length_of_take {input after : Input} {what : String} {n : Nat} {taken : Bytes}
    (read : input.take what n = .ok (taken, after)) :
    after.rest.length + n = input.rest.length := by
  obtain ⟨rfl, whole, -⟩ := take_eq_ok_iff.1 read
  rw [whole, List.length_append, Nat.add_comm]

theorem length_of_number {input after : Input} {what : String} {width n : Nat}
    (read : input.number what width = .ok (n, after)) :
    after.rest.length + width = input.rest.length := by
  rw [number] at read
  cases taken : input.take what width with
  | error e =>
    rw [taken] at read
    cases read
  | ok result =>
    rw [taken] at read
    cases read
    exact length_of_take taken

end Input

end CellStore
