namespace CellStore

/-- What was seen, each with its count. -/
abbrev Tally (α : Type) := List (α × Nat)

namespace Tally

variable {α : Type} [DecidableEq α]

def count (a : α) (tally : Tally α) : Nat := (tally.lookup a).getD 0

def add (a : α) : Tally α → Tally α
  | [] => [(a, 1)]
  | (b, n) :: tally => if b = a then (b, n + 1) :: tally else (b, n) :: add a tally

@[simp] theorem count_nil (a : α) : count a [] = 0 := rfl

theorem count_cons (a b : α) (n : Nat) (tally : Tally α) :
    count a ((b, n) :: tally) = if b = a then n else count a tally := by
  rw [count, List.lookup_cons]
  by_cases h : b = a
  · simp [h]
  · simp [h, beq_false_of_ne (Ne.symm h), count]

theorem count_add (a b : α) (tally : Tally α) :
    count a (add b tally) = count a tally + if b = a then 1 else 0 := by
  induction tally with
  | nil => simp [add, count_cons]
  | cons entry tally ih =>
    obtain ⟨c, n⟩ := entry
    rw [add]
    split
    · rename_i same
      subst same
      simp only [count_cons]
      split <;> simp
    · rename_i differs
      simp only [count_cons, ih]
      split
      · rename_i found
        subst found
        rw [if_neg fun h => differs h.symm, Nat.add_zero]
      · rfl

end Tally

end CellStore
