namespace CellStore

def piecesUpTo (size : Nat) : (fuel : Nat) → List α → List (List α)
  | 0, _ => []
  | _, [] => []
  | fuel + 1, xs => xs.take size :: piecesUpTo size fuel (xs.drop size)

/-- Consecutive pieces of `size` elements, the last one possibly shorter. There are never more
pieces than elements. -/
def pieces (size : Nat) (xs : List α) : List (List α) := piecesUpTo size xs.length xs

theorem flatten_piecesUpTo {size : Nat} (pos : 0 < size) {fuel : Nat} {xs : List α}
    (enough : xs.length ≤ fuel) : (piecesUpTo size fuel xs).flatten = xs := by
  induction fuel generalizing xs with
  | zero => simp_all [piecesUpTo]
  | succ fuel ih =>
    cases xs with
    | nil => rfl
    | cons x xs =>
      rw [piecesUpTo, List.flatten_cons, ih, List.take_append_drop]
      · simp only [List.length_drop, List.length_cons] at enough ⊢
        omega
      · simp

theorem flatten_pieces {size : Nat} (pos : 0 < size) (xs : List α) :
    (pieces size xs).flatten = xs := flatten_piecesUpTo pos (Nat.le_refl _)

end CellStore
