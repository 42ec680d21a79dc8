import CellStore.Pieces
import Mathlib.Data.List.Forall2
import Mathlib.Tactic.Common

namespace CellStore

theorem piecesUpTo_cons (size fuel : Nat) (x : α) (xs : List α) :
    piecesUpTo size (fuel + 1) (x :: xs) =
      (x :: xs).take size :: piecesUpTo size fuel ((x :: xs).drop size) := rfl

theorem length_drop_cons_le {size : Nat} (pos : 0 < size) (x : α) (xs : List α) :
    ((x :: xs).drop size).length ≤ xs.length := by
  simp only [List.length_drop, List.length_cons]
  omega

theorem piecesUpTo_congr {size fuel fuel' : Nat} (pos : 0 < size) {xs : List α}
    (enough : xs.length ≤ fuel) (enough' : xs.length ≤ fuel') :
    piecesUpTo size fuel xs = piecesUpTo size fuel' xs := by
  induction fuel generalizing fuel' xs with
  | zero =>
    obtain rfl : xs = [] := List.length_eq_zero_iff.1 (by omega)
    cases fuel' <;> rfl
  | succ fuel ih =>
    cases xs with
    | nil => cases fuel' <;> rfl
    | cons x xs =>
      have shorter := length_drop_cons_le pos x xs
      rw [List.length_cons] at enough enough'
      cases fuel' with
      | zero => omega
      | succ fuel' =>
        have rest : piecesUpTo size fuel ((x :: xs).drop size) =
            piecesUpTo size fuel' ((x :: xs).drop size) := ih (by omega) (by omega)
        rw [piecesUpTo_cons, piecesUpTo_cons, rest]

theorem pieces_of_ne_nil {size : Nat} (pos : 0 < size) {xs : List α} (nonempty : xs ≠ []) :
    pieces size xs = xs.take size :: pieces size (xs.drop size) := by
  cases xs with
  | nil => exact (nonempty rfl).elim
  | cons x xs =>
    rw [pieces, pieces, List.length_cons, piecesUpTo_cons,
      piecesUpTo_congr pos (length_drop_cons_le pos x xs) (Nat.le_refl _)]

theorem pieces_of_length_le {size : Nat} {xs : List α} (nonempty : xs ≠ [])
    (short : xs.length ≤ size) : pieces size xs = [xs] := by
  have pos : 0 < size := Nat.lt_of_lt_of_le (List.length_pos_iff.2 nonempty) short
  rw [pieces_of_ne_nil pos nonempty, List.take_of_length_le short, List.drop_of_length_le short]
  rfl

@[elab_as_elim]
theorem pieces_induction {size : Nat} (pos : 0 < size) {motive : List α → Prop} (nil : motive [])
    (piece : ∀ xs, xs ≠ [] → motive (xs.drop size) → motive xs) (xs : List α) : motive xs := by
  induction length : xs.length using Nat.strongRecOn generalizing xs with
  | ind n ih =>
    subst length
    by_cases empty : xs = []
    · exact empty ▸ nil
    · have filled := List.length_pos_iff.2 empty
      have shorter : (xs.drop size).length < xs.length := by
        rw [List.length_drop]
        omega
      exact piece xs empty (ih _ shorter _ rfl)

theorem length_pieces {size : Nat} (pos : 0 < size) (xs : List α) :
    (pieces size xs).length = (xs.length + size - 1) / size := by
  induction xs using pieces_induction pos with
  | nil => exact (Nat.div_eq_of_lt (by simp; omega)).symm
  | piece xs nonempty ih =>
    have filled := List.length_pos_iff.2 nonempty
    rw [pieces_of_ne_nil pos nonempty, List.length_cons, ih, List.length_drop]
    by_cases one : xs.length ≤ size
    · rw [Nat.sub_eq_zero_of_le one, Nat.zero_add, Nat.div_eq_of_lt (by omega)]
      exact (Nat.div_eq_of_lt_le (by omega) (by omega)).symm
    · rw [← Nat.add_div_right _ pos]
      congr 1
      omega

theorem ne_nil_of_mem_pieces {size : Nat} (pos : 0 < size) {xs piece : List α}
    (member : piece ∈ pieces size xs) : piece ≠ [] := by
  induction xs using pieces_induction pos with
  | nil => cases member
  | piece xs nonempty ih =>
    rw [pieces_of_ne_nil pos nonempty] at member
    rcases List.mem_cons.1 member with rfl | later
    · simp [nonempty]
      omega
    · exact ih later

theorem length_le_of_mem_pieces {size : Nat} (pos : 0 < size) {xs piece : List α}
    (member : piece ∈ pieces size xs) : piece.length ≤ size := by
  induction xs using pieces_induction pos with
  | nil => cases member
  | piece xs nonempty ih =>
    rw [pieces_of_ne_nil pos nonempty] at member
    rcases List.mem_cons.1 member with rfl | later
    · exact List.length_take_le size xs
    · exact ih later

theorem getElem?_pieces {size : Nat} (pos : 0 < size) (xs : List α) (i : Nat) :
    (pieces size xs)[i]? =
      if i * size < xs.length then some ((xs.drop (i * size)).take size) else none := by
  induction xs using pieces_induction pos generalizing i with
  | nil => rfl
  | piece xs nonempty ih =>
    rw [pieces_of_ne_nil pos nonempty]
    cases i with
    | zero => simp [List.length_pos_iff.2 nonempty]
    | succ i =>
      have inside : i * size < (xs.drop size).length ↔ (i + 1) * size < xs.length := by
        rw [List.length_drop, Nat.succ_mul]
        omega
      have there : size + i * size = (i + 1) * size := by rw [Nat.succ_mul, Nat.add_comm]
      simp only [List.getElem?_cons_succ, ih, inside, List.drop_drop, there]

theorem exists_piece {size i : Nat} (pos : 0 < size) {xs : List α} (inside : i < xs.length) :
    ∃ piece, (pieces size xs)[i / size]? = some piece ∧ piece[i % size]? = xs[i]? := by
  induction xs using pieces_induction pos generalizing i with
  | nil => simp at inside
  | piece xs nonempty ih =>
    rw [pieces_of_ne_nil pos nonempty]
    by_cases first : i < size
    · rw [Nat.div_eq_of_lt first, Nat.mod_eq_of_lt first]
      exact ⟨_, rfl, List.getElem?_take_of_lt first⟩
    · have later := Nat.le_of_not_lt first
      have inLater : i - size < (xs.drop size).length := by
        rw [List.length_drop]
        omega
      obtain ⟨piece, here, there⟩ := ih inLater
      rw [List.getElem?_drop, Nat.add_sub_cancel' later] at there
      rw [Nat.div_eq_sub_div pos later, List.getElem?_cons_succ, Nat.mod_eq_sub_mod later]
      exact ⟨piece, here, there⟩

theorem piecesUpTo_forall₂ {R : α → β → Prop} (size fuel : Nat) {xs : List α} {ys : List β}
    (each : List.Forall₂ R xs ys) :
    List.Forall₂ (List.Forall₂ R) (piecesUpTo size fuel xs) (piecesUpTo size fuel ys) := by
  induction fuel generalizing xs ys with
  | zero => exact .nil
  | succ fuel ih =>
    cases each with
    | nil => exact .nil
    | cons first later =>
      have whole := List.Forall₂.cons first later
      exact .cons (List.forall₂_take size whole) (ih (List.forall₂_drop size whole))

theorem pieces_forall₂ {R : α → β → Prop} (size : Nat) {xs : List α} {ys : List β}
    (each : List.Forall₂ R xs ys) :
    List.Forall₂ (List.Forall₂ R) (pieces size xs) (pieces size ys) := by
  rw [pieces, pieces, each.length_eq]
  exact piecesUpTo_forall₂ size _ each

end CellStore
