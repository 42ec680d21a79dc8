import CellStore.Proofs.KeyOrder
import Mathlib.Data.List.Sort

/-! Stable sorts. What comes out is in order, and what is equal stays in the order in which it was
given, so that there is one way to sort a list. -/

open Std (TransCmp OrientedCmp ReflCmp)

namespace CellStore

section Order

variable {α : Type} (order : α → α → Ordering) [TransCmp order]

instance isTrans_ne_gt : IsTrans α fun a b => order a b ≠ .gt where
  trans _ _ _ below above :=
    Ordering.ne_gt_iff_isLE.2
      (TransCmp.isLE_trans (Ordering.ne_gt_iff_isLE.1 below) (Ordering.ne_gt_iff_isLE.1 above))

instance total_ne_gt : Std.Total fun a b => order a b ≠ .gt where
  total a b := by
    rw [(OrientedCmp.eq_swap : order a b = (order b a).swap)]
    cases order b a <;> decide

end Order

structure StableSort {α : Type} (order : α → α → Ordering) (given sorted : List α) : Prop where
  perm : sorted.Perm given
  ascending : sorted.Pairwise fun a b => order a b ≠ .gt
  stable : ∀ a, (sorted.filter fun b => order a b = .eq) = given.filter fun b => order a b = .eq

namespace StableSort

variable {α : Type} {order : α → α → Ordering}

/-- What is in order already is kept, so also the members that are equal to one. -/
theorem of_keeps [TransCmp order] {given sorted : List α} (perm : sorted.Perm given)
    (ascending : sorted.Pairwise fun a b => order a b ≠ .gt)
    (keeps : ∀ kept : List α, (kept.Pairwise fun a b => order a b ≠ .gt) → kept.Sublist given →
      kept.Sublist sorted) : StableSort order given sorted where
  perm := perm
  ascending := ascending
  stable a := by
    have equal : (given.filter fun b => order a b = .eq).Pairwise fun b c => order b c ≠ .gt := by
      refine List.pairwise_of_forall_mem_list fun b here c there => ?_
      have left : order a b = .eq := by simpa using (List.mem_filter.1 here).2
      have right : order a c = .eq := by simpa using (List.mem_filter.1 there).2
      rw [TransCmp.congr_left (OrientedCmp.eq_symm left), right]
      decide
    have kept := (keeps _ equal List.filter_sublist).filter fun b => order a b = .eq
    rw [List.filter_filter] at kept
    simp only [Bool.and_self] at kept
    exact (kept.eq_of_length (perm.filter _).length_eq.symm).symm

theorem mergeSort [TransCmp order] (given : List α) :
    StableSort order given (given.mergeSort fun a b => (order a b).isLE) := by
  have total (a b : α) : ((order a b).isLE || (order b a).isLE) = true := by
    rw [(OrientedCmp.eq_swap : order a b = (order b a).swap)]
    cases order b a <;> rfl
  have trans (a b c : α) (below : (order a b).isLE) (above : (order b c).isLE) :
      (order a c).isLE := TransCmp.isLE_trans below above
  refine .of_keeps (List.mergeSort_perm ..) ?_ fun kept ascending part => ?_
  · exact (List.pairwise_mergeSort trans total given).imp Ordering.ne_gt_iff_isLE.2
  · exact List.sublist_mergeSort trans total (ascending.imp Ordering.ne_gt_iff_isLE.1) part

theorem insertionSort [TransCmp order] (given : List α) :
    StableSort order given (given.insertionSort fun a b => order a b ≠ .gt) :=
  .of_keeps (List.perm_insertionSort ..) (List.pairwise_insertionSort ..)
    fun _ ascending part => List.sublist_insertionSort ascending part

theorem head_le [TransCmp order] {x y : α} {xs : List α}
    (ascending : (x :: xs).Pairwise fun a b => order a b ≠ .gt) (member : y ∈ x :: xs) :
    order x y ≠ .gt := by
  cases member with
  | head => simp [ReflCmp.compare_self]
  | tail _ later => exact List.rel_of_pairwise_cons ascending later

theorem mem_iff_of_filter_eq [TransCmp order] {xs ys : List α}
    (same : ∀ a, (xs.filter fun b => order a b = .eq) = ys.filter fun b => order a b = .eq)
    (a : α) : a ∈ xs ↔ a ∈ ys := by
  have here (zs : List α) : a ∈ zs ↔ a ∈ zs.filter fun b => order a b = .eq := by
    simp [ReflCmp.compare_self]
  rw [here xs, same, ← here ys]

theorem eq_of_filter_eq [TransCmp order] {xs ys : List α}
    (ascending : xs.Pairwise fun a b => order a b ≠ .gt)
    (ascending' : ys.Pairwise fun a b => order a b ≠ .gt)
    (same : ∀ a, (xs.filter fun b => order a b = .eq) = ys.filter fun b => order a b = .eq) :
    xs = ys := by
  induction xs generalizing ys with
  | nil =>
    refine (List.eq_nil_iff_forall_not_mem.2 fun a found => ?_).symm
    simpa using (mem_iff_of_filter_eq same a).2 found
  | cons x xs ih =>
    cases ys with
    | nil => simpa using (mem_iff_of_filter_eq same x).1 List.mem_cons_self
    | cons y ys =>
      -- The heads are equal in order, so each is the first of those that are equal to it.
      have below := head_le ascending ((mem_iff_of_filter_eq same y).2 List.mem_cons_self)
      have above := head_le ascending' ((mem_iff_of_filter_eq same x).1 List.mem_cons_self)
      have equal : order x y = .eq := by
        rw [(OrientedCmp.eq_swap : order y x = (order x y).swap)] at above
        cases found : order x y with
        | eq => rfl
        | lt => simp [found] at above
        | gt => exact (below found).elim
      have heads := same x
      simp only [List.filter_cons, ReflCmp.compare_self, equal, decide_true, if_true] at heads
      obtain rfl : x = y := (List.cons.inj heads).1
      have tails (a : α) : (xs.filter fun b => order a b = .eq) =
          ys.filter fun b => order a b = .eq := by
        have both := same a
        simp only [List.filter_cons] at both
        split at both
        · exact (List.cons.inj both).2
        · exact both
      rw [ih ascending.of_cons ascending'.of_cons tails]

theorem unique [TransCmp order] {given xs ys : List α} (first : StableSort order given xs)
    (second : StableSort order given ys) : xs = ys :=
  eq_of_filter_eq first.ascending second.ascending fun a =>
    (first.stable a).trans (second.stable a).symm

end StableSort

namespace Mutation

theorem stableSort_sort (ms : List Mutation) : StableSort Mutation.order ms (sort ms) :=
  .mergeSort ms

theorem rows_of_order {a b : Mutation} (le : a.order b ≠ .gt) : compare a.row b.row ≠ .gt := by
  intro gt
  apply le
  change (compare a.row b.row).then _ = .gt
  rw [gt]
  rfl

end Mutation

end CellStore
