import CellStore.Proofs.StableSort

/-! Merging lists by taking a least head each time. Whatever order the lists are in, nothing of them
is lost and each of them stays in its own order; when all of them ascend, what comes out is the
stable sort of the lists one after another. -/

open Std (TransCmp OrientedCmp ReflCmp)

namespace CellStore

/-- Always a least head is taken, of equal ones that of the first list. What is taken has the number
of its list with it. -/
inductive Merges {α : Type} (order : α → α → Ordering) : List (List α) → List (Nat × α) → Prop
  | done {lists : List (List α)} : (∀ xs ∈ lists, xs = []) → Merges order lists []
  | take {lists : List (List α)} {i : Nat} {x : α} {xs : List α} {out : List (Nat × α)} :
    lists[i]? = some (x :: xs) →
      (∀ j y ys, lists[j]? = some (y :: ys) → (order x y).then (compare i j) ≠ .gt) →
        Merges order (lists.set i xs) out → Merges order lists ((i, x) :: out)

namespace Merges

variable {α : Type} {order : α → α → Ordering} {lists : List (List α)} {out : List (Nat × α)}

theorem filter_rank (merges : Merges order lists out) (i : Nat) :
    (out.filter (·.1 = i)).map (·.2) = lists[i]?.getD [] := by
  induction merges with
  | @done lists empty =>
    cases here : lists[i]? with
    | none => rfl
    | some xs =>
      obtain rfl := empty xs (List.mem_of_getElem? here)
      rfl
  | @take lists j x xs out here least later ih =>
    have inside : j < lists.length := (List.getElem?_eq_some_iff.1 here).1
    by_cases same : j = i
    · subst same
      rw [List.getElem?_set_self inside] at ih
      rw [List.filter_cons_of_pos (by simp), List.map_cons, ih, here]
      rfl
    · rw [List.getElem?_set_ne same] at ih
      rw [List.filter_cons_of_neg (by simpa using same), ih]

theorem mem_of_mem (merges : Merges order lists out) {i : Nat} {x : α} (member : (i, x) ∈ out) :
    ∃ xs, lists[i]? = some xs ∧ x ∈ xs := by
  have kept : x ∈ (out.filter (·.1 = i)).map (·.2) :=
    List.mem_map.2 ⟨(i, x), List.mem_filter.2 ⟨member, by simp⟩, rfl⟩
  rw [merges.filter_rank] at kept
  cases here : lists[i]? with
  | none => simp [here] at kept
  | some xs =>
    rw [here] at kept
    exact ⟨xs, rfl, kept⟩

theorem exists_split {i : Nat} {x : α} {xs : List α} (here : lists[i]? = some (x :: xs)) :
    ∃ before behind, before.length = i ∧ lists = before ++ (x :: xs) :: behind
      ∧ lists.set i xs = before ++ xs :: behind := by
  obtain ⟨inside, found⟩ := List.getElem?_eq_some_iff.1 here
  have start : (lists.take i).length = i := by
    rw [List.length_take]
    omega
  refine ⟨lists.take i, lists.drop (i + 1), start, ?_, ?_⟩
  · rw [← found, ← List.drop_eq_getElem_cons, List.take_append_drop]
  · rw [List.set_eq_take_append_cons_drop, if_pos inside]

theorem perm (merges : Merges order lists out) : (out.map (·.2)).Perm lists.flatten := by
  induction merges with
  | done empty => rw [List.flatten_eq_nil_iff.2 empty, List.map_nil]
  | take here least later ih =>
    obtain ⟨before, behind, -, rfl, rest⟩ := exists_split here
    rw [rest, List.flatten_append, List.flatten_cons] at ih
    rw [List.flatten_append, List.flatten_cons]
    exact (ih.cons _).trans List.perm_middle.symm

theorem ascending_set {i : Nat} {x : α} {xs : List α} (here : lists[i]? = some (x :: xs))
    (ascending : ∀ ys ∈ lists, ys.Pairwise fun a b => order a b ≠ .gt) :
    ∀ ys ∈ lists.set i xs, ys.Pairwise fun a b => order a b ≠ .gt := by
  intro ys member
  obtain there | rfl := List.mem_or_eq_of_mem_set member
  · exact ascending ys there
  · exact (ascending _ (List.mem_of_getElem? here)).of_cons

variable [TransCmp order]

theorem head_le {i j : Nat} {x y : α} {ys : List α}
    (least : ∀ j y ys, lists[j]? = some (y :: ys) → (order x y).then (compare i j) ≠ .gt)
    (ascending : ∀ ys ∈ lists, ys.Pairwise fun a b => order a b ≠ .gt)
    (there : lists[j]? = some ys) (member : y ∈ ys) : (order x y).then (compare i j) ≠ .gt := by
  cases ys with
  | nil => cases member
  | cons z ys =>
    have below : (order x z).then (compare i j) ≠ .gt := least j z ys there
    have later : order z y ≠ .gt :=
      StableSort.head_le (ascending _ (List.mem_of_getElem? there)) member
    have ranked : TransCmp (compareLex (fun a b : Nat × α => order a.2 b.2) (compareOn (·.1))) := by
      have := transCmp_on order (Prod.snd : Nat × α → α)
      infer_instance
    have same : (order z y).then (compare j j) ≠ .gt := by
      rwa [Nat.compare_eq_eq.2 rfl, Ordering.then_eq]
    exact Ordering.ne_gt_iff_isLE.2 (ranked.isLE_trans (a := (i, x)) (b := (j, z)) (c := (j, y))
      (Ordering.ne_gt_iff_isLE.1 below) (Ordering.ne_gt_iff_isLE.1 same))

theorem ascending (merges : Merges order lists out)
    (ascending : ∀ xs ∈ lists, xs.Pairwise fun a b => order a b ≠ .gt) :
    out.Pairwise fun a b => (order a.2 b.2).then (compare a.1 b.1) ≠ .gt := by
  induction merges with
  | done empty => exact .nil
  | take here least later ih =>
    refine List.pairwise_cons.2 ⟨fun (j, y) member => ?_, ih (ascending_set here ascending)⟩
    obtain ⟨ys, there, inside⟩ :=
      (Merges.take here least later).mem_of_mem (List.mem_cons_of_mem _ member)
    exact head_le least ascending there inside

theorem filter_eq (merges : Merges order lists out)
    (ascending : ∀ xs ∈ lists, xs.Pairwise fun a b => order a b ≠ .gt) (a : α) :
    ((out.map (·.2)).filter fun b => order a b = .eq) =
      lists.flatten.filter fun b => order a b = .eq := by
  induction merges with
  | done empty => rw [List.flatten_eq_nil_iff.2 empty, List.map_nil]
  | @take lists i x xs out here least later ih =>
    have left := ih (ascending_set here ascending)
    obtain ⟨before, behind, rfl, rfl, rest⟩ := exists_split here
    rw [rest] at left
    simp only [List.flatten_append, List.flatten_cons, List.filter_append, List.map_cons,
      List.cons_append] at left ⊢
    by_cases equal : order a x = .eq
    -- A head that is equal to something in an earlier list is not least.
    · have none : (before.flatten.filter fun b => order a b = .eq) = [] := by
        refine List.filter_eq_nil_iff.2 fun y member same => ?_
        obtain ⟨ys, inside, found⟩ := List.mem_flatten.1 member
        obtain ⟨j, earlier, rfl⟩ := List.getElem_of_mem inside
        have there : (before ++ (x :: xs) :: behind)[j]? = some before[j] := by
          rw [List.getElem?_append_left earlier, List.getElem?_eq_getElem earlier]
        have tied : order x y = .eq := by
          rw [← TransCmp.congr_left equal]
          simpa using same
        have le := head_le least ascending there found
        rw [tied] at le
        exact le (Nat.compare_eq_gt.2 earlier)
      rw [none, List.nil_append] at left ⊢
      rw [List.filter_cons_of_pos (by simpa using equal),
        List.filter_cons_of_pos (by simpa using equal), left, List.filter_append]
    · rw [List.filter_cons_of_neg (by simpa using equal),
        List.filter_cons_of_neg (by simpa using equal), left, List.filter_append]

theorem stableSort (merges : Merges order lists out)
    (ascending : ∀ xs ∈ lists, xs.Pairwise fun a b => order a b ≠ .gt) :
    StableSort order lists.flatten (out.map (·.2)) where
  perm := merges.perm
  ascending := by
    rw [List.pairwise_map]
    refine (merges.ascending ascending).imp fun le gt => le ?_
    rw [gt]
    rfl
  stable := merges.filter_eq ascending

end Merges

end CellStore
