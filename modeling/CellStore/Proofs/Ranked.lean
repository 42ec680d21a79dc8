import CellStore.Proofs.StableSort
import CellStore.Region.Shown

open Std (TransCmp)

namespace CellStore

namespace Ranked

instance : TransCmp Ranked.order := by
  have mutations := transCmp_on Mutation.order Ranked.mutation
  change TransCmp (compareLex (fun a b => a.mutation.order b.mutation) (compareOn rank))
  infer_instance

theorem rank_eq_of_order_eq {a b : Ranked} (same : a.order b = .eq) : a.rank = b.rank := by
  rw [order, Ordering.then_eq_eq] at same
  exact Std.compare_eq_iff_eq.1 same.2

theorem order_same_rank (rank : Nat) (a b : Mutation) :
    Ranked.order ⟨rank, a⟩ ⟨rank, b⟩ = a.order b := by
  have same : compare rank rank = .eq := Std.ReflCmp.compare_self
  rw [order, same, Ordering.then_eq]

theorem mem_sorted {files : List (List Mutation)} {m : Mutation} (member : m ∈ sorted files) :
    ∃ ms ∈ files, m ∈ ms := by
  obtain ⟨x, inside, rfl⟩ := List.mem_map.1 member
  obtain ⟨⟨ms, rank⟩, here, there⟩ := List.mem_flatMap.1 (List.mem_mergeSort.1 inside)
  obtain ⟨m, listed, rfl⟩ := List.mem_map.1 there
  exact ⟨ms, List.fst_mem_of_mem_zipIdx here, listed⟩

theorem order_of_ranked {a b : Ranked} (le : a.order b ≠ .gt) :
    a.mutation.order b.mutation ≠ .gt := by
  intro gt
  apply le
  rw [order, gt]
  rfl

theorem rank_of_mem_zipIdx {files : List (List Mutation)} {start : Nat} {x : Ranked}
    (member : x ∈ (files.zipIdx start).flatMap fun (ms, rank) => ms.map fun m => ⟨rank, m⟩) :
    start ≤ x.rank := by
  obtain ⟨⟨ms, rank⟩, here, inside⟩ := List.mem_flatMap.1 member
  obtain ⟨m, -, rfl⟩ := List.mem_map.1 inside
  exact (List.mem_zipIdx here).1

theorem filter_zipIdx (files : List (List Mutation)) (start rank : Nat) :
    (((files.zipIdx start).flatMap fun (ms, rank) => ms.map fun m => (⟨rank, m⟩ : Ranked)).filter
        fun x => x.rank = start + rank) =
      (files[rank]?.getD []).map fun m => ⟨start + rank, m⟩ := by
  induction files generalizing start rank with
  | nil => rfl
  | cons ms files ih =>
    rw [List.zipIdx_cons, List.flatMap_cons, List.filter_append]
    cases rank with
    | zero =>
      have here : ((ms.map fun m => (⟨start, m⟩ : Ranked)).filter fun x => x.rank = start) =
          ms.map fun m => ⟨start, m⟩ := by
        simp
      have later : (((files.zipIdx (start + 1)).flatMap fun (ms, rank) =>
          ms.map fun m => (⟨rank, m⟩ : Ranked)).filter fun x => x.rank = start) = [] := by
        rw [List.filter_eq_nil_iff]
        intro x member
        have := rank_of_mem_zipIdx member
        simp
        omega
      rw [Nat.add_zero, here, later]
      simp
    | succ rank =>
      have here : ((ms.map fun m => (⟨start, m⟩ : Ranked)).filter
          fun x => x.rank = start + (rank + 1)) = [] := by
        simp
      have later := ih (start + 1) rank
      rw [Nat.add_assoc, Nat.add_comm 1] at later
      rw [here, later, List.nil_append, List.getElem?_cons_succ]

theorem filter_ofFiles (files : List (List Mutation)) (rank : Nat) :
    ((ofFiles files).filter fun x => x.rank = rank) =
      (files[rank]?.getD []).map fun m => ⟨rank, m⟩ := by
  have found := filter_zipIdx files 0 rank
  rwa [Nat.zero_add] at found

theorem filter_order (xs : List Ranked) (a : Ranked) :
    (xs.filter fun x => a.order x = .eq) =
      (xs.filter fun x => x.rank = a.rank).filter fun x => a.order x = .eq := by
  rw [List.filter_filter]
  refine List.filter_congr fun x _ => ?_
  by_cases same : a.order x = .eq
  · simp [same, (rank_eq_of_order_eq same).symm]
  · simp [same]

theorem filter_order_map (ms : List Mutation) (a : Ranked) :
    ((ms.map fun m => ⟨a.rank, m⟩).filter fun x => a.order x = .eq) =
      (ms.filter fun m => a.mutation.order m = .eq).map fun m => (⟨a.rank, m⟩ : Ranked) := by
  rw [List.filter_map]
  congr 1
  refine List.filter_congr fun m _ => ?_
  exact congrArg (fun order => decide (order = .eq)) (order_same_rank a.rank a.mutation m)

theorem filter_comm {α : Type} (p q : α → Bool) (xs : List α) :
    (xs.filter p).filter q = (xs.filter q).filter p := by
  rw [List.filter_filter, List.filter_filter]
  exact List.filter_congr fun x _ => Bool.and_comm ..

theorem merged_eq_sorted {files : List (List Mutation)} {keeps : Mutation → Bool}
    {merged : List Ranked} (ascending : merged.Pairwise fun a b => a.order b ≠ .gt)
    (each : ∀ rank, (merged.filter fun x => x.rank = rank) =
      ((Mutation.sort (files[rank]?.getD [])).filter keeps).map fun m => ⟨rank, m⟩) :
    merged.map (·.mutation) = (sorted files).filter keeps := by
  have sorts : StableSort Ranked.order (ofFiles files) _ := .mergeSort _
  have same : merged = ((ofFiles files).mergeSort fun a b => (a.order b).isLE).filter
      fun x => keeps x.mutation := by
    refine StableSort.eq_of_filter_eq ascending (sorts.ascending.filter _) fun a => ?_
    have file := (Mutation.stableSort_sort (files[a.rank]?.getD [])).stable a.mutation
    rw [filter_order merged, each, filter_order_map, filter_comm, file,
      filter_comm _ fun x => a.order x = .eq, sorts.stable, filter_order, filter_ofFiles,
      filter_order_map, List.filter_map]
    rfl
  rw [same, sorted, List.filter_map]
  rfl

theorem map_mutation_ofFiles (files : List (List Mutation)) :
    (ofFiles files).map (·.mutation) = files.flatten := by
  have counted (start : Nat) : ((files.zipIdx start).flatMap fun file =>
      file.1.map fun m => (⟨file.2, m⟩ : Ranked)).map (·.mutation) = files.flatten := by
    induction files generalizing start with
    | nil => rfl
    | cons ms files ih =>
      rw [List.zipIdx_cons, List.flatMap_cons, List.map_append, ih, List.flatten_cons, List.map_map]
      simp [Function.comp_def]
  exact counted 0

theorem ranks_ofFiles (files : List (List Mutation)) :
    (ofFiles files).Pairwise fun a b => a.rank ≤ b.rank := by
  have counted (start : Nat) : ((files.zipIdx start).flatMap fun file =>
      file.1.map fun m => (⟨file.2, m⟩ : Ranked)).Pairwise fun a b => a.rank ≤ b.rank := by
    induction files generalizing start with
    | nil => exact .nil
    | cons ms files ih =>
      rw [List.zipIdx_cons, List.flatMap_cons]
      refine List.pairwise_append.2 ⟨?_, ih (start + 1), fun a here b there => ?_⟩
      · rw [List.pairwise_map]
        exact List.pairwise_of_forall (by simp)
      · obtain ⟨m, -, rfl⟩ := List.mem_map.1 here
        exact Nat.le_of_succ_le (rank_of_mem_zipIdx there)
  exact counted 0

theorem stableSort_sorted (files : List (List Mutation)) :
    StableSort Mutation.order files.flatten (sorted files) := by
  have sorts : StableSort Ranked.order (ofFiles files) _ := .mergeSort _
  refine ⟨?_, ?_, fun m => ?_⟩
  · rw [← map_mutation_ofFiles]
    exact sorts.perm.map _
  · rw [sorted, List.pairwise_map]
    exact sorts.ascending.imp order_of_ranked
  · rw [← map_mutation_ofFiles, sorted, List.filter_map, List.filter_map]
    congr 1
    -- Among equal mutations the order of ranks is all that is left, and files come in that order.
    refine StableSort.eq_of_filter_eq (sorts.ascending.filter _) ?_ fun x => ?_
    · refine ((ranks_ofFiles files).filter _).imp_of_mem fun {a b} here there le => ?_
      have left : m.order a.mutation = .eq := by simpa using (List.mem_filter.1 here).2
      have right : m.order b.mutation = .eq := by simpa using (List.mem_filter.1 there).2
      have same : a.mutation.order b.mutation = .eq := by
        rw [← TransCmp.congr_left left]
        exact right
      rw [order, same]
      exact Nat.compare_ne_gt.2 le
    · rw [filter_comm, sorts.stable, filter_comm]

/-- How mutations are split over files does not matter for their one order. -/
theorem sorted_flatten (files : List (List Mutation)) : sorted [files.flatten] = sorted files := by
  have whole := stableSort_sorted [files.flatten]
  rw [List.flatten_singleton] at whole
  exact whole.unique (stableSort_sorted files)

end Ranked

end CellStore
