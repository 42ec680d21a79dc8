import CellStore.Proofs.Index

namespace CellStore

/-- A list is cut at the last item that `keeps` holds of, or at its first one when there is none. -/
structure LastKept {α : Type} (keeps : α → Bool) (before : List α) (last : α) (after : List α) :
    Prop where
  kept : before = [] ∨ keeps last = true
  rest : ∀ x ∈ after, keeps x = false

namespace LastKept

variable {α : Type} {keeps : α → Bool} {xs before after : List α} {last : α}

theorem exists_of_down (down : xs.Pairwise fun a b => keeps b = true → keeps a = true)
    (nonempty : xs ≠ []) : ∃ before last after, xs = before ++ last :: after
      ∧ LastKept keeps before last after := by
  induction xs with
  | nil => exact (nonempty rfl).elim
  | cons x xs ih =>
    obtain ⟨first, later⟩ := List.pairwise_cons.1 down
    by_cases more : ∃ y ∈ xs, keeps y = true
    · obtain ⟨y, member, here⟩ := more
      obtain ⟨before, last, after, rfl, found⟩ := ih later (List.ne_nil_of_mem member)
      refine ⟨x :: before, last, after, rfl, .inr ?_, found.rest⟩
      -- Only when nothing is passed over can the last one fail to be kept, and then none is.
      obtain rfl | kept := found.kept
      · obtain rfl | later := List.mem_cons.1 member
        · exact here
        · exact absurd here (by simp [found.rest y later])
      · exact kept
    · refine ⟨[], x, xs, rfl, .inl rfl, fun y member => ?_⟩
      rw [← Bool.not_eq_true]
      exact fun here => more ⟨y, member, here⟩

end LastKept

namespace Index

variable {keeps : IndexEntry → Bool} {entries before after : List IndexEntry} {last : IndexEntry}

/-- Halving keeps the last kept entry between `base` and `base + size`. -/
theorem lastKept_eq {array : Array IndexEntry} {kept fuel base size : Nat}
    (first : ∀ i, (array[i]?).any keeps = decide (i < kept)) (low : base = 0 ∨ base < kept)
    (high : kept ≤ base + size) (enough : size ≤ fuel + 1) :
    lastKept keeps array fuel base size = kept - 1 := by
  induction fuel generalizing base size with
  | zero =>
    rw [lastKept]
    omega
  | succ fuel ih =>
    by_cases single : size ≤ 1
    · rw [lastKept, if_pos single]
      omega
    · by_cases upper : base + size / 2 < kept
      · simp only [lastKept, single, first, upper, decide_true, if_true, if_false]
        exact ih (.inr upper) (by omega) (by omega)
      · simp only [lastKept, single, first, upper, decide_false, Bool.false_eq_true, if_false]
        exact ih low (by omega) (by omega)

theorem any_keeps_eq (passed : ∀ entry ∈ before, keeps entry = true) (here : keeps last = true)
    (rest : ∀ entry ∈ after, keeps entry = false) (i : Nat) :
    ((before ++ last :: after)[i]?).any keeps = decide (i < before.length + 1) := by
  induction before generalizing i with
  | nil =>
    cases i with
    | zero => simp [here]
    | succ i =>
      have none : (after[i]?).any keeps = false := by
        cases found : after[i]? with
        | none => rfl
        | some entry => exact rest entry (List.mem_of_getElem? found)
      simpa using none
  | cons entry before ih =>
    obtain ⟨first, later⟩ := List.forall_mem_cons.1 passed
    cases i with
    | zero => simp [first]
    | succ i => simpa using ih later i

variable {order : Bytes → Bytes → Ordering} {key : Bytes}

theorem search_eq_length (passed : ∀ entry ∈ before, order entry.key key ≠ .gt)
    (here : order last.key key ≠ .gt) (rest : ∀ entry ∈ after, order entry.key key = .gt) :
    search (before ++ last :: after) order key = some before.length := by
  have first (i : Nat) : ((before ++ last :: after)[i]?).any
      (fun entry => order entry.key key ≠ .gt) = decide (i < before.length + 1) :=
    any_keeps_eq (fun entry member => decide_eq_true (passed entry member)) (decide_eq_true here)
      (fun entry member => by simp [rest entry member]) i
  have found : lastKept (fun entry => order entry.key key ≠ .gt)
      (before ++ last :: after).toArray (before ++ last :: after).toArray.size 0
      (before ++ last :: after).toArray.size = before.length := by
    have array (i : Nat) : ((before ++ last :: after).toArray[i]?).any
        (fun entry => order entry.key key ≠ .gt) = decide (i < before.length + 1) := by
      rw [List.getElem?_toArray, first]
    exact lastKept_eq array (.inl rfl) (by simp) (Nat.le_succ _)
  simp only [search, found, List.getElem?_toArray, first, Nat.lt_succ_self, decide_true, if_true]

theorem search_eq_none (rest : ∀ entry ∈ entries, order entry.key key = .gt) :
    search entries order key = none := by
  cases found : search entries order key with
  | none => rfl
  | some i =>
    obtain ⟨entry, here, reached⟩ := search_eq_some found
    exact (reached (rest entry (List.mem_of_getElem? here))).elim

theorem drop_search (down : entries.Pairwise fun a b =>
      order b.key key ≠ .gt → order a.key key ≠ .gt) (nonempty : entries ≠ []) :
    ∃ before last after, entries = before ++ last :: after
      ∧ LastKept (fun entry => order entry.key key ≠ .gt) before last after
      ∧ entries.drop ((search entries order key).getD 0) = last :: after := by
  have keeps : entries.Pairwise fun a b =>
      decide (order b.key key ≠ .gt) = true → decide (order a.key key ≠ .gt) = true :=
    down.imp fun passes here => decide_eq_true (passes (of_decide_eq_true here))
  obtain ⟨before, last, after, rfl, found⟩ := LastKept.exists_of_down keeps nonempty
  refine ⟨before, last, after, rfl, found, ?_⟩
  have rest : ∀ entry ∈ after, order entry.key key = .gt := fun entry member => by
    simpa using found.rest entry member
  by_cases here : order last.key key = .gt
  · have first : before = [] := found.kept.resolve_right (by simp [here])
    subst first
    rw [List.nil_append, search_eq_none (List.forall_mem_cons.2 ⟨here, rest⟩)]
    rfl
  · have passed : ∀ entry ∈ before, order entry.key key ≠ .gt := fun entry member =>
      (List.pairwise_append.1 down).2.2 entry member last List.mem_cons_self here
    rw [search_eq_length passed here rest, Option.getD_some, List.drop_left]

end Index

end CellStore
