import CellStore.Proofs.Answers
import CellStore.Proofs.Interleave
import CellStore.Proofs.Ranked
import CellStore.Region.Merge

/-! The cells of several files are merged as lists are: by taking a least head each time. The
invariant is that there is one lane for each file that has cells left, in the order of their
heads. -/

open Std (TransCmp)

namespace CellStore

namespace Lane

instance : TransCmp (order : Lane → Lane → Ordering) := by
  have := transCmp_on Cell.order (fun lane : Lane => lane.head.cell)
  change TransCmp (compareLex (fun a b => a.head.cell.order b.head.cell) (compareOn rank))
  infer_instance

def le (a b : Lane) : Prop := a.order b ≠ .gt

instance : DecidableRel le := fun a b => inferInstanceAs (Decidable (a.order b ≠ .gt))

instance : IsTrans Lane le := inferInstanceAs (IsTrans Lane fun a b => a.order b ≠ .gt)

instance : Std.Total le := inferInstanceAs (Std.Total fun a b : Lane => a.order b ≠ .gt)

end Lane

namespace Merge

theorem run_cons (lane : Lane) (lanes : List Lane) : run (lane :: lanes) =
    .cell lane.head fun _ =>
      match lane.rest with
      | .cell head rest => run (insert { lane with head, rest := rest () } lanes)
      | .finished => run lanes
      | .failed error => .failed error := by
  obtain ⟨rank, head, rest⟩ := lane
  rw [run]
  cases rest <;> rfl

theorem run_cons_finished {lane : Lane} {lanes : List Lane} (last : lane.rest = .finished) :
    run (lane :: lanes) = .cell lane.head fun _ => run lanes := by
  rw [run_cons, last]

theorem run_cons_cell {lane : Lane} {lanes : List Lane} {head : StoredCell} {rest : Unit → Run}
    (more : lane.rest = .cell head rest) : run (lane :: lanes) = .cell lane.head fun _ =>
      run (insert { lane with head, rest := rest () } lanes) := by
  rw [run_cons, more]

theorem run_cons_failed {lane : Lane} {lanes : List Lane} {error : ReadError}
    (fails : lane.rest = .failed error) :
    run (lane :: lanes) = .cell lane.head fun _ => .failed error := by
  rw [run_cons, fails]

theorem insert_eq (lane : Lane) (lanes : List Lane) :
    insert lane lanes = lanes.orderedInsert Lane.le lane := by
  induction lanes with
  | nil => rfl
  | cons l lanes ih =>
    rw [insert, List.orderedInsert_cons, ih]
    by_cases above : lane.order l = .gt
    · simp [Lane.le, above]
    · simp [Lane.le, above]

theorem perm_insert (lane : Lane) (lanes : List Lane) : (insert lane lanes).Perm (lane :: lanes) :=
  insert_eq lane lanes ▸ List.perm_orderedInsert Lane.le lane lanes

structure Ordered (lanes : List Lane) : Prop where
  sorted : lanes.Pairwise Lane.le
  apart : (lanes.map (·.rank)).Nodup

variable {lane : Lane} {lanes : List Lane}

theorem Ordered.nil : Ordered [] := ⟨.nil, .nil⟩

theorem Ordered.insert (ordered : Ordered lanes) (apart : ∀ l ∈ lanes, l.rank ≠ lane.rank) :
    Ordered (insert lane lanes) where
  sorted := insert_eq lane lanes ▸ ordered.sorted.orderedInsert lane lanes
  apart := by
    rw [((perm_insert lane lanes).map _).nodup_iff, List.map_cons, List.nodup_cons]
    refine ⟨fun found => ?_, ordered.apart⟩
    obtain ⟨l, member, same⟩ := List.mem_map.1 found
    exact apart l member same

theorem Ordered.tail (ordered : Ordered (lane :: lanes)) : Ordered lanes :=
  ⟨ordered.sorted.of_cons, (List.nodup_cons.1 ordered.apart).2⟩

theorem Ordered.rank_ne (ordered : Ordered (lane :: lanes)) {l : Lane} (member : l ∈ lanes) :
    l.rank ≠ lane.rank := by
  intro same
  exact (List.nodup_cons.1 ordered.apart).1 (List.mem_map.2 ⟨l, member, same⟩)

theorem Ordered.head_le (ordered : Ordered (lane :: lanes)) {l : Lane}
    (member : l ∈ lane :: lanes) :
    lane.order l ≠ .gt :=
  StableSort.head_le ordered.sorted member

end Merge

section

variable {α : Type}

def Lane.ofList? (shown : Nat → α → StoredCell) (rank : Nat) : List α → Option Lane
  | [] => none
  | x :: xs => some ⟨rank, shown rank x, Run.ofCells (xs.map (shown rank)) fun _ => .finished⟩

theorem Lane.rank_of_ofList? {shown : Nat → α → StoredCell} {rank : Nat} {xs : List α} {lane : Lane}
    (given : ofList? shown rank xs = some lane) : lane.rank = rank := by
  cases xs with
  | nil => cases given
  | cons x xs =>
    cases given
    rfl

namespace Merge

/-- There is a lane for each list of which something is left. -/
structure Stands (shown : Nat → α → StoredCell) (lists : List (List α)) (lanes : List Lane) :
    Prop where
  ordered : Ordered lanes
  mem : ∀ lane, lane ∈ lanes ↔
    ∃ xs, lists[lane.rank]? = some xs ∧ Lane.ofList? shown lane.rank xs = some lane

variable {shown : Nat → α → StoredCell} {lists : List (List α)} {lanes : List Lane}

theorem Stands.put {i : Nat} {xs : List α} (ordered : Ordered lanes)
    (here : lists[i]? = some xs)
    (others : ∀ lane, lane ∈ lanes ↔ lane.rank ≠ i ∧
      ∃ xs, lists[lane.rank]? = some xs ∧ Lane.ofList? shown lane.rank xs = some lane) :
    Stands shown lists ((Lane.ofList? shown i xs).elim lanes (insert · lanes)) := by
  have member (lane : Lane) (same : lane.rank = i) :
      (∃ xs, lists[lane.rank]? = some xs ∧ Lane.ofList? shown lane.rank xs = some lane) ↔
        Lane.ofList? shown i xs = some lane := by
    simp [same, here]
  cases given : Lane.ofList? shown i xs with
  | none =>
    refine ⟨ordered, fun lane => ?_⟩
    rw [Option.elim_none, others]
    refine ⟨And.right, fun stands => ⟨fun same => ?_, stands⟩⟩
    rw [member lane same, given] at stands
    cases stands
  | some new =>
    have rank := Lane.rank_of_ofList? given
    refine ⟨ordered.insert fun l member => rank ▸ ((others l).1 member).1, fun lane => ?_⟩
    rw [Option.elim_some, (perm_insert new lanes).mem_iff, List.mem_cons, others]
    by_cases same : lane.rank = i
    · rw [member lane same, given, Option.some_inj, eq_comm (a := new)]
      simp [same]
    · have other : lane ≠ new := fun equal => same (equal ▸ rank)
      simp [same, other]

theorem Stands.advance {lane : Lane} {x : α} {xs : List α}
    (stands : Stands shown lists (lane :: lanes)) (here : lists[lane.rank]? = some (x :: xs)) :
    Stands shown (lists.set lane.rank xs)
      ((Lane.ofList? shown lane.rank xs).elim lanes (insert · lanes)) := by
  have inside : lane.rank < lists.length := (List.getElem?_eq_some_iff.1 here).1
  refine .put stands.ordered.tail (List.getElem?_set_self inside) fun l => ?_
  by_cases same : l.rank = lane.rank
  · refine ⟨fun member => absurd same (stands.ordered.rank_ne member), fun other => ?_⟩
    exact absurd same other.1
  · have other : l ≠ lane := fun equal => same (equal ▸ rfl)
    have all := stands.mem l
    rw [List.mem_cons] at all
    rw [List.getElem?_set_ne (Ne.symm same), ← all]
    simp [same, other]

theorem Stands.snoc (stands : Stands shown lists lanes) (xs : List α) :
    Stands shown (lists ++ [xs])
      ((Lane.ofList? shown lists.length xs).elim lanes (insert · lanes)) := by
  refine .put stands.ordered List.getElem?_concat_length fun lane => ?_
  rw [stands.mem]
  constructor
  · rintro ⟨ys, there, given⟩
    have inside : lane.rank < lists.length := (List.getElem?_eq_some_iff.1 there).1
    exact ⟨Nat.ne_of_lt inside, ys, by rwa [List.getElem?_append_left inside], given⟩
  · rintro ⟨other, ys, there, given⟩
    have inside : lane.rank < lists.length := by
      have := (List.getElem?_eq_some_iff.1 there).1
      rw [List.length_append, List.length_singleton] at this
      omega
    rw [List.getElem?_append_left inside] at there
    exact ⟨ys, there, given⟩

theorem Stands.mem_ofList (stands : Stands shown lists lanes) {i : Nat} {x : α} {xs : List α}
    (here : lists[i]? = some (x :: xs)) :
    ⟨i, shown i x, Run.ofCells (xs.map (shown i)) fun _ => .finished⟩ ∈ lanes :=
  (stands.mem _).2 ⟨x :: xs, here, rfl⟩

theorem Stands.run {order : α → α → Ordering}
    (agrees : ∀ i j a b, (shown i a).cell.order (shown j b).cell = order a b)
    (stands : Stands shown lists lanes) :
    ∃ out, Merges order lists out
      ∧ Merge.run lanes = Run.ofCells (out.map fun x => shown x.1 x.2) fun _ => .finished := by
  -- Each step takes one off the lists, so the induction is on all that is left in them.
  induction left : lists.flatten.length using Nat.strongRecOn generalizing lists lanes with
  | _ n ih =>
    cases lanes with
    | nil =>
      refine ⟨[], .done fun xs member => ?_, by rw [Merge.run]; rfl⟩
      obtain ⟨i, here⟩ := List.mem_iff_getElem?.1 member
      cases xs with
      | nil => rfl
      | cons x xs => cases stands.mem_ofList here
    | cons lane lanes =>
      obtain ⟨ys, here, given⟩ := (stands.mem lane).1 List.mem_cons_self
      obtain ⟨i, head, rest⟩ := lane
      dsimp only at here given
      cases ys with
      | nil => cases given
      | cons x xs =>
        obtain ⟨-, rfl, rfl⟩ := Lane.mk.inj (Option.some.inj given)
        have fewer : (lists.set i xs).flatten.length < n := by
          obtain ⟨before, behind, -, rfl, rest⟩ := Merges.exists_split here
          rw [rest, ← left]
          simp
        obtain ⟨out, merges, run⟩ := ih _ fewer (stands.advance here) rfl
        refine ⟨(i, x) :: out, .take here (fun j y ys there => ?_) merges, ?_⟩
        · have le := stands.ordered.head_le (stands.mem_ofList there)
          rwa [Lane.order, agrees] at le
        · cases xs with
          | nil =>
            rw [run_cons_finished rfl]
            exact congrArg (fun run => Run.cell _ fun _ => run) run
          | cons x' xs =>
            rw [run_cons_cell rfl]
            exact congrArg (fun run => Run.cell _ fun _ => run) run

end Merge

end

/-- A cursor that is moved to the target, or else on, has these cells before it. -/
def Cursor.Lands (target : Option SeekTarget) (cursor : Cursor) (cells : List StoredCell) : Prop :=
  ∃ found moved, target.elim cursor.next cursor.seek = (.ok found, moved)
    ∧ moved.position = .at cells.head? (Run.ofCells cells.tail fun _ => .finished)

namespace Merge

variable {α : Type} {shown : Nat → α → StoredCell} {target : Option SeekTarget}

theorem laneOf?_of_lands {cursor : Cursor} {rank : Nat} {xs : List α}
    (lands : cursor.Lands target (xs.map (shown rank))) :
    ∃ found moved, target.elim cursor.next cursor.seek = (.ok found, moved)
      ∧ laneOf? rank moved = Lane.ofList? shown rank xs := by
  obtain ⟨found, moved, moves, position⟩ := lands
  refine ⟨found, moved, moves, ?_⟩
  rw [laneOf?, position]
  cases xs <;> rfl

theorem Stands.addCursors {lists : List (List α)} {cursors : List Cursor} {before : List (List α)}
    {lanes : List Lane} (stands : Stands shown before lanes)
    (lands : List.Forall₂ (fun cursor entry => cursor.Lands target (entry.1.map (shown entry.2)))
      cursors (lists.zipIdx before.length)) :
    ∃ merge, Merge.addCursors target before.length cursors ⟨lanes⟩ = .ok merge
      ∧ Stands shown (before ++ lists) merge.lanes := by
  induction lists generalizing cursors before lanes with
  | nil =>
    rw [List.zipIdx_nil, List.forall₂_nil_right_iff] at lands
    subst lands
    exact ⟨⟨lanes⟩, rfl, by rwa [List.append_nil]⟩
  | cons xs lists ih =>
    rw [List.zipIdx_cons, List.forall₂_cons_right_iff] at lands
    obtain ⟨cursor, later, first, others, rfl⟩ := lands
    obtain ⟨found, moved, moves, lane⟩ := laneOf?_of_lands first
    have length : (before ++ [xs]).length = before.length + 1 := by simp
    rw [← length] at others
    obtain ⟨merge, added, stands⟩ := ih (stands.snoc xs) others
    rw [List.append_assoc, List.singleton_append] at stands
    refine ⟨merge, ?_, stands⟩
    rw [Merge.addCursors, moves]
    simp only [lane]
    rw [← length, ← added]
    cases Lane.ofList? shown before.length xs <;> rfl

theorem ofCursors_eq {lists : List (List α)} {cursors : List Cursor} {order : α → α → Ordering}
    (agrees : ∀ i j a b, (shown i a).cell.order (shown j b).cell = order a b)
    (lands : List.Forall₂ (fun cursor entry => cursor.Lands target (entry.1.map (shown entry.2)))
      cursors lists.zipIdx) :
    ∃ merge out, ofCursors cursors target = .ok merge ∧ Ordered merge.lanes
      ∧ Merges order lists out
      ∧ run merge.lanes = Run.ofCells (out.map fun x => shown x.1 x.2) fun _ => .finished := by
  have none : Stands shown [] [] := ⟨.nil, by simp⟩
  obtain ⟨merge, made, stands⟩ := none.addCursors lands
  rw [List.nil_append] at stands
  obtain ⟨out, merges, run⟩ := stands.run agrees
  exact ⟨merge, out, made, stands.ordered, merges, run⟩

end Merge

namespace Ranked

variable {formats : Nat → RecordFormat}

def stored (formats : Nat → RecordFormat) (x : Ranked) : StoredCell :=
  x.mutation.stored (formats x.rank)

theorem ofCursors_eq {target : Option SeekTarget} {cursors : List Cursor}
    {lists : List (List Mutation)}
    (lands : List.Forall₂
      (fun cursor entry => cursor.Lands target (entry.1.map (·.stored (formats entry.2))))
      cursors lists.zipIdx)
    (ascending : ∀ ms ∈ lists, ms.Pairwise fun a b => a.order b ≠ .gt) :
    ∃ (merge : Merge) (merged : List Ranked), Merge.ofCursors cursors target = .ok merge
      ∧ Merge.run merge.lanes = Run.ofCells (merged.map (·.stored formats)) (fun _ => .finished)
      ∧ merged.Pairwise (fun a b => a.order b ≠ .gt)
      ∧ ∀ rank, (merged.filter fun x => x.rank = rank) =
        (lists[rank]?.getD []).map fun m => ⟨rank, m⟩ := by
  have agrees (i j : Nat) (a b : Mutation) :
      (a.stored (formats i)).cell.order (b.stored (formats j)).cell = a.order b := rfl
  obtain ⟨merge, out, made, -, merges, run⟩ := Merge.ofCursors_eq agrees lands
  refine ⟨merge, out.map fun x => ⟨x.1, x.2⟩, made, ?_, ?_, fun rank => ?_⟩
  · rw [run, List.map_map]
    rfl
  · rw [List.pairwise_map]
    exact merges.ascending ascending
  · rw [← merges.filter_rank rank, List.filter_map, List.map_map]
    refine List.map_congr_left fun x member => ?_
    have same : x.1 = rank := by simpa using (List.mem_filter.1 member).2
    rw [← same]
    rfl

end Ranked

end CellStore
