import CellStore.Proofs.Merge
import CellStore.Proofs.ReadBack
import CellStore.Region.Heap

/-! A heap goes through the cells of its cursors as lanes that are kept in order do, whatever queue
it waits with, so it is a merge of what the cursors have. The invariant is that the lane kept out of
the queue is the first of all, and that the queue has the others. -/

open Std (OrientedCmp)

namespace CellStore

theorem Lane.rank_of_order_eq {a b : Lane} (same : a.order b = .eq) : a.rank = b.rank := by
  rw [order, Ordering.then_eq_eq] at same
  exact Std.compare_eq_iff_eq.1 same.2

/-- The cell in front and a step past it. -/
def Merge.drain (merge : Merge) : (Option StoredCell × Moved Unit) × Merge :=
  ((merge.peek?, merge.advance.1), merge.advance.2)

namespace Heap

variable {queue : LaneQueue}

def drain (heap : Heap queue) : (Option StoredCell × Moved Unit) × Heap queue :=
  ((heap.peek?, heap.advance.1), heap.advance.2)

structure Follows (heap : Heap queue) (merge : Merge) : Prop where
  ordered : Merge.Ordered merge.lanes
  current : heap.current = merge.lanes.head?
  waiting : (queue.lanes heap.waiting).Perm merge.lanes.tail

theorem follows_settle {waiting : queue.State} {lanes : List Lane} (ordered : Merge.Ordered lanes)
    (same : (queue.lanes waiting).Perm lanes) : Follows (settle waiting) ⟨lanes⟩ := by
  rw [settle]
  cases popped : queue.pop waiting with
  | none =>
    rw [queue.lanes_of_pop_eq_none _ popped] at same
    obtain rfl := same.nil_eq
    exact ⟨ordered, rfl, .of_eq (queue.lanes_of_pop_eq_none _ popped)⟩
  | some taken =>
    obtain ⟨lane, others⟩ := taken
    have perm := (queue.lanes_of_pop _ _ _ popped).symm.trans same
    cases lanes with
    | nil => cases perm.eq_nil
    | cons first lanes =>
      -- Neither of the two is behind the other, so they are of one file.
      obtain rfl : lane = first := by
        have member : lane ∈ first :: lanes := perm.subset List.mem_cons_self
        have below : first.order lane ≠ .gt := ordered.head_le member
        have above : lane.order first ≠ .gt := by
          obtain rfl | waits := List.mem_cons.1 (perm.symm.subset List.mem_cons_self)
          · exact below
          · exact queue.least _ _ _ popped first waits
        have tied : lane.order first = .eq := by
          rw [(OrientedCmp.eq_swap : first.order lane = (lane.order first).swap)] at below
          cases found : lane.order first <;> simp_all
        obtain same | later := List.mem_cons.1 member
        · exact same
        · exact absurd (Lane.rank_of_order_eq tied) (ordered.rank_ne later)
      exact ⟨ordered, rfl, perm.cons_inv⟩

theorem Follows.drain {heap : Heap queue} {merge : Merge} (follows : heap.Follows merge) :
    heap.drain.1 = merge.drain.1 ∧ heap.drain.2.Follows merge.drain.2 := by
  obtain ⟨current, waiting⟩ := heap
  obtain ⟨lanes⟩ := merge
  obtain ⟨ordered, rfl, perm⟩ := follows
  cases lanes with
  | nil => exact ⟨rfl, ordered, rfl, perm⟩
  | cons lane lanes =>
    obtain ⟨rank, head, rest⟩ := lane
    cases rest with
    | finished => exact ⟨rfl, follows_settle ordered.tail perm⟩
    | failed error => exact ⟨rfl, .nil, rfl, .of_eq queue.lanes_empty⟩
    | cell next rest =>
      refine ⟨rfl, follows_settle (ordered.tail.insert fun l member => ordered.rank_ne member) ?_⟩
      refine (queue.lanes_push _ _).trans ?_
      exact (perm.cons _).trans (Merge.perm_insert _ lanes).symm

theorem pushCursors_alike (target : Option SeekTarget) (cursors : List Cursor) {rank : Nat}
    {waiting : queue.State} {merge : Merge} (ordered : Merge.Ordered merge.lanes)
    (below : ∀ lane ∈ merge.lanes, lane.rank < rank)
    (same : (queue.lanes waiting).Perm merge.lanes) :
    Alike (fun waiting merge => Merge.Ordered merge.lanes
        ∧ (queue.lanes waiting).Perm merge.lanes)
      (pushCursors target rank cursors waiting) (Merge.addCursors target rank cursors merge) := by
  induction cursors generalizing rank waiting merge with
  | nil => exact .ok ⟨ordered, same⟩
  | cons cursor cursors ih =>
    rw [pushCursors, Merge.addCursors]
    obtain ⟨found, moved⟩ := target.elim cursor.next cursor.seek
    cases found with
    | error error => exact .error error
    | ok found =>
      have later {lane : Lane} (member : lane ∈ merge.lanes) : lane.rank < rank + 1 :=
        Nat.lt_succ_of_lt (below lane member)
      dsimp only
      cases stands : Merge.laneOf? rank moved with
      | none => exact ih ordered (fun _ => later) same
      | some new =>
        have fresh : new.rank = rank := by
          rw [Merge.laneOf?] at stands
          split at stands
          · cases stands
            rfl
          · cases stands
        have apart : ∀ lane ∈ merge.lanes, lane.rank ≠ new.rank := fun lane member =>
          Nat.ne_of_lt (fresh ▸ below lane member)
        have perm := Merge.perm_insert new merge.lanes
        refine ih (ordered.insert apart) (fun lane member => ?_)
          ((queue.lanes_push _ _).trans ((same.cons _).trans perm.symm))
        obtain rfl | member := List.mem_cons.1 (perm.subset member)
        · exact fresh ▸ Nat.lt_succ_self _
        · exact later member

theorem ofCursors_alike (queue : LaneQueue) (cursors : List Cursor) (target : Option SeekTarget) :
    Alike (fun (heap : Heap queue) merge => heap.Follows merge) (ofCursors cursors target)
      (Merge.ofCursors cursors target) := by
  have pushed : Alike (fun waiting merge => Merge.Ordered merge.lanes
        ∧ (queue.lanes waiting).Perm merge.lanes)
      (pushCursors target 0 cursors queue.empty) (Merge.addCursors target 0 cursors Merge.empty) :=
    pushCursors_alike target cursors .nil nofun (.of_eq queue.lanes_empty)
  rw [ofCursors, Merge.ofCursors]
  generalize pushCursors target 0 cursors queue.empty = waiting at pushed ⊢
  generalize Merge.addCursors target 0 cursors Merge.empty = merge at pushed ⊢
  cases pushed with
  | error error => exact .error error
  | ok made => exact .ok (follows_settle made.1 made.2)

end Heap

namespace Merge

def seen (found : Moved (Option StoredCell)) : Option StoredCell × Moved Unit :=
  (found.toOption.join, .ok ())

theorem drain_of_run {merge : Merge} {cells : List StoredCell}
    (whole : run merge.lanes = Run.ofCells cells fun _ => .finished) :
    merge.drain.1 = (cells.head?, .ok ())
      ∧ run merge.drain.2.lanes = Run.ofCells cells.tail fun _ => .finished := by
  obtain ⟨lanes⟩ := merge
  dsimp only at whole
  cases lanes with
  | nil =>
    cases cells with
    | nil => exact ⟨rfl, whole⟩
    | cons stored cells =>
      rw [run] at whole
      cases whole
  | cons lane lanes =>
    cases cells with
    | nil =>
      rw [run_cons] at whole
      cases whole
    | cons stored cells =>
      rw [run_cons] at whole
      obtain ⟨rfl, later⟩ := Run.cell.inj whole
      have later := congrFun later ()
      obtain ⟨rank, head, rest⟩ := lane
      cases rest with
      | finished => exact ⟨rfl, later⟩
      | cell next rest => exact ⟨rfl, later⟩
      | failed error => cases cells <;> cases later

theorem answers_drain {merge : Merge} {cells : List StoredCell}
    (whole : run merge.lanes = Run.ofCells cells fun _ => .finished) (n : Nat) :
    answers drain n merge = (List.range n).map fun i => (cells[i]?, .ok ()) := by
  have belongs : ∃ cells, some (Run.ofCells cells fun _ => .finished) = some _
    ∧ run merge.lanes = Run.ofCells cells fun _ => .finished := ⟨cells, rfl, whole⟩
  rw [answers_of_run (R := fun merge ahead => ∃ cells, some (Run.ofCells cells fun _ => .finished) =
    ahead ∧ run merge.lanes = Run.ofCells cells fun _ => .finished) seen ?_ belongs]
  · simp only [Run.toList_ofCells, Run.error?_ofCells, found_complete]
    rfl
  · rintro merge _ ⟨cells, rfl, whole⟩
    obtain ⟨first, later⟩ := drain_of_run whole
    cases cells with
    | nil => exact ⟨first, [], rfl, later⟩
    | cons stored cells => exact ⟨first, cells, rfl, later⟩

end Merge

def Cursor.aimed? (target : Option SeekTarget) (cursor : Cursor) : Option Run :=
  match cursor.position with
  | .at _ ahead => some (target.elim ahead fun target => cursor.file.seekRun target.toKey)
  | .failed => none

def Cursor.Yields (target : Option SeekTarget) (cursor : Cursor) (cells : List StoredCell) : Prop :=
  ∃ run, cursor.aimed? target = some run ∧ run.toList = cells ∧ run.error? = none

theorem Run.eq_ofCells {run : Run} (ends : run.error? = none) :
    run = ofCells run.toList fun _ => .finished := by
  induction run with
  | finished => rfl
  | failed error => cases ends
  | cell stored rest ih =>
    rw [toList, ofCells]
    congr 1
    funext _
    exact ih _ ends

theorem Cursor.Yields.lands {target : Option SeekTarget} {cursor : Cursor}
    {cells : List StoredCell} (yields : cursor.Yields target cells) :
    cursor.Lands target cells := by
  obtain ⟨run, aimed, rfl, ends⟩ := yields
  have enters : target.elim cursor.next cursor.seek = cursor.enter run := by
    obtain ⟨file, position⟩ := cursor
    cases position with
    | failed => cases aimed
    | «at» current ahead =>
      cases aimed
      cases target <;> rfl
  rw [Run.eq_ofCells ends, Cursor.enter_ofCells] at enters
  exact ⟨_, _, enters, rfl⟩

theorem Cursor.Ahead.yields {cursor : Cursor} {cells : List StoredCell}
    (ahead : cursor.Ahead cells) : cursor.Yields none cells := by
  obtain ⟨current, position⟩ := ahead
  refine ⟨_, ?_, Run.toList_ofCells cells, Run.error?_ofCells cells⟩
  rw [aimed?, position]
  rfl

theorem lands_of_yields {target : Option SeekTarget} {cursors : List Cursor}
    {lists : List (List StoredCell)} (yields : List.Forall₂ (Cursor.Yields target) cursors lists)
    (rank : Nat) : List.Forall₂ (fun cursor entry => cursor.Lands target (entry.1.map id))
      cursors (lists.zipIdx rank) := by
  induction yields generalizing rank with
  | nil => exact .nil
  | cons first later ih =>
    refine .cons ?_ (ih (rank + 1))
    rw [List.map_id]
    exact first.lands

namespace Heap

/-- Cursors without errors are merged, whatever queue the heap has and whatever their cells are:
each cell comes out once, and those of one cursor as they come in it. When each cursor has its cells
in order, they come out in order, and equal ones by the position of their cursors. -/
theorem drain_merges (queue : LaneQueue) {target : Option SeekTarget} {cursors : List Cursor}
    {lists : List (List StoredCell)} (yields : List.Forall₂ (Cursor.Yields target) cursors lists) :
    ∃ (heap : Heap queue) (merge : Merge) (out : List (Nat × StoredCell)),
      ofCursors cursors target = .ok heap ∧ Merge.ofCursors cursors target = .ok merge
      ∧ (∀ n, answers drain n heap = (List.range n).map fun i => ((out.map (·.2))[i]?, .ok ()))
      ∧ (∀ n, answers Merge.drain n merge =
        (List.range n).map fun i => ((out.map (·.2))[i]?, .ok ()))
      ∧ (out.map (·.2)).Perm lists.flatten
      ∧ (∀ i, (out.filter (·.1 = i)).map (·.2) = lists[i]?.getD [])
      ∧ ((∀ cells ∈ lists, cells.Pairwise fun a b => a.cell.order b.cell ≠ .gt) →
        StableSort (fun a b => a.cell.order b.cell) lists.flatten (out.map (·.2))) := by
  have agrees (i j : Nat) (a b : StoredCell) :
      (id a).cell.order (id b).cell = a.cell.order b.cell := rfl
  obtain ⟨merge, out, made, -, merges, run⟩ :=
    Merge.ofCursors_eq agrees (lands_of_yields yields 0)
  have alike := ofCursors_alike queue cursors target
  rw [made] at alike
  generalize opened : ofCursors cursors target = heap at alike
  cases alike with
  | ok follows =>
    rename_i heap
    have := transCmp_on Cell.order StoredCell.cell
    have drained (n : Nat) : answers Merge.drain n merge =
        (List.range n).map fun i => ((out.map (·.2))[i]?, .ok ()) := Merge.answers_drain run n
    refine ⟨heap, merge, out, rfl, made, fun n => ?_, drained, merges.perm, merges.filter_rank,
      merges.stableSort⟩
    rw [← drained n, answers_map id (fun _ _ follows => follows.drain) follows, List.map_id]

def inOrder : LaneQueue where
  State := { lanes : List Lane // lanes.Pairwise Lane.le }
  empty := ⟨[], .nil⟩
  push lane waiting :=
    ⟨Merge.insert lane waiting.1, Merge.insert_eq lane waiting.1 ▸ waiting.2.orderedInsert lane _⟩
  pop
    | ⟨[], _⟩ => none
    | ⟨lane :: lanes, sorted⟩ => some (lane, ⟨lanes, sorted.of_cons⟩)
  lanes := Subtype.val
  lanes_empty := rfl
  lanes_push lane waiting := Merge.perm_insert lane waiting.1
  lanes_of_pop_eq_none
    | ⟨[], _⟩, _ => rfl
  lanes_of_pop
    | ⟨_ :: _, _⟩, _, _, rfl => .refl _
  least
    | ⟨_ :: _, sorted⟩, _, _, rfl => fun _ member => List.rel_of_pairwise_cons sorted member

def twoRowsCells : List StoredCell :=
  Blueprint.twoRows.sorted.map (·.stored Blueprint.twoRows.format)

theorem drain_merges_twoRows :
    List.Forall₂ (Cursor.Yields none)
      [.ofFile Blueprint.twoRows.opened, .ofFile Blueprint.twoRows.opened]
      [twoRowsCells, twoRowsCells]
    ∧ ∃ (heap : Heap inOrder) (merge : Merge) (out : List (Nat × StoredCell)),
      ofCursors [.ofFile Blueprint.twoRows.opened, .ofFile Blueprint.twoRows.opened] none = .ok heap
      ∧ Merge.ofCursors [.ofFile Blueprint.twoRows.opened, .ofFile Blueprint.twoRows.opened] none =
        .ok merge
      ∧ (∀ n, answers drain n heap = (List.range n).map fun i => ((out.map (·.2))[i]?, .ok ()))
      ∧ (∀ n, answers Merge.drain n merge =
        (List.range n).map fun i => ((out.map (·.2))[i]?, .ok ()))
      ∧ (out.map (·.2)).Perm [twoRowsCells, twoRowsCells].flatten
      ∧ (∀ i, (out.filter (·.1 = i)).map (·.2) = [twoRowsCells, twoRowsCells][i]?.getD [])
      ∧ ((∀ cells ∈ [twoRowsCells, twoRowsCells],
          cells.Pairwise fun a b => a.cell.order b.cell ≠ .gt) →
        StableSort (fun a b => a.cell.order b.cell) [twoRowsCells, twoRowsCells].flatten
          (out.map (·.2))) := by
  have ahead : (Cursor.ofFile Blueprint.twoRows.opened).Ahead twoRowsCells :=
    ⟨none, congrArg (Position.at none) (Blueprint.run_opened Blueprint.sound_twoRows
      Blueprint.fits_twoRows Blueprint.families_twoRows)⟩
  have yields : List.Forall₂ (Cursor.Yields none)
      [.ofFile Blueprint.twoRows.opened, .ofFile Blueprint.twoRows.opened]
      [twoRowsCells, twoRowsCells] := .cons ahead.yields (.cons ahead.yields .nil)
  exact ⟨yields, drain_merges inOrder yields⟩

end Heap

end CellStore
