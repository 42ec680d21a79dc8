import CellStore.Proofs.KeyOrder
import CellStore.Proofs.Tombstones
import CellStore.Region.Shown
import CellStore.Region.Visible
import Mathlib.Tactic.Tauto

/-! What is visible is found out in one pass: when a put is met, all tombstones that hide it have
been seen. -/

open Std (TransCmp)

namespace CellStore

namespace Mutation

theorem hides_iff {t m : Mutation} : t.hides m = true ↔
    t.row = m.row ∧ t.kind.covers t.qualifier t.timestamp m.qualifier m.timestamp := by
  cases kind : t.kind <;> simp [hides, kind, CellKind.covers]

theorem not_hides_later {t m : Mutation} (put : m.kind = .put) (family : m.family = t.family)
    (bare : t.kind = .deleteFamily → t.qualifier = []) (before : m.order t ≠ .gt) :
    t.hides m = false := by
  rw [← Bool.not_eq_true, hides_iff]
  rintro ⟨row, covers⟩
  apply before
  change (compare m.row t.row).then ((compare m.family t.family).then
    ((compare m.qualifier t.qualifier).then ((compare t.timestamp m.timestamp).then
      (compare t.kind.code m.kind.code)))) = .gt
  have same (bytes : Bytes) : compare bytes bytes = .eq := Std.ReflCmp.compare_self
  have after (newer : m.timestamp ≤ t.timestamp) :
      (compare t.timestamp m.timestamp).then .gt = .gt := by
    have found := Std.isGE_compare.2 newer
    cases order : compare t.timestamp m.timestamp <;> simp_all
  -- A put has the least code of all kinds, and timestamps and kinds are in descending order.
  rw [row, same, family, same, put]
  change (compare m.qualifier t.qualifier).then ((compare t.timestamp m.timestamp).then
    (compare t.kind.code CellKind.put.code)) = .gt
  cases kind : t.kind with
  | put => simp [kind, CellKind.covers] at covers
  | delete =>
    obtain ⟨column, version⟩ : t.qualifier = m.qualifier ∧ t.timestamp = m.timestamp := by
      simpa [kind, CellKind.covers] using covers
    rw [column, same]
    exact after (version ▸ UInt64.le_refl _)
  | deleteColumn =>
    obtain ⟨column, newer⟩ : t.qualifier = m.qualifier ∧ m.timestamp ≤ t.timestamp := by
      simpa [kind, CellKind.covers] using covers
    rw [column, same]
    exact after newer
  | deleteFamily =>
    have newer : m.timestamp ≤ t.timestamp := by
      simpa [kind, CellKind.covers] using covers
    rw [bare kind]
    cases m.qualifier with
    | nil => exact after newer
    | cons b qualifier => rfl

theorem isTombstone_of_hides {t m : Mutation} (hides : t.hides m = true) :
    t.kind.isTombstone = true := by
  have covers := (hides_iff.1 hides).2
  cases kind : t.kind with
  | put => simp [kind, CellKind.covers] at covers
  | _ => rfl

end Mutation

/-- What a row state says of the mutations that were met, and of the versions counted so far. -/
structure Seen (state : RowState) (versions : Tally (Bytes × Bytes)) (met : List Mutation) :
    Prop where
  hidden : ∀ m : Mutation, m.row = state.row →
    (state.tombstones.check m.qualifier m.timestamp ≠ .visible ↔ ∃ t ∈ met, t.hides m = true)
  counts : ∀ qualifier, state.shown.count qualifier = versions.count (state.row, qualifier)
  rows : ∀ row qualifier, versions.count (row, qualifier) ≠ 0 → ∃ t ∈ met, t.row = row
  past : ∀ t ∈ met, compare t.row state.row ≠ .gt

namespace Seen

variable {state : RowState} {versions : Tally (Bytes × Bytes)} {met : List Mutation} {m : Mutation}

theorem start : Seen (.start []) [] [] where
  hidden m _ := by simp [RowState.start, Tombstones.empty, Tombstones.check]
  counts _ := rfl
  rows _ _ counted := absurd rfl counted
  past _ none := by cases none

theorem turn (seen : Seen state versions met) {row : Bytes}
    (ahead : compare state.row row ≠ .gt) :
    Seen (if state.row = row then state else .start row) versions met := by
  by_cases same : state.row = row
  · rwa [if_pos same]
  · rw [if_neg same]
    have before : compare state.row row = .lt := by
      cases order : compare state.row row with
      | lt => rfl
      | eq => exact (same (Std.compare_eq_iff_eq.1 order)).elim
      | gt => exact (ahead order).elim
    have behind (t : Mutation) (member : t ∈ met) : compare t.row row = .lt :=
      TransCmp.lt_of_isLE_of_lt (Ordering.ne_gt_iff_isLE.1 (seen.past t member)) before
    have other (t : Mutation) (member : t ∈ met) : t.row ≠ row := by
      intro here
      have before := behind t member
      rw [here, (Std.ReflCmp.compare_self : compare row row = .eq)] at before
      cases before
    constructor
    · intro m here
      have none : ¬ ∃ t ∈ met, t.hides m = true := by
        rintro ⟨t, member, hides⟩
        exact other t member ((Mutation.hides_iff.1 hides).1.trans here)
      simp [RowState.start, Tombstones.empty, Tombstones.check, none]
    · intro qualifier
      have none : versions.count (row, qualifier) = 0 := Decidable.not_not.1 fun counted => by
        obtain ⟨t, member, here⟩ := seen.rows row qualifier counted
        exact other t member here
      rw [RowState.start, none, Tally.count_nil]
    · exact seen.rows
    · intro t member
      simp [RowState.start, behind t member]

theorem tombstone (seen : Seen state versions met) (here : m.row = state.row) :
    Seen { state with tombstones := state.tombstones.add m.kind m.qualifier m.timestamp }
      versions (met ++ [m]) where
  hidden other same := by
    have covers : m.kind.covers m.qualifier m.timestamp other.qualifier other.timestamp ↔
        m.hides other = true := by
      rw [Mutation.hides_iff]
      exact (and_iff_right (here.trans same.symm)).symm
    rw [Tombstones.check_add, seen.hidden other same, covers]
    simp [or_and_right, exists_or]
  counts := seen.counts
  rows row qualifier counted := by
    obtain ⟨t, member, same⟩ := seen.rows row qualifier counted
    exact ⟨t, List.mem_append_left _ member, same⟩
  past t member := by
    obtain member | member := List.mem_append.1 member
    · exact seen.past t member
    · obtain rfl := List.mem_singleton.1 member
      simp [here, Std.ReflCmp.compare_self]

theorem put (seen : Seen state versions met) (here : m.row = state.row) (put : m.kind = .put) :
    Seen state versions (met ++ [m]) := by
  have same : state.tombstones.add m.kind m.qualifier m.timestamp = state.tombstones := by
    rw [put]
    rfl
  have after := seen.tombstone here
  rwa [same] at after

theorem count (seen : Seen state versions met) (member : m ∈ met) (here : m.row = state.row) :
    Seen { state with shown := state.shown.add m.qualifier }
      (versions.add (m.row, m.qualifier)) met where
  hidden := seen.hidden
  counts qualifier := by
    simp only [Tally.count_add, seen.counts, here, Prod.mk.injEq, true_and]
  rows row qualifier counted := by
    rw [Tally.count_add] at counted
    by_cases same : (m.row, m.qualifier) = (row, qualifier)
    · exact ⟨m, member, (Prod.mk.inj same).1⟩
    · rw [if_neg same] at counted
      exact seen.rows row qualifier counted
  past := seen.past

end Seen

namespace Ranked

def shown (most : Nat) : RowState → List Ranked → List Ranked
  | _, [] => []
  | state, x :: xs =>
    match state.see most (x.mutation.cell ⟨false, false⟩) with
    | (true, state) => x :: shown most state xs
    | (false, state) => shown most state xs

variable {state : RowState} {versions : Tally (Bytes × Bytes)} {met : List Mutation}

theorem any_hides_iff {x : Ranked} {xs : List Ranked} {tombstones : List Mutation}
    (put : x.mutation.kind = .put)
    (early : ∀ y ∈ xs, y.mutation.hides x.mutation = false)
    (known : ∀ t : Mutation, t.kind.isTombstone = true →
      (t ∈ tombstones ↔ t ∈ met ∨ t ∈ (x :: xs).map (·.mutation))) :
    tombstones.any (·.hides x.mutation) = true ↔ ∃ t ∈ met, t.hides x.mutation = true := by
  rw [List.any_eq_true]
  constructor
  · rintro ⟨t, member, hides⟩
    have tombstone := Mutation.isTombstone_of_hides hides
    obtain before | after := (known t tombstone).1 member
    · exact ⟨t, before, hides⟩
    · rw [List.map_cons] at after
      cases after with
      | head =>
        rw [put] at tombstone
        cases tombstone
      | tail _ after =>
        obtain ⟨y, there, rfl⟩ := List.mem_map.1 after
        rw [early y there] at hides
        cases hides
  · rintro ⟨t, member, hides⟩
    exact ⟨t, (known t (Mutation.isTombstone_of_hides hides)).2 (.inl member), hides⟩

theorem shown_eq (most : Nat) {xs : List Ranked} {tombstones : List Mutation}
    (seen : Seen state versions met)
    (ahead : ∀ x ∈ xs, compare state.row x.mutation.row ≠ .gt)
    (rows : xs.Pairwise fun a b => compare a.mutation.row b.mutation.row ≠ .gt)
    (early : xs.Pairwise fun a b => a.mutation.kind = .put → b.mutation.hides a.mutation = false)
    (known : ∀ t : Mutation, t.kind.isTombstone = true →
      (t ∈ tombstones ↔ t ∈ met ∨ t ∈ xs.map (·.mutation))) :
    (shown most state xs).map (·.mutation) =
      Mutation.newest most versions ((xs.map (·.mutation)).filter fun m =>
        !m.kind.isTombstone && !tombstones.any (·.hides m)) := by
  induction xs generalizing state versions met with
  | nil => rfl
  | cons x xs ih =>
    have turned := seen.turn (ahead x List.mem_cons_self)
    have see : state.see most (x.mutation.cell ⟨false, false⟩) =
        (if state.row = x.mutation.row then state else .start x.mutation.row).seeHere most
          (x.mutation.cell ⟨false, false⟩) := rfl
    have here : x.mutation.row =
        (if state.row = x.mutation.row then state else .start x.mutation.row).row := by
      split
      · exact Eq.symm ‹_›
      · rfl
    rw [shown, see]
    -- From here on only the state within the row of `x` matters.
    generalize (if state.row = x.mutation.row then state else .start x.mutation.row) = state
      at turned here
    have later {state : RowState} {versions : Tally (Bytes × Bytes)}
        (seen : Seen state versions (met ++ [x.mutation])) (same : state.row = x.mutation.row) :=
      ih seen (fun y member => same ▸ (List.pairwise_cons.1 rows).1 y member) rows.of_cons
        early.of_cons fun t tombstone => by
          rw [known t tombstone, List.map_cons, List.mem_cons, List.mem_append, List.mem_singleton,
            or_assoc]
    rw [List.map_cons, List.filter_cons]
    cases tombstone : x.mutation.kind.isTombstone with
    | true =>
      have passed : state.seeHere most (x.mutation.cell ⟨false, false⟩) = (false, { state with
          tombstones := state.tombstones.add x.mutation.kind x.mutation.qualifier
            x.mutation.timestamp }) := if_pos tombstone
      rw [passed]
      exact later (turned.tombstone here) here.symm
    | false =>
      have put : x.mutation.kind = .put := by simpa [CellKind.isTombstone] using tombstone
      have first := List.pairwise_cons.1 early
      have any := any_hides_iff put (fun y member => first.1 y member put) known
      rw [← turned.hidden x.mutation here] at any
      have counts := turned.counts x.mutation.qualifier
      rw [← here] at counts
      have after := turned.put here put
      have entered : state.seeHere most (x.mutation.cell ⟨false, false⟩) =
          if state.tombstones.check x.mutation.qualifier x.mutation.timestamp ≠ .visible then
            (false, state)
          else if most = 0 then (true, state)
          else if most ≤ state.shown.count x.mutation.qualifier then (false, state)
          else (true, { state with shown := state.shown.add x.mutation.qualifier }) :=
        if_neg (by simp [Mutation.cell, tombstone])
      rw [entered]
      by_cases hides : tombstones.any (·.hides x.mutation) = true
      · simp only [any.1 hides, if_true, hides, Bool.not_true, Bool.and_false,
          Bool.false_eq_true, if_false, not_false_eq_true, ne_eq]
        exact later after here.symm
      · have visible : ¬ state.tombstones.check x.mutation.qualifier x.mutation.timestamp ≠
            .visible := fun found => hides (any.2 found)
        simp only [visible, if_false, hides, Bool.not_false, Bool.and_true, if_true,
          Mutation.newest, counts]
        by_cases unbounded : most = 0
        · rw [if_pos unbounded, if_pos unbounded, List.map_cons, later after here.symm]
        · by_cases enough : most ≤ versions.count (x.mutation.row, x.mutation.qualifier)
          · simp only [unbounded, enough, if_true, if_false]
            exact later after here.symm
          · simp only [unbounded, enough, if_false, List.map_cons, List.cons.injEq, true_and]
            exact later (after.count (by simp) here) here.symm

end Ranked

namespace Mutation

theorem filter_newest (most : Nat) (keeps : Bytes → Bool) {versions kept : Tally (Bytes × Bytes)}
    (same : ∀ row qualifier, keeps row = true →
      versions.count (row, qualifier) = kept.count (row, qualifier)) (ms : List Mutation) :
    ((newest most versions ms).filter fun m => keeps m.row) =
      newest most kept (ms.filter fun m => keeps m.row) := by
  induction ms generalizing versions kept with
  | nil => rfl
  | cons m ms ih =>
    have added (row qualifier : Bytes) (kept' : keeps row = true) :
        (versions.add (m.row, m.qualifier)).count (row, qualifier) =
          (kept.add (m.row, m.qualifier)).count (row, qualifier) := by
      rw [Tally.count_add, Tally.count_add, same row qualifier kept']
    rw [newest, List.filter_cons]
    cases here : keeps m.row with
    | true =>
      have first (ms : List Mutation) : ((m :: ms).filter fun m => keeps m.row) =
          m :: ms.filter fun m => keeps m.row := by
        rw [List.filter_cons, here, if_pos rfl]
      simp only [if_true, newest, ← same m.row m.qualifier here]
      by_cases unbounded : most = 0
      · rw [if_pos unbounded, if_pos unbounded, first, ih same]
      · rw [if_neg unbounded, if_neg unbounded]
        by_cases enough : most ≤ versions.count (m.row, m.qualifier)
        · rw [if_pos enough, if_pos enough, ih same]
        · rw [if_neg enough, if_neg enough, first, ih added]
    | false =>
      have dropped (ms : List Mutation) : ((m :: ms).filter fun m => keeps m.row) =
          ms.filter fun m => keeps m.row := by
        rw [List.filter_cons, here, if_neg Bool.false_ne_true]
      have other (row qualifier : Bytes) (kept' : keeps row = true) :
          (versions.add (m.row, m.qualifier)).count (row, qualifier) =
            kept.count (row, qualifier) := by
        have differs : (m.row, m.qualifier) ≠ (row, qualifier) := by
          rintro ⟨⟩
          simp [here] at kept'
        rw [Tally.count_add, if_neg differs, same row qualifier kept', Nat.add_zero]
      rw [if_neg Bool.false_ne_true]
      by_cases unbounded : most = 0
      · rw [if_pos unbounded, dropped, ih same]
      · rw [if_neg unbounded]
        by_cases enough : most ≤ versions.count (m.row, m.qualifier)
        · rw [if_pos enough, ih same]
        · rw [if_neg enough, dropped, ih other]

theorem filter_shown (keeps : Bytes → Bool) (ms : List Mutation) :
    ((ms.filter fun m => !m.kind.isTombstone && !(ms.filter (·.kind.isTombstone)).any (·.hides m))
        |>.filter fun m => keeps m.row) =
      (ms.filter fun m => keeps m.row).filter fun m => !m.kind.isTombstone
        && !((ms.filter fun m => keeps m.row).filter (·.kind.isTombstone)).any (·.hides m) := by
  rw [List.filter_filter, List.filter_filter]
  refine List.filter_congr fun m _ => ?_
  cases here : keeps m.row with
  | false => simp
  | true =>
    have rows (t : Mutation) (hides : t.hides m = true) : keeps t.row = true := by
      rw [(hides_iff.1 hides).1, here]
    have any : (ms.filter (·.kind.isTombstone)).any (·.hides m) =
        ((ms.filter fun m => keeps m.row).filter (·.kind.isTombstone)).any (·.hides m) := by
      rw [Bool.eq_iff_iff, List.any_eq_true, List.any_eq_true]
      constructor
      · rintro ⟨t, member, hides⟩
        rw [List.mem_filter] at member
        exact ⟨t, List.mem_filter.2 ⟨List.mem_filter.2 ⟨member.1, rows t hides⟩, member.2⟩, hides⟩
      · rintro ⟨t, member, hides⟩
        rw [List.mem_filter, List.mem_filter] at member
        exact ⟨t, List.mem_filter.2 ⟨member.1.1, member.2⟩, hides⟩
    rw [any, Bool.true_and, Bool.and_true]

end Mutation

end CellStore
