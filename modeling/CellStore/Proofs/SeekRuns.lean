import CellStore.Proofs.Search
import CellStore.Proofs.Seek

/-! Where a cursor lands that is sent to a stored key which several cells may have. The cells of one
key stand side by side, and a block may end among them. The index then leads into the last block
that begins with one of them. -/

open Std (TransCmp ReflCmp)

namespace CellStore

theorem LastKept.transfer {α β : Type} {R : α → β → Prop} {keeps : α → Bool} {keeps' : β → Bool}
    {before after : List α} {last : α} {before' after' : List β} {last' : β}
    (found : LastKept keeps before last after) (same : ∀ a b, R a b → keeps a = keeps' b)
    (earlier : List.Forall₂ R before before') (here : R last last')
    (later : List.Forall₂ R after after') : LastKept keeps' before' last' after' where
  kept := by
    obtain rfl | kept := found.kept
    · exact .inl (List.forall₂_nil_left_iff.1 earlier)
    · exact .inr (same _ _ here ▸ kept)
  rest := forall_of_forall₂ later (fun a b both none => same a b both ▸ none) found.rest

namespace Key

variable {a b key : Bytes}

theorem reached_of_le (le : Key.order a b ≠ .gt) (reached : Key.order b key ≠ .gt) :
    Key.order a key ≠ .gt :=
  Ordering.ne_gt_iff_isLE.2 (TransCmp.isLE_trans (Ordering.ne_gt_iff_isLE.1 le)
    (Ordering.ne_gt_iff_isLE.1 reached))

theorem not_lt_of_le (le : Key.order a b ≠ .gt) (above : Key.order a key ≠ .lt) :
    Key.order b key ≠ .lt := fun before =>
  above (TransCmp.lt_of_isLE_of_lt (Ordering.ne_gt_iff_isLE.1 le) before)

theorem order_eq_of_not (reached : Key.order a key ≠ .gt) (above : Key.order a key ≠ .lt) :
    Key.order a key = .eq := by
  cases order : Key.order a key with
  | lt => exact (above order).elim
  | eq => rfl
  | gt => exact (reached order).elim

end Key

namespace Mutation

def Ascending (ms : List Mutation) : Prop := ms.Pairwise fun a b => Key.order a.key b.key ≠ .gt

/-- Whether mutations begin with one that is not after `key`. -/
def reaches (key : Bytes) (ms : List Mutation) : Bool :=
  ms.head?.any fun m => Key.order m.key key ≠ .gt

variable {key : Bytes} {m other : Mutation} {ms : List Mutation}

theorem reaches_of_mem (ascending : Ascending ms) (member : m ∈ ms)
    (reached : Key.order m.key key ≠ .gt) : reaches key ms = true := by
  cases ms with
  | nil => cases member
  | cons first ms =>
    rcases List.mem_cons.1 member with rfl | later
    · exact decide_eq_true reached
    · exact decide_eq_true (Key.reached_of_le (List.rel_of_pairwise_cons ascending later) reached)

theorem dropWhile_eq_cons (ascending : Ascending ms) (member : m ∈ ms)
    (same : Key.order m.key key = .eq) :
    ∃ passed first later, ms = passed ++ first :: later
      ∧ (∀ other ∈ passed, Key.order other.key key = .lt) ∧ Key.order first.key key = .eq
      ∧ (ms.dropWhile fun m => Key.order m.key key = .lt) = first :: later := by
  induction ms with
  | nil => cases member
  | cons x ms ih =>
    rw [List.dropWhile_cons]
    by_cases before : Key.order x.key key = .lt
    · have later : m ∈ ms := by
        rcases List.mem_cons.1 member with rfl | later
        · simp [same] at before
        · exact later
      obtain ⟨passed, first, after, rfl, below, here, dropped⟩ := ih ascending.of_cons later
      refine ⟨x :: passed, first, after, rfl, List.forall_mem_cons.2 ⟨before, below⟩, here, ?_⟩
      rw [if_pos (decide_eq_true before), dropped]
    · have reached : Key.order x.key key ≠ .gt :=
        of_decide_eq_true (reaches_of_mem ascending member (by simp [same]))
      refine ⟨[], x, ms, rfl, by simp, Key.order_eq_of_not reached before, ?_⟩
      simp [before]

end Mutation

open Mutation (Ascending reaches)

/-- A block ends with a cell of this key, and the next one begins with another. -/
def CutsRun (blocks : List (List Mutation)) (key : Bytes) : Prop :=
  ∃ before first second after, blocks = before ++ first :: second :: after
    ∧ first.getLast?.map (·.key) = some key ∧ second.head?.map (·.key) = some key

section Landing

variable {key : Bytes} {before after : List (List Mutation)} {last : List Mutation}

theorem reaches_of_head {block : List Mutation} (begins : block.head?.map (·.key) = some key) :
    reaches key block = true := by
  obtain ⟨m, here, rfl⟩ := Option.map_eq_some_iff.1 begins
  simp [reaches, here, (ReflCmp.compare_self : Key.order m.key m.key = .eq)]

theorem LastKept.exists_head (found : LastKept (reaches key) before last after)
    {m : Mutation} (passed : m ∈ before.flatten) :
    ∃ first later, last = first :: later ∧ Key.order first.key key ≠ .gt := by
  have kept : reaches key last = true := found.kept.resolve_left (by rintro rfl; cases passed)
  cases last with
  | nil => cases kept
  | cons first later => exact ⟨first, later, rfl, of_decide_eq_true kept⟩

theorem LastKept.exists_same (found : LastKept (reaches key) before last after)
    (ascending : Ascending (before ++ last :: after).flatten) {m : Mutation}
    (member : m ∈ (before ++ last :: after).flatten) (same : Key.order m.key key = .eq) :
    ∃ other ∈ (last :: after).flatten, Key.order other.key key = .eq := by
  rw [List.flatten_append] at ascending member
  rcases List.mem_append.1 member with passed | ahead
  · obtain ⟨first, later, rfl, reached⟩ := found.exists_head passed
    have le := (List.pairwise_append.1 ascending).2.2 m passed first (by simp)
    exact ⟨first, by simp, Key.order_eq_of_not reached
      (Key.not_lt_of_le le (by simp [same]))⟩
  · exact ⟨m, ahead, same⟩

theorem LastKept.exists_passed (found : LastKept (reaches key) before last after)
    (cuts : CutsRun (before ++ last :: after) key) : ∃ m ∈ before.flatten, m.key = key := by
  obtain ⟨front, first, second, rest, whole, ends, begins⟩ := cuts
  obtain ⟨m, here, same⟩ := Option.map_eq_some_iff.1 ends
  have entered : second ∉ after := fun member => by
    have passed := found.rest second member
    rw [reaches_of_head begins] at passed
    cases passed
  have passed : first ∈ before := by
    have split : before ++ last :: after = (front ++ [first]) ++ second :: rest := by simp [whole]
    obtain ⟨between, joined, here⟩ | ⟨between, rfl, -⟩ := List.append_eq_append_iff.1 split
    · cases between with
      | nil =>
        rw [List.append_nil] at joined
        rw [← joined]
        simp
      | cons x between =>
        rw [List.cons_append, List.cons.injEq] at here
        exact (entered (by simp [here.2])).elim
    · simp
  exact ⟨m, List.mem_flatten_of_mem passed (List.mem_of_getLast? here), same⟩

theorem LastKept.cutsRun (found : LastKept (reaches key) before last after)
    (filled : ∀ block ∈ before, block ≠ [])
    (ascending : Ascending (before ++ last :: after).flatten)
    (same : ∀ m ∈ (before ++ last :: after).flatten, Key.order m.key key = .eq → m.key = key)
    {m : Mutation} (passed : m ∈ before.flatten) (above : Key.order m.key key ≠ .lt) :
    CutsRun (before ++ last :: after) key := by
  obtain ⟨first, later, rfl, reached⟩ := found.exists_head passed
  obtain rfl | ⟨front, block, rfl⟩ := List.eq_nil_or_concat before
  · cases passed
  obtain rfl | ⟨start, final, rfl⟩ := List.eq_nil_or_concat block
  · exact (filled [] (by simp) rfl).elim
  have whole : (front.concat (start.concat final) ++ (first :: later) :: after).flatten =
      (front.flatten ++ start ++ [final]) ++ first :: (later ++ after.flatten) := by
    simp
  have list : (front.concat (start.concat final)).flatten = front.flatten ++ start ++ [final] := by
    simp
  rw [list] at passed
  rw [whole] at ascending same
  obtain ⟨earlier, -, across⟩ := List.pairwise_append.1 ascending
  have lastLe : Key.order m.key final.key ≠ .gt := by
    rcases List.mem_append.1 passed with inside | here
    · exact (List.pairwise_append.1 earlier).2.2 m inside final (by simp)
    · rw [List.mem_singleton.1 here, (ReflCmp.compare_self : Key.order final.key final.key = .eq)]
      exact Ordering.noConfusion
  have firstLe := across final (by simp) first List.mem_cons_self
  have lastAbove := Key.not_lt_of_le lastLe above
  have lastSame := Key.order_eq_of_not (Key.reached_of_le firstLe reached) lastAbove
  have firstSame := Key.order_eq_of_not reached (Key.not_lt_of_le firstLe lastAbove)
  refine ⟨front, start.concat final, first :: later, after, by simp, ?_, ?_⟩
  · simpa using same final (by simp) lastSame
  · simpa using same first (by simp) firstSame

/-- The blocks that are passed over have only cells before a key, unless a run of that key is
cut. -/
theorem LastKept.before_lt_iff (found : LastKept (reaches key) before last after)
    (filled : ∀ block ∈ before, block ≠ [])
    (ascending : Ascending (before ++ last :: after).flatten)
    (same : ∀ m ∈ (before ++ last :: after).flatten, Key.order m.key key = .eq → m.key = key) :
    (∀ m ∈ before.flatten, Key.order m.key key = .lt) ↔
      ¬ CutsRun (before ++ last :: after) key := by
  constructor
  · intro below cuts
    obtain ⟨m, passed, rfl⟩ := found.exists_passed cuts
    have before := below m passed
    rw [(ReflCmp.compare_self : Key.order m.key m.key = .eq)] at before
    cases before
  · intro uncut m passed
    exact Decidable.not_not.1 fun above =>
      uncut (found.cutsRun filled ascending same passed above)

theorem LastKept.flatten {before' after' : List (List (List Mutation))}
    (outer : LastKept (fun blocks : List (List Mutation) => reaches key blocks.flatten) before'
      (before ++ last :: after) after')
    (inner : LastKept (reaches key) before last after) (filled : last ≠ [])
    (ascending : Ascending (before' ++ (before ++ last :: after) :: after').flatten.flatten) :
    LastKept (reaches key) (before'.flatten ++ before) last (after ++ after'.flatten) where
  kept := by
    obtain rfl | kept := inner.kept
    · obtain rfl | kept := outer.kept
      · exact .inl rfl
      · cases last with
        | nil => exact (filled rfl).elim
        | cons first later => exact .inr kept
    · exact .inr kept
  rest := by
    rw [List.flatten_flatten] at ascending
    have each := (List.pairwise_flatten.1 ascending).1
    intro block member
    rcases List.mem_append.1 member with inside | later
    · exact inner.rest block inside
    · obtain ⟨blocks, there, inside⟩ := List.mem_flatten.1 later
      have order : Ascending blocks.flatten := each _ (List.mem_map_of_mem (by simp [there]))
      have none := outer.rest blocks there
      rw [← Bool.not_eq_true] at none ⊢
      intro here
      cases block with
      | nil => cases here
      | cons first block =>
        have member := List.mem_flatten_of_mem inside (List.mem_cons_self (a := first) (l := block))
        exact none (Mutation.reaches_of_mem order member (of_decide_eq_true here))

end Landing

namespace Blueprint

variable {plan : Blueprint} {family key : Bytes}

section Descent

variable (sound : plan.Sound) (fits : ∀ m ∈ plan.sorted, m.Fits plan.format)
  (families : ∀ m ∈ plan.sorted, m.family = family)

include sound fits families

theorem head_of_spans {height : Nat} {entry : IndexEntry} {blocks : List (List Mutation)}
    (spans : (Source.ofBytes plan.bytes).Spans plan.form plan.LeadsToData height entry blocks) :
    ∃ first later, blocks.flatten = first :: later ∧ first.key = entry.key := by
  obtain ⟨_, _, whole, same⟩ := (covers_of_spans sound spans fits fun _ => families).exists_cons
  obtain ⟨first, later, here, rfl, -⟩ := List.map_eq_cons_iff.1 whole
  exact ⟨first, later, here, same⟩

theorem reaches_of_spans {height : Nat} {entry : IndexEntry} {blocks : List (List Mutation)}
    (spans : (Source.ofBytes plan.bytes).Spans plan.form plan.LeadsToData height entry blocks) :
    decide (Key.order entry.key key ≠ .gt) = reaches key blocks.flatten := by
  obtain ⟨first, later, whole, same⟩ := head_of_spans sound fits families spans
  rw [whole, ← same]
  rfl

variable {height : Nat} {entries : List IndexEntry} {parts : List (List (List Mutation))}

theorem ascending_entries (spans : List.Forall₂
      ((Source.ofBytes plan.bytes).Spans plan.form plan.LeadsToData height) entries parts)
    (ascending : Ascending parts.flatten.flatten) :
    entries.Pairwise fun a b => Key.order a.key b.key ≠ .gt := by
  induction spans with
  | nil => exact .nil
  | cons first later ih =>
    rw [List.flatten_cons, List.flatten_append] at ascending
    obtain ⟨-, rest, across⟩ := List.pairwise_append.1 ascending
    refine List.pairwise_cons.2 ⟨fun entry member => ?_, ih rest⟩
    obtain ⟨x, y, rfl⟩ := List.append_of_mem member
    obtain ⟨x', blocks, y', rfl, -, there, -⟩ := forall₂_append_cons later
    obtain ⟨m, _, whole, same⟩ := head_of_spans sound fits families first
    obtain ⟨m', _, whole', same'⟩ := head_of_spans sound fits families there
    rw [← same, ← same']
    exact across m (by simp [whole]) m' (by simp [whole'])

theorem concat_spans (spans : List.Forall₂
      ((Source.ofBytes plan.bytes).Spans plan.form plan.LeadsToData height) entries parts)
    (next : Unit → Run) : Run.concat (plan.opened.subtreeRun height) next entries =
      Run.ofCells (parts.flatten.flatten.map (·.stored plan.format)) next := by
  have covers : List.Forall₂ (plan.opened.Covers height) entries
      (parts.map fun blocks => blocks.flatten.map (·.stored plan.format)) :=
    List.forall₂_map_right_iff.2 (spans.imp fun _ _ spans =>
      covers_of_spans sound spans fits fun _ => families)
  rw [StoreFile.concat_subtrees covers, flatten_map_map_flatten]

theorem search_spans (key : Bytes) (spans : List.Forall₂
      ((Source.ofBytes plan.bytes).Spans plan.form plan.LeadsToData height) entries parts)
    (ascending : Ascending parts.flatten.flatten) (nonempty : entries ≠ []) :
    ∃ entry later before blocks after,
      entries.drop ((Index.search entries Key.order key).getD 0) = entry :: later
      ∧ parts = before ++ blocks :: after
      ∧ LastKept (fun blocks : List (List Mutation) => reaches key blocks.flatten) before blocks
        after
      ∧ (Source.ofBytes plan.bytes).Spans plan.form plan.LeadsToData height entry blocks
      ∧ List.Forall₂ ((Source.ofBytes plan.bytes).Spans plan.form plan.LeadsToData height) later
        after := by
  have order := ascending_entries sound fits families spans ascending
  have down : entries.Pairwise fun a b =>
      Key.order b.key key ≠ .gt → Key.order a.key key ≠ .gt :=
    order.imp fun le reached => Key.reached_of_le le reached
  obtain ⟨before, entry, later, rfl, found, dropped⟩ := Index.drop_search down nonempty
  obtain ⟨before', blocks, after, rfl, earlier, here, others⟩ := forall₂_append_cons spans
  have same (entry : IndexEntry) (blocks : List (List Mutation))
      (spans : (Source.ofBytes plan.bytes).Spans plan.form plan.LeadsToData height entry blocks) :
      decide (Key.order entry.key key ≠ .gt) = reaches key blocks.flatten :=
    reaches_of_spans sound fits families spans
  have kept := found.transfer same earlier here others
  exact ⟨entry, later, before', blocks, after, dropped, rfl, kept, here, others⟩

theorem runFrom_lands (spans : List.Forall₂
      ((Source.ofBytes plan.bytes).Spans plan.form plan.LeadsToData height) entries parts)
    (filled : ∀ block ∈ parts.flatten, block ≠ []) (ascending : Ascending parts.flatten.flatten)
    (nonempty : entries ≠ []) (next : Unit → Run) :
    ∃ before last after, parts.flatten = before ++ last :: after
      ∧ LastKept (reaches key) before last after
      ∧ plan.opened.runFrom key height entries next =
        Run.ofCells ((last :: after).flatten.map (·.stored plan.format)) next := by
  induction height generalizing entries parts next with
  | zero =>
    obtain ⟨entry, later, before, blocks, after, dropped, rfl, kept, here, others⟩ :=
      search_spans sound fits families key spans ascending nonempty
    have run := concat_spans sound fits families (.cons here others) next
    obtain ⟨last, -, rfl⟩ := here
    have inner : LastKept (reaches key) [] last [] := ⟨.inl rfl, by simp⟩
    have found := kept.flatten inner (filled last (by simp)) ascending
    rw [List.append_nil, List.nil_append] at found
    refine ⟨before.flatten, last, after.flatten, by simp, found, ?_⟩
    rw [StoreFile.runFrom, dropped]
    exact run
  | succ height ih =>
    obtain ⟨entry, later, before, blocks, after, dropped, rfl, kept, here, others⟩ :=
      search_spans sound fits families key spans ascending nonempty
    obtain ⟨below, parts, leads, each, rfl⟩ := here
    have read : plan.opened.readIndexBlock entry.offset = .ok below :=
      StoreFile.readIndexBlock_of_leads rfl leads sound.verifiable sound.stored
    have rest := concat_spans sound fits families others next
    have whole : (before ++ parts.flatten :: after).flatten =
        before.flatten ++ (parts.flatten ++ after.flatten) := by
      simp
    have inside : Ascending parts.flatten.flatten := by
      have order := ascending
      rw [whole, List.flatten_append, List.flatten_append] at order
      exact (List.pairwise_append.1 (List.pairwise_append.1 order).2.1).1
    rw [whole] at filled
    obtain ⟨front, last, back, split, inner, run⟩ := ih each
      (fun block member => filled block (by simp [member])) inside leads.nonempty
      fun _ => Run.concat (plan.opened.subtreeRun (height + 1)) next later
    rw [split] at kept ascending filled whole
    have found := kept.flatten inner (filled last (by simp)) ascending
    refine ⟨before.flatten ++ front, last, back ++ after.flatten, ?_, found, ?_⟩
    · rw [split, whole]
      simp
    · rw [StoreFile.runFrom, dropped]
      simp only [read, RunReader.follow_ok]
      rw [run, rest, ← Run.ofCells_append, ← List.map_append, ← List.flatten_append]
      rfl

end Descent

theorem ascending_plan (fits : ∀ m ∈ plan.mutations, m.Fits plan.format) :
    Ascending plan.sorted := by
  refine plan.stableSort_sorted.ascending.imp_of_mem ?_
  intro a b here there le
  rwa [Mutation.order_key (fits a (mem_sorted.1 here)) (fits b (mem_sorted.1 there))]

theorem seekRun_lands (sound : plan.Sound) (fits : ∀ m ∈ plan.mutations, m.Fits plan.format)
    (families : ∀ m ∈ plan.mutations, m.family = family) {m : Mutation}
    (member : m ∈ plan.mutations) :
    ∃ passed first later, plan.sorted = passed ++ first :: later
      ∧ first.key = m.key
      ∧ (∀ other ∈ passed, Key.order other.key m.key ≠ .gt)
      ∧ ((∀ other ∈ passed, Key.order other.key m.key = .lt) ↔
        ¬ CutsRun (cut plan.format plan.blockSize plan.sorted) m.key)
      ∧ plan.opened.seekRun m.key =
        Run.ofCells ((first :: later).map (·.stored plan.format)) fun _ => .finished := by
  have ascending := ascending_plan fits
  have inside : m ∈ plan.sorted := mem_sorted.2 member
  have equal (other : Mutation) (there : other ∈ plan.sorted)
      (same : Key.order other.key m.key = .eq) : other.key = m.key := by
    rw [Mutation.order_key (fits other (mem_sorted.1 there)) (fits m member)] at same
    exact Mutation.key_eq_of_order_eq same
  have self : Key.order m.key m.key = .eq := ReflCmp.compare_self
  obtain ⟨parts, spans, whole⟩ := spans_index sound
  have cells : parts.flatten.flatten = plan.sorted := by rw [whole, flatten_cut]
  have filled : ∀ block ∈ parts.flatten, block ≠ [] := fun block there =>
    ne_nil_of_mem_cut (whole ▸ there)
  have nonempty : plan.indexStage.1.top ≠ [] := fun none => by
    rw [none, List.forall₂_nil_left_iff] at spans
    rw [← cells, spans] at inside
    cases inside
  obtain ⟨before, last, after, split, found, run⟩ := runFrom_lands sound
    (fun m there => fits m (mem_sorted.1 there))
    (fun m there => families m (mem_sorted.1 there)) spans filled (cells ▸ ascending)
    nonempty fun _ => .finished
  rw [split] at cells filled
  rw [← cells] at ascending inside equal
  obtain ⟨other, ahead, same⟩ := found.exists_same ascending inside self
  have rest := ascending
  rw [List.flatten_append] at rest
  obtain ⟨skipped, first, later, there, below, here, dropped⟩ :=
    Mutation.dropWhile_eq_cons (List.pairwise_append.1 rest).2.1 ahead same
  have list : plan.sorted = (before.flatten ++ skipped) ++ first :: later := by
    rw [← cells, List.flatten_append, there, List.append_assoc]
  have landed : first.key = m.key := equal first (by rw [cells, list]; simp) here
  have passed : ∀ other ∈ before.flatten, Key.order other.key m.key ≠ .gt := fun other member =>
    landed ▸ (List.pairwise_append.1 rest).2.2 other member first (by simp [there])
  refine ⟨before.flatten ++ skipped, first, later, list, landed, ?_, ?_, ?_⟩
  · exact List.forall_mem_append.2 ⟨passed, fun other member => by simp [below other member]⟩
  · rw [List.forall_mem_append, and_iff_left below, ← whole, split]
    exact found.before_lt_iff (fun block there => filled block (by simp [there])) ascending equal
  · rw [StoreFile.seekRun]
    change ((plan.opened.runFrom m.key (plan.indexStage.1.levels - 1) plan.indexStage.1.top
      fun _ => .finished).dropUntil _) = _
    rw [run, Run.dropUntil_ofCells, List.dropWhile_map, ← dropped]
    simp only [Function.comp_def, Mutation.key_stored, ne_eq, decide_not, Bool.not_not]
    rfl

/-- A cursor that is sent to a stored key lands on a cell of that key and goes on from there through
all cells that follow. The cells it passes over are before the key, as they should be, exactly when
no block ends among the cells of the key. -/
theorem seek_lands_in_run (sound : plan.Sound) (plain : plan.PlainInfo)
    (fits : ∀ m ∈ plan.mutations, m.Fits plan.format)
    (families : ∀ m ∈ plan.mutations, m.family = family) :
    ∃ file, StoreFile.load (Source.ofBytes plan.bytes) = .ok file
      ∧ ∀ cursor, (Cursor.ofFile file).Reaches cursor → ∀ m ∈ plan.mutations,
        ∃ passed first later landed, Mutation.sort plan.mutations = passed ++ first :: later
          ∧ first.key = m.key
          ∧ (∀ other ∈ passed, Key.order other.key m.key ≠ .gt)
          ∧ ((∀ other ∈ passed, Key.order other.key m.key = .lt) ↔
            ¬ CutsRun (cut plan.format plan.blockSize (Mutation.sort plan.mutations)) m.key)
          ∧ cursor.seek (.key m.key) = (.ok true, landed)
          ∧ landed.cell? = some (first.stored plan.format)
          ∧ ∀ n, answers Cursor.step n landed = (List.range n).map fun i =>
            (.ok later[i]?.isSome, later[i]?.map (·.stored plan.format)) := by
  refine ⟨plan.opened, load_eq sound plain, fun cursor reaches m member => ?_⟩
  obtain ⟨passed, first, later, list, same, below, uncut, run⟩ :=
    seekRun_lands sound fits families member
  obtain ⟨landed, entered, current, ahead⟩ :=
    Cursor.enter_lands cursor ((first :: later).map (·.stored plan.format))
  rw [sort_mutations]
  refine ⟨passed, first, later, landed, list, same, below, uncut, ?_, current, fun n => ?_⟩
  · rw [reaches.live.seek_eq]
    change cursor.enter (plan.opened.seekRun m.key) = _
    rw [run]
    exact entered
  · rw [ahead.answers_step]
    simp only [List.map_cons, List.tail_cons, List.getElem?_map, Option.isSome_map]

def twoValues : Blueprint :=
  { standard with
    blockSize := 1
    mutations := [
      ⟨[97], [102], [113], 5, .put, [1], [], 0⟩,
      ⟨[97], [102], [113], 5, .put, [2], [], 0⟩] }

theorem sound_twoValues : twoValues.Sound := by decide +kernel

theorem plain_twoValues : twoValues.PlainInfo := by decide

theorem fits_twoValues : ∀ m ∈ twoValues.mutations, m.Fits twoValues.format := by decide

theorem families_twoValues : ∀ m ∈ twoValues.mutations, m.family = [102] := by decide

/-- The first of two values of one key is not found: the index leads past the block it is in. -/
theorem seek_lands_in_run_twoValues :
    let sought : Mutation := ⟨[97], [102], [113], 5, .put, [1], [], 0⟩
    let found : Mutation := ⟨[97], [102], [113], 5, .put, [2], [], 0⟩
    twoValues.Sound ∧ twoValues.PlainInfo
    ∧ (∀ m ∈ twoValues.mutations, m.Fits twoValues.format)
    ∧ (∀ m ∈ twoValues.mutations, m.family = [102])
    ∧ Mutation.sort twoValues.mutations = [sought, found]
    ∧ ∃ file landed, StoreFile.load (Source.ofBytes twoValues.bytes) = .ok file
      ∧ (Cursor.ofFile file).seek (.key sought.key) = (.ok true, landed)
      ∧ landed.cell? = some (found.stored twoValues.format)
      ∧ ∀ n, answers Cursor.step n landed = (List.range n).map fun _ => (.ok false, none) := by
  intro sought found
  have sorted : Mutation.sort twoValues.mutations = [sought, found] := by
    rw [sort_mutations]
    decide
  have cuts : CutsRun (cut twoValues.format twoValues.blockSize (Mutation.sort twoValues.mutations))
      sought.key := by
    rw [sorted]
    exact ⟨[], [sought], [found], [], rfl, rfl, rfl⟩
  refine ⟨sound_twoValues, plain_twoValues, fits_twoValues, families_twoValues, sorted, ?_⟩
  obtain ⟨file, load, lands⟩ := seek_lands_in_run sound_twoValues plain_twoValues fits_twoValues
    families_twoValues
  obtain ⟨passed, first, later, landed, list, -, -, uncut, seek, current, ahead⟩ :=
    lands _ .start sought List.mem_cons_self
  have skipped : passed ≠ [] := by
    rintro rfl
    exact uncut.1 (by simp) cuts
  rw [sorted] at list
  obtain ⟨m, passed, rfl⟩ := List.exists_cons_of_ne_nil skipped
  rw [List.cons_append, List.cons.injEq] at list
  obtain ⟨rfl, rfl, rfl⟩ : passed = [] ∧ first = found ∧ later = [] := by
    cases passed with
    | nil => simpa [eq_comm] using list.2
    | cons m passed => simp at list
  exact ⟨file, landed, load, seek, current, by simpa using ahead⟩

end Blueprint

end CellStore
