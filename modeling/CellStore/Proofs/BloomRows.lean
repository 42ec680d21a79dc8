import CellStore.Proofs.Hash
import CellStore.Proofs.ReadBack
import CellStore.Proofs.Search

/-! A filter never rules out a row that is stored: what is set for a key when a chunk is filled is
what is probed for it, and the chunk that is probed for a key is the one it was put into. -/

open Std (TransCmp ReflCmp OrientedCmp)

namespace CellStore

namespace BloomFilter

/-- The bits that are probed for a key in a chunk of `size` bits. -/
def positions (filter : BloomFilter) (size : Nat) (key : Bytes) : List Nat :=
  let first := filter.hashKind.hash key 0
  let second := filter.hashKind.hash key first
  (List.range filter.hashCount).map fun i => (first + Int32.ofNat i * second).toInt.natAbs % size

theorem probe_eq (test : Nat → Bool) (size : Nat) (step : Int32) (count : Nat)
    (composite : Int32) : probe test size step count composite =
      (List.range count).all fun i =>
        test ((composite + Int32.ofNat i * step).toInt.natAbs % size) := by
  induction count generalizing composite with
  | zero => rfl
  | succ count ih =>
    have next (i : Nat) : composite + step + Int32.ofNat i * step =
        composite + Int32.ofNat (i + 1) * step := by
      rw [Int32.ofNat_add]
      grind
    rw [probe, ih, List.range_succ_eq_map, List.all_cons, List.all_map]
    simp only [next, Function.comp_def]
    simp

theorem probe_le {test : Nat → Bool} {size : Nat} {step composite : Int32} {count more : Nat}
    (le : count ≤ more) (found : probe test size step more composite = true) :
    probe test size step count composite = true := by
  rw [probe_eq, List.all_eq_true] at found ⊢
  intro i member
  exact found i (List.mem_range.2 (Nat.lt_of_lt_of_le (List.mem_range.1 member) le))

theorem chunkContains_eq (filter : BloomFilter) {bits : Bytes} (nonempty : bits ≠ [])
    (key : Bytes) : filter.chunkContains bits key =
      (filter.positions (8 * bits.length) key).all (testBit bits) := by
  rw [chunkContains, if_neg (by simpa using nonempty), probe_eq, positions, List.all_map]
  rfl

theorem positions_lt (filter : BloomFilter) {size : Nat} (pos : 0 < size) (key : Bytes) :
    ∀ position ∈ filter.positions size key, position < size := by
  intro position member
  obtain ⟨i, -, rfl⟩ := List.mem_map.1 member
  exact Nat.mod_lt _ pos

end BloomFilter

namespace BloomPlan

open BloomFilter (testBit probe)

structure Grows (bits more : Bytes) : Prop where
  length : more.length = bits.length
  kept : ∀ position, testBit bits position = true → testBit more position = true

variable {bits more : Bytes} {plan : BloomPlan}

theorem Grows.refl (bits : Bytes) : Grows bits bits := ⟨rfl, fun _ => id⟩

theorem Grows.trans {most : Bytes} (first : Grows bits more) (second : Grows more most) :
    Grows bits most :=
  ⟨second.length.trans first.length, fun _ set => second.kept _ (first.kept _ set)⟩

theorem Grows.ne_nil (grows : Grows bits more) (nonempty : bits ≠ []) : more ≠ [] :=
  List.ne_nil_of_length_pos (grows.length ▸ List.length_pos_iff.2 nonempty)

theorem testBit_or (b : UInt8) {i : Nat} (small : i < 8) (j : Nat) :
    (b ||| 1 <<< UInt8.ofNat i).toNat.testBit j = (b.toNat.testBit j || decide (i = j)) := by
  have power : 2 ^ i < 2 ^ 8 := Nat.pow_lt_pow_right (by decide) small
  have bit : (1 <<< UInt8.ofNat i : UInt8).toNat = 2 ^ i := by
    simp [UInt8.toNat_shiftLeft, Nat.mod_eq_of_lt small, Nat.shiftLeft_eq]
    omega
  rw [UInt8.toNat_or, bit, Nat.testBit_or, Nat.testBit_two_pow]

theorem testBit_setBit {position : Nat} (inside : position < 8 * bits.length) (other : Nat) :
    testBit (setBit bits position) other = (testBit bits other || decide (position = other)) := by
  rw [testBit, testBit, setBit, List.getD_eq_getElem?_getD, List.getD_eq_getElem?_getD,
    List.getElem?_modify]
  by_cases here : position / 8 = other / 8
  · have there : other / 8 < bits.length := by omega
    have same : position % 8 = other % 8 ↔ position = other := by omega
    rw [List.getElem?_eq_getElem there]
    simp only [here, if_true, Option.map_eq_map, Option.map_some, Option.getD_some,
      testBit_or _ (Nat.mod_lt position (show 0 < 8 by decide)), same]
  · have differs : position ≠ other := fun same => here (same ▸ rfl)
    simp [here, differs]

theorem grows_setBit {position : Nat} (inside : position < 8 * bits.length) :
    Grows bits (setBit bits position) := by
  refine ⟨List.length_modify .., fun other set => ?_⟩
  rw [testBit_setBit inside, set, Bool.true_or]

theorem grows_setBits (nonempty : bits ≠ []) (step : Int32) (count : Nat) (composite : Int32) :
    Grows bits (setBits step count composite bits) := by
  induction count generalizing composite bits with
  | zero => exact .refl bits
  | succ count ih =>
    have first : Grows bits (setBit bits (composite.toInt.natAbs % (8 * bits.length))) :=
      grows_setBit (Nat.mod_lt _ (Nat.mul_pos (by decide) (List.length_pos_iff.2 nonempty)))
    exact first.trans (ih (first.ne_nil nonempty) _)

theorem probe_setBits (nonempty : bits ≠ []) (step : Int32) (count : Nat) (composite : Int32) :
    probe (testBit (setBits step count composite bits)) (8 * bits.length) step count composite =
      true := by
  induction count generalizing composite bits with
  | zero => rfl
  | succ count ih =>
    have inside : composite.toInt.natAbs % (8 * bits.length) < 8 * bits.length :=
      Nat.mod_lt _ (Nat.mul_pos (by decide) (List.length_pos_iff.2 nonempty))
    have first := grows_setBit inside
    have filled := first.ne_nil nonempty
    have later := grows_setBits filled step count (composite + step)
    have set := later.kept (composite.toInt.natAbs % (8 * bits.length))
      (by rw [testBit_setBit inside]; simp)
    have rest := ih filled (composite + step)
    rw [first.length] at rest
    rw [probe, setBits, set, rest, Bool.and_self]

theorem grows_addKey (plan : BloomPlan) (nonempty : bits ≠ []) (key : Bytes) :
    Grows bits (plan.addKey bits key) := grows_setBits nonempty ..

theorem grows_foldl (plan : BloomPlan) (nonempty : bits ≠ []) (keys : List Bytes) :
    Grows bits (keys.foldl plan.addKey bits) := by
  induction keys generalizing bits with
  | nil => exact .refl bits
  | cons key keys ih =>
    have first := plan.grows_addKey nonempty key
    exact first.trans (ih (first.ne_nil nonempty))

theorem probe_grows {step composite : Int32} {size count : Nat} (grows : Grows bits more)
    (found : probe (testBit bits) size step count composite = true) :
    probe (testBit more) size step count composite = true := by
  rw [BloomFilter.probe_eq, List.all_eq_true] at found ⊢
  exact fun i member => grows.kept _ (found i member)

theorem ne_nil_chunk (size : Nat) : List.replicate (max 1 size) (0 : UInt8) ≠ [] := by
  intro none
  have length := congrArg List.length none
  rw [List.length_replicate, List.length_nil] at length
  omega

theorem chunkContains_of_mem {filter : BloomFilter} (kind : filter.hashKind = plan.hashKind)
    (count : filter.hashCount ≤ plan.hashCount) {keys : List Bytes} {key : Bytes}
    (member : key ∈ keys) : filter.chunkContains (plan.chunkBits keys) key = true := by
  obtain ⟨before, after, rfl⟩ := List.append_of_mem member
  rw [chunkBits]
  generalize (((before ++ key :: after).length * plan.bitsPerKey + 7) / 8) = size
  rw [List.foldl_append, List.foldl_cons]
  have empty := ne_nil_chunk size
  have filled := (plan.grows_foldl empty before).ne_nil empty
  -- The key sets its bits, and the keys after it clear none of them.
  generalize before.foldl plan.addKey (List.replicate (max 1 size) 0) = bits at filled ⊢
  have added := plan.grows_addKey filled key
  have later := plan.grows_foldl (added.ne_nil filled) after
  have probed := BloomFilter.probe_le count
    (probe_grows later (probe_setBits filled _ plan.hashCount _))
  rw [BloomFilter.chunkContains, if_neg (by simpa using later.ne_nil (added.ne_nil filled)),
    later.length, added.length, kind]
  simpa only [HashKind.hashByRounds_eq] using probed

theorem mem_dropRepeats {key : Bytes} {keys : List Bytes} :
    key ∈ dropRepeats keys ↔ key ∈ keys := by
  fun_induction dropRepeats keys with
  | case1 => rfl
  | case2 => rfl
  | case3 a rest ih => simp [ih]
  | case4 a b rest differs ih => simp [ih]

theorem ascending_dropRepeats {keys : List Bytes}
    (ascending : keys.Pairwise fun a b => compare a b ≠ .gt) :
    (dropRepeats keys).Pairwise fun a b => compare a b = .lt := by
  fun_induction dropRepeats keys with
  | case1 => exact .nil
  | case2 => simp
  | case3 a rest ih => exact ih ascending.of_cons
  | case4 a b rest differs ih =>
    obtain ⟨first, later⟩ := List.pairwise_cons.1 ascending
    have below : compare a b = .lt := by
      cases order : compare a b with
      | lt => rfl
      | eq => exact (differs (Std.compare_eq_iff_eq.1 order)).elim
      | gt => exact (first b List.mem_cons_self order).elim
    refine List.pairwise_cons.2 ⟨fun key member => ?_, ih later⟩
    rcases List.mem_cons.1 (mem_dropRepeats.1 member) with rfl | after
    · exact below
    · exact TransCmp.lt_of_lt_of_isLE below
        (Ordering.ne_gt_iff_isLE.1 (List.rel_of_pairwise_cons later after))

/-- Where keys in order are cut into chunks, a key lies in the last chunk that begins with none
after it. -/
theorem exists_chunk {size : Nat} (pos : 0 < size) {keys : List Bytes} {key : Bytes}
    (strict : keys.Pairwise fun a b => compare a b = .lt) (member : key ∈ keys) :
    ∃ before piece after, pieces size keys = before ++ piece :: after ∧ key ∈ piece
      ∧ (∀ other ∈ before, compare (other.headD []) key ≠ .gt)
      ∧ compare (piece.headD []) key ≠ .gt
      ∧ ∀ other ∈ after, compare (other.headD []) key = .gt := by
  rw [← flatten_pieces pos keys] at member strict
  obtain ⟨piece, inside, here⟩ := List.mem_flatten.1 member
  obtain ⟨before, after, whole⟩ := List.append_of_mem inside
  have head (other : List Bytes) (there : other ∈ pieces size keys) : other.headD [] ∈ other := by
    cases other with
    | nil => exact (ne_nil_of_mem_pieces pos there rfl).elim
    | cons first other => exact List.mem_cons_self
  rw [whole] at strict head
  obtain ⟨each, across⟩ := List.pairwise_flatten.1 strict
  obtain ⟨-, later, earlier⟩ := List.pairwise_append.1 across
  refine ⟨before, piece, after, whole, here, fun other there => ?_, ?_, fun other there => ?_⟩
  · rw [earlier other there piece (by simp) _ (head other (by simp [there])) key here]
    exact Ordering.noConfusion
  · cases piece with
    | nil => cases here
    | cons first piece =>
      rcases List.mem_cons.1 here with rfl | rest
      · rw [List.headD_cons, (ReflCmp.compare_self : compare key key = .eq)]
        exact Ordering.noConfusion
      · rw [List.headD_cons, List.rel_of_pairwise_cons (each _ (by simp)) rest]
        exact Ordering.noConfusion
  · exact OrientedCmp.gt_of_lt (List.rel_of_pairwise_cons later there key here _
      (head other (by simp [there])))

end BloomPlan

namespace Blueprint

variable {plan : Blueprint} {bloom : BloomPlan}

section Lookup

variable (sound : plan.Sound)

include sound

theorem read_chunk {entry : IndexEntry} {chunk : Bytes × Bytes}
    (leads : (Source.ofBytes plan.bytes).Leads plan.form .bloomChunk entry chunk)
    (member : chunk ∈ plan.chunkBlocks) : ∃ header,
      Block.read (Source.ofBytes plan.bytes) entry.offset .stored =
        .ok ⟨header, .bloomChunk, entry.offset, chunk.2⟩ := by
  obtain ⟨header, read, -⟩ :=
    leads.holds.read sound.verifiable sound.stored (fits_chunk sound chunk member)
  exact ⟨header, read⟩

theorem mayContain_eq {filter : BloomFilter} (chunks : filter.chunks = plan.chunkStage.1)
    {before after : List (Bytes × Bytes)} {chunk : Bytes × Bytes} {key : Bytes}
    (split : plan.chunkBlocks = before ++ chunk :: after)
    (passed : ∀ other ∈ before, compare other.1 key ≠ .gt) (here : compare chunk.1 key ≠ .gt)
    (rest : ∀ other ∈ after, compare other.1 key = .gt) :
    filter.mayContain (Source.ofBytes plan.bytes) .stored key =
      .ok (filter.chunkContains chunk.2 key) := by
  have leads : List.Forall₂ (flip ((Source.ofBytes plan.bytes).Leads plan.form .bloomChunk))
      (before ++ chunk :: after) plan.chunkStage.1 := split ▸ (leads_chunks sound).flip
  obtain ⟨passedEntries, entry, restEntries, whole, earlier, found, later⟩ :=
    forall₂_append_cons leads
  have searched : Index.search filter.chunks compare key = some passedEntries.length := by
    rw [chunks, whole]
    refine Index.search_eq_length ?_ (found.key ▸ here) ?_
    · exact forall_of_forall₂ earlier (fun _ _ leads before => leads.key ▸ before) passed
    · exact forall_of_forall₂ later (fun _ _ leads after => leads.key ▸ after) rest
  have place : filter.chunks[passedEntries.length]? = some entry := by
    rw [chunks, whole, List.getElem?_append_right (Nat.le_refl _), Nat.sub_self]
    rfl
  have some : filter.chunks.isEmpty = false := by simp [chunks, whole]
  obtain ⟨header, read⟩ := read_chunk sound found (by simp [split])
  simp only [BloomFilter.mayContain, some, Bool.false_eq_true, if_false, searched, place,
    Option.elim_some, read, ok_bind, Block.expect_self, liftM_decoded_ok,
    pure_eq_ok]

theorem exists_mayContain {filter : BloomFilter} (chunks : filter.chunks = plan.chunkStage.1)
    (key : Bytes) : ∃ found,
      filter.mayContain (Source.ofBytes plan.bytes) .stored key = .ok found := by
  by_cases empty : filter.chunks.isEmpty = true
  · exact ⟨true, by simp [BloomFilter.mayContain, empty]⟩
  · cases searched : Index.search filter.chunks compare key with
    | none => exact ⟨false, by simp [BloomFilter.mayContain, empty, searched]⟩
    | some i =>
      obtain ⟨entry, place, -⟩ := Index.search_eq_some searched
      obtain ⟨before, after, whole⟩ := List.append_of_mem (List.mem_of_getElem? place)
      have leads := leads_chunks sound
      rw [← chunks, whole] at leads
      obtain ⟨_, chunk, _, split, -, found, -⟩ := forall₂_append_cons leads
      obtain ⟨header, read⟩ := read_chunk sound found (by simp [split])
      refine ⟨filter.chunkContains chunk.2 key, ?_⟩
      simp only [BloomFilter.mayContain, empty, Bool.false_eq_true, if_false, searched, place,
        Option.elim_some, read, ok_bind, Block.expect_self, liftM_decoded_ok,
        pure_eq_ok]

theorem mayContain_row (given : plan.bloom = some bloom) (rows : bloom.keys = .rows)
    (pos : 0 < bloom.keysPerChunk) {filter : BloomFilter}
    (chunks : filter.chunks = plan.chunkStage.1) (kind : filter.hashKind = bloom.hashKind)
    (count : filter.hashCount ≤ bloom.hashCount) {m : Mutation} (member : m ∈ plan.mutations) :
    filter.mayContain (Source.ofBytes plan.bytes) .stored m.row = .ok true := by
  have keys : plan.sorted.map bloom.keyOf = plan.sorted.map (·.row) :=
    List.map_congr_left fun m _ => by rw [BloomPlan.keyOf, rows]
  have ascending : (plan.sorted.map bloom.keyOf).Pairwise fun a b => compare a b ≠ .gt := by
    rw [keys, List.pairwise_map]
    exact plan.rows_sorted
  have listed : m.row ∈ bloom.keysOf plan.sorted := by
    rw [BloomPlan.keysOf, BloomPlan.mem_dropRepeats, keys]
    exact List.mem_map_of_mem (mem_sorted.2 member)
  obtain ⟨before, piece, after, whole, here, passed, begins, rest⟩ :=
    BloomPlan.exists_chunk pos (BloomPlan.ascending_dropRepeats ascending) listed
  have split : plan.chunkBlocks = before.map (fun keys => (keys.headD [], bloom.chunkBits keys))
      ++ (piece.headD [], bloom.chunkBits piece)
        :: after.map fun keys => (keys.headD [], bloom.chunkBits keys) := by
    have all : plan.chunkBlocks = bloom.chunks plan.sorted := by
      rw [chunkBlocks, given]
      rfl
    rw [all, BloomPlan.chunks, BloomPlan.keysOf, whole, List.map_append, List.map_cons]
  rw [mayContain_eq sound chunks split (List.forall_mem_map.2 passed) begins
    (List.forall_mem_map.2 rest), BloomPlan.chunkContains_of_mem kind count here]

omit sound in
theorem mayContainRow_eq (plan : Blueprint) (row : Bytes) :
    plan.opened.mayContainRow row = .ok true ∨ ∃ bloom, plan.bloom = some bloom
      ∧ bloom.keys = .rows
      ∧ plan.opened.mayContainRow row =
        (bloom.filter plan.sorted plan.chunkStage.1).wrap.mayContain (Source.ofBytes plan.bytes)
          .stored row := by
  have filter : plan.opened.bloom = plan.openedFilter := rfl
  have kind : plan.opened.bloomKind = plan.bloom.elim .absent (·.kind) := rfl
  rw [StoreFile.mayContainRow, filter, kind, openedFilter, filter?]
  cases given : plan.bloom with
  | none => exact .inl rfl
  | some bloom =>
    simp only [Option.map_some, Option.bind_some, Option.elim_some, BloomPlan.metaKind,
      BloomPlan.kind]
    cases bloom.forTombstones with
    | true => exact .inl rfl
    | false =>
      cases keys : bloom.keys with
      | columns => exact .inl rfl
      | rows => exact .inr ⟨bloom, rfl, keys, rfl⟩

omit sound in
theorem mayContainRow_of_none (none : plan.bloom = none) (row : Bytes) :
    plan.opened.mayContainRow row = .ok true := by
  obtain all | ⟨bloom, given, -, -⟩ := mayContainRow_eq plan row
  · exact all
  · rw [none] at given
    cases given

theorem exists_mayContainRow (row : Bytes) :
    ∃ found, plan.opened.mayContainRow row = .ok found := by
  obtain all | ⟨bloom, -, -, asked⟩ := mayContainRow_eq plan row
  · exact ⟨true, all⟩
  · rw [asked]
    exact exists_mayContain sound rfl row

theorem mayContainRow_of_mem (pos : ∀ bloom ∈ plan.bloom, 0 < bloom.keysPerChunk) {m : Mutation}
    (member : m ∈ plan.mutations) : plan.opened.mayContainRow m.row = .ok true := by
  obtain all | ⟨bloom, given, rows, asked⟩ := mayContainRow_eq plan m.row
  · exact all
  · rw [asked]
    exact mayContain_row sound given rows (pos bloom given) rfl rfl (Nat.mod_le ..) member

end Lookup

/-- No file rules out a row that is stored in it, by a put or by a tombstone, and what is probed for
a key in a chunk always lies in that chunk. -/
theorem mayContainRow_stored (sound : plan.Sound) (plain : plan.PlainInfo)
    (pos : ∀ bloom ∈ plan.bloom, 0 < bloom.keysPerChunk) :
    (∃ file, StoreFile.load (Source.ofBytes plan.bytes) = .ok file
      ∧ ∀ m ∈ plan.mutations, file.mayContainRow m.row = .ok true)
    ∧ ∀ (filter : BloomFilter) (bits key : Bytes), bits ≠ [] →
      filter.chunkContains bits key =
        (filter.positions (8 * bits.length) key).all (BloomFilter.testBit bits)
      ∧ ∀ position ∈ filter.positions (8 * bits.length) key, position < 8 * bits.length := by
  refine ⟨⟨plan.opened, load_eq sound plain, fun m => mayContainRow_of_mem sound pos⟩, ?_⟩
  intro filter bits key nonempty
  exact ⟨filter.chunkContains_eq nonempty key,
    filter.positions_lt (Nat.mul_pos (by decide) (List.length_pos_iff.2 nonempty)) key⟩

theorem mayContainRow_stored_twoRows : twoRows.Sound ∧ twoRows.PlainInfo
    ∧ (∀ bloom ∈ twoRows.bloom, 0 < bloom.keysPerChunk)
    ∧ (∃ file, StoreFile.load (Source.ofBytes twoRows.bytes) = .ok file
      ∧ ∀ m ∈ twoRows.mutations, file.mayContainRow m.row = .ok true)
    ∧ ∀ (filter : BloomFilter) (bits key : Bytes), bits ≠ [] →
      filter.chunkContains bits key =
        (filter.positions (8 * bits.length) key).all (BloomFilter.testBit bits)
      ∧ ∀ position ∈ filter.positions (8 * bits.length) key, position < 8 * bits.length := by
  have pos : ∀ bloom ∈ twoRows.bloom, 0 < bloom.keysPerChunk := by
    intro bloom given
    obtain rfl := Option.some.inj given
    decide
  exact ⟨sound_twoRows, plain_twoRows, pos, mayContainRow_stored sound_twoRows plain_twoRows pos⟩

end Blueprint

end CellStore
