import CellStore.Checksum.Apart
import CellStore.Proofs.CellLayout
import CellStore.Proofs.Pieces
import Mathlib.Data.Nat.Find

namespace CellStore

namespace Crc

theorem foldl_extend (polynomial remainder : UInt32) (parts : List Bytes) :
    parts.foldl (extend polynomial) (~~~ remainder) =
      ~~~ parts.flatten.foldl (step polynomial) remainder := by
  induction parts generalizing remainder with
  | nil => rfl
  | cons part parts ih =>
    rw [List.foldl_cons, extend, UInt32.not_not, ih, List.flatten_cons, List.foldl_append]

end Crc

theorem ChecksumKind.computeParts_eq (kind : ChecksumKind) (parts : List Bytes) :
    kind.computeParts parts = kind.compute parts.flatten := by
  cases kind with
  | null => rfl
  | crc32 => exact Crc.foldl_extend Crc.ieee 0xFFFFFFFF parts
  | crc32c => exact Crc.foldl_extend Crc.castagnoli 0xFFFFFFFF parts

namespace Checksum

variable {kind : ChecksumKind} {chunkSize : Nat} {header payload : Bytes}

def chunk (chunkSize : Nat) (covered : Bytes) (i : Nat) : Bytes :=
  (covered.drop (i * chunkSize)).take chunkSize

def storedSum (sums : Bytes) (i : Nat) : UInt32 :=
  UInt32.ofNat (Bytes.toNat ((sums.drop (4 * i)).take 4))

def Agrees (kind : ChecksumKind) (chunkSize : Nat) (covered sums : Bytes) (i : Nat) : Prop :=
  kind.compute (chunk chunkSize covered i) = storedSum sums i

theorem storedSum_drop (sums : Bytes) (i : Nat) :
    storedSum (sums.drop 4) i = storedSum sums (i + 1) := by
  rw [storedSum, storedSum, List.drop_drop, Nat.mul_succ, Nat.add_comm]

theorem check_eq_ok_iff {index : Nat} {chunks : List Bytes} {sums : Bytes} :
    check kind index chunks sums = .ok () ↔
      ∀ i, ∀ chunk ∈ chunks[i]?, kind.compute chunk = storedSum sums i := by
  induction chunks generalizing index sums with
  | nil => simp [check]
  | cons first chunks ih =>
    have start : UInt32.ofNat (Bytes.toNat (sums.take 4)) = storedSum sums 0 := rfl
    rw [check, start]
    constructor
    · intro passes
      split at passes
      · rename_i same
        rintro (_ | i) chunk member
        · cases member
          exact same
        · rw [← storedSum_drop]
          exact ih.1 passes i chunk member
      · cases passes
    · intro each
      rw [if_pos (each 0 first rfl), ih]
      intro i chunk member
      rw [storedSum_drop]
      exact each (i + 1) chunk member

theorem check_eq_mismatch {index i : Nat} {chunks : List Bytes} {sums chunk : Bytes}
    (here : chunks[i]? = some chunk) (differs : kind.compute chunk ≠ storedSum sums i)
    (before : ∀ j < i, ∀ chunk ∈ chunks[j]?, kind.compute chunk = storedSum sums j) :
    check kind index chunks sums =
      .error (.checksumMismatch (index + i) (storedSum sums i) (kind.compute chunk)) := by
  induction i generalizing index chunks sums with
  | zero =>
    cases chunks with
    | nil => cases here
    | cons first chunks =>
      cases here
      exact if_neg differs
  | succ i ih =>
    cases chunks with
    | nil => cases here
    | cons first chunks =>
      have same := before 0 (Nat.succ_pos i) first rfl
      rw [← storedSum_drop] at differs ⊢
      rw [← Nat.succ_add_eq_add_succ, ← ih here differs]
      · exact if_pos same
      · intro j less chunk member
        rw [storedSum_drop]
        exact before (j + 1) (Nat.succ_lt_succ less) chunk member

theorem parts?_eq {start stop : Nat} (ordered : start ≤ stop)
    (inside : stop ≤ header.length + payload.length) :
    ∃ parts, parts? header payload start stop = some parts
      ∧ parts.flatten = ((header ++ payload).drop start).take (stop - start) := by
  have first : min start header.length + (min stop header.length - min start header.length) ≤
      header.length := by omega
  have second : start - header.length + (stop - header.length - (start - header.length)) ≤
      payload.length := by omega
  have behind : stop - header.length - (start - header.length) =
      stop - start - (header.length - start) := by omega
  have before : (header.drop (min start header.length)).take
      (min stop header.length - min start header.length) =
        (header.drop start).take (stop - start) := by
    rcases Nat.le_total start header.length with early | late
    · rw [Nat.min_eq_left early, List.take_eq_take_iff, List.length_drop]
      omega
    · rw [Nat.min_eq_right late, List.drop_length, List.drop_of_length_le late, List.take_nil,
        List.take_nil]
  refine ⟨_, by simp only [parts?, Bytes.slice?, if_pos first, if_pos second]; rfl, ?_⟩
  rw [List.flatten_cons, List.flatten_singleton, before, behind, List.drop_append, List.take_append,
    List.length_drop]

theorem number_sum {sums : Bytes} {i : Nat} (inside : 4 * i + 4 ≤ sums.length) (what : String) :
    ∃ n after, (Input.startingAt sums (i * 4)).number what 4 = .ok (n, after)
      ∧ UInt32.ofNat n = storedSum sums i := by
  have cut : sums.slice? (i * 4) 4 = some ((sums.drop (i * 4)).take 4) := if_pos (by omega)
  refine ⟨_, .startingAt sums (i * 4 + 4), ?_, rfl⟩
  rw [CellLayout.number_startingAt (.inr (by decide)), CellLayout.numberAt, CellLayout.bytesAt, cut,
    Nat.mul_comm]
  rfl

section

variable {pos : 0 < chunkSize} {sums : Bytes} {index start : Nat}

theorem checkApart_of_le (done : header.length + payload.length ≤ start) :
    checkApart kind chunkSize pos header payload sums index start = some (.ok ()) := by
  rw [checkApart, if_neg (Nat.not_lt.2 done)]

theorem checkApart_of_lt (more : start < header.length + payload.length)
    (inside : 4 * index + 4 ≤ sums.length) :
    checkApart kind chunkSize pos header payload sums index start =
      let chunk := ((header ++ payload).drop start).take chunkSize
      if kind.compute chunk = storedSum sums index then
        checkApart kind chunkSize pos header payload sums (index + 1)
          (min (start + chunkSize) (header.length + payload.length))
      else some (.error (.checksumMismatch index (storedSum sums index) (kind.compute chunk))) := by
  let stop := min (start + chunkSize) (header.length + payload.length)
  obtain ⟨parts, taken, whole⟩ : ∃ parts, parts? header payload start stop = some parts
      ∧ parts.flatten = ((header ++ payload).drop start).take (stop - start) :=
    parts?_eq (by omega) (Nat.min_le_right _ _)
  obtain ⟨n, after, read, stored⟩ := number_sum inside "block checksums"
  have chunk : ((header ++ payload).drop start).take (stop - start) =
      ((header ++ payload).drop start).take chunkSize := by
    rw [List.take_eq_take_iff, List.length_drop, List.length_append]
    omega
  rw [checkApart, if_pos more]
  simp only [stop] at taken
  simp only [taken, read, stored, ChecksumKind.computeParts_eq, whole, chunk]

end

theorem checkApart_eq (pos : 0 < chunkSize) {sums : Bytes} {index start : Nat}
    (enough : 4 * (index + (pieces chunkSize ((header ++ payload).drop start)).length) ≤
      sums.length) :
    checkApart kind chunkSize pos header payload sums index start =
      some (check kind index (pieces chunkSize ((header ++ payload).drop start))
        (sums.drop (4 * index))) := by
  generalize left : (header ++ payload).drop start = rest at enough ⊢
  induction rest using pieces_induction pos generalizing index start with
  | nil =>
    rw [List.drop_eq_nil_iff, List.length_append] at left
    exact checkApart_of_le left
  | piece rest nonempty ih =>
    have more : start < header.length + payload.length := by
      rw [← left, ne_eq, List.drop_eq_nil_iff, List.length_append] at nonempty
      omega
    have behind : (header ++ payload).drop (min (start + chunkSize)
        (header.length + payload.length)) = rest.drop chunkSize := by
      rw [← left, List.drop_drop, List.drop_eq_drop_iff, List.length_append]
      omega
    rw [pieces_of_ne_nil pos nonempty] at enough ⊢
    rw [List.length_cons] at enough
    rw [checkApart_of_lt more (by omega), left, ih behind (by omega), check]
    simp only [storedSum, List.drop_drop, Nat.mul_succ]
    exact (apply_ite some _ _ _).symm

theorem verifyApart_eq (kind : ChecksumKind) (chunkSize : Nat) (header payload sums : Bytes) :
    verifyApart kind chunkSize header payload sums =
      some (verify kind chunkSize header payload sums) := by
  rw [verifyApart, verify]
  by_cases unchecked : kind = .null
  · rw [if_pos unchecked, if_pos unchecked]
  · rw [if_neg unchecked, if_neg unchecked]
    by_cases pos : 0 < chunkSize
    · rw [dif_pos pos, if_neg (Nat.pos_iff_ne_zero.1 pos)]
      simp only [List.length_append]
      split
      · rfl
      · rename_i enough
        refine checkApart_eq pos ?_
        rw [List.drop_zero, length_pieces pos, List.length_append]
        rw [sumsLength] at enough
        omega
    · rw [dif_neg pos, if_pos (Nat.eq_zero_of_not_pos pos)]

section

variable {covered sums : Bytes}

theorem getElem?_pieces_eq (pos : 0 < chunkSize) {i : Nat}
    (inside : i * chunkSize < covered.length) :
    (pieces chunkSize covered)[i]? = some (chunk chunkSize covered i) := by
  rw [getElem?_pieces pos, if_pos inside, chunk]

theorem check_pieces_eq_ok_iff (pos : 0 < chunkSize) :
    check kind 0 (pieces chunkSize covered) sums = .ok () ↔
      ∀ i, i * chunkSize < covered.length → Agrees kind chunkSize covered sums i := by
  rw [check_eq_ok_iff]
  refine forall_congr' fun i => ?_
  by_cases inside : i * chunkSize < covered.length
  · simp [getElem?_pieces_eq pos inside, inside, Agrees]
  · simp [getElem?_pieces pos, inside]

theorem check_pieces_eq_mismatch (pos : 0 < chunkSize) {i : Nat}
    (inside : i * chunkSize < covered.length) (differs : ¬ Agrees kind chunkSize covered sums i)
    (before : ∀ j < i, Agrees kind chunkSize covered sums j) :
    check kind 0 (pieces chunkSize covered) sums =
      .error (.checksumMismatch i (storedSum sums i)
        (kind.compute (chunk chunkSize covered i))) := by
  rw [check_eq_mismatch (getElem?_pieces_eq pos inside) differs, Nat.zero_add]
  intro j less piece member
  have insideToo := Nat.lt_of_le_of_lt (Nat.mul_le_mul_right chunkSize (Nat.le_of_lt less)) inside
  rw [getElem?_pieces_eq pos insideToo] at member
  cases member
  exact before j less

theorem verify_eq_check_pieces (checks : kind ≠ .null) (pos : 0 < chunkSize)
    (enough : 4 * (((header ++ payload).length + chunkSize - 1) / chunkSize) ≤ sums.length) :
    verify kind chunkSize header payload sums =
      check kind 0 (pieces chunkSize (header ++ payload)) sums := by
  rw [Nat.mul_comm] at enough
  rw [verify, if_neg checks, if_neg (Nat.pos_iff_ne_zero.1 pos)]
  exact if_neg (Nat.not_lt.2 enough)

theorem enough_of_verify (checks : kind ≠ .null)
    (passes : verify kind chunkSize header payload sums = .ok ()) :
    0 < chunkSize
      ∧ 4 * (((header ++ payload).length + chunkSize - 1) / chunkSize) ≤ sums.length := by
  rw [verify, if_neg checks] at passes
  by_cases zero : chunkSize = 0
  · rw [if_pos zero] at passes
    cases passes
  · rw [if_neg zero] at passes
    dsimp only [sumsLength] at passes
    refine ⟨Nat.pos_of_ne_zero zero, Nat.le_of_not_lt fun few => ?_⟩
    rw [if_pos (by omega)] at passes
    cases passes

theorem exists_first
    (differs : ¬ ∀ i, i * chunkSize < covered.length → Agrees kind chunkSize covered sums i) :
    ∃ i, i * chunkSize < covered.length ∧ ¬ Agrees kind chunkSize covered sums i
      ∧ ∀ j < i, Agrees kind chunkSize covered sums j := by
  classical
  simp only [Classical.not_forall] at differs
  obtain ⟨inside, unlike⟩ := Nat.find_spec differs
  refine ⟨Nat.find differs, inside, unlike, fun j less => ?_⟩
  have insideToo := Nat.lt_of_le_of_lt (Nat.mul_le_mul_right chunkSize (Nat.le_of_lt less)) inside
  exact Classical.not_not.1 fun unlikeToo => Nat.find_min differs less ⟨insideToo, unlikeToo⟩

end

/-- A block passes just when there is a checksum for every chunk of its header and payload put
together and each chunk goes with its own; else, when there are enough of them, the first chunk that
does not is named. Where the header ends makes no difference, although the chunks are taken apart
there. -/
theorem verify_chunks (checks : kind ≠ .null) (chunkSize : Nat) (header payload sums : Bytes) :
    let covered := header ++ payload
    let needed := 4 * ((covered.length + chunkSize - 1) / chunkSize)
    verifyApart kind chunkSize header payload sums =
        some (verify kind chunkSize header payload sums)
      ∧ (verify kind chunkSize header payload sums = .ok () ↔
        0 < chunkSize ∧ needed ≤ sums.length
          ∧ ∀ i, i * chunkSize < covered.length → Agrees kind chunkSize covered sums i)
      ∧ (0 < chunkSize → needed ≤ sums.length →
        (¬ ∀ i, i * chunkSize < covered.length → Agrees kind chunkSize covered sums i) →
          ∃ i, i * chunkSize < covered.length ∧ ¬ Agrees kind chunkSize covered sums i
            ∧ (∀ j < i, Agrees kind chunkSize covered sums j)
            ∧ verify kind chunkSize header payload sums =
              .error (.checksumMismatch i (storedSum sums i)
                (kind.compute (chunk chunkSize covered i))))
      ∧ ∀ header' payload', header' ++ payload' = covered →
        verifyApart kind chunkSize header' payload' sums =
          verifyApart kind chunkSize header payload sums := by
  refine ⟨verifyApart_eq kind chunkSize header payload sums, ⟨?_, ?_⟩, ?_, ?_⟩
  · intro passes
    obtain ⟨pos, enough⟩ := enough_of_verify checks passes
    rw [verify_eq_check_pieces checks pos enough] at passes
    exact ⟨pos, enough, (check_pieces_eq_ok_iff pos).1 passes⟩
  · rintro ⟨pos, enough, each⟩
    rw [verify_eq_check_pieces checks pos enough]
    exact (check_pieces_eq_ok_iff pos).2 each
  · intro pos enough differs
    obtain ⟨i, inside, unlike, before⟩ := exists_first differs
    refine ⟨i, inside, unlike, before, ?_⟩
    rw [verify_eq_check_pieces checks pos enough]
    exact check_pieces_eq_mismatch pos inside unlike before
  · intro header' payload' same
    rw [verifyApart_eq, verifyApart_eq, verify, verify, same]

theorem verify_chunks_spanning :
    ChecksumKind.crc32c ≠ .null
      ∧ 4 * ((5 + 2 - 1) / 2) ≤ (sums .crc32c 2 [1, 2, 3, 4, 5]).length
      ∧ (∀ i, i * 2 < 5 → Agrees .crc32c 2 [1, 2, 3, 4, 5] (sums .crc32c 2 [1, 2, 3, 4, 5]) i)
      ∧ verifyApart .crc32c 2 [1, 2, 3] [4, 5] (sums .crc32c 2 [1, 2, 3, 4, 5]) =
        some (.ok ()) := by
  have each : ∀ i, i * 2 < 5 →
      Agrees .crc32c 2 [1, 2, 3, 4, 5] (sums .crc32c 2 [1, 2, 3, 4, 5]) i := by
    intro i inside
    have three : i < 3 := by omega
    clear inside
    unfold Agrees
    decide +revert +kernel
  have enough : 4 * ((5 + 2 - 1) / 2) ≤ (sums .crc32c 2 [1, 2, 3, 4, 5]).length := by
    decide +kernel
  have checks : ChecksumKind.crc32c ≠ .null := by decide
  obtain ⟨apart, passes, -, -⟩ := verify_chunks checks 2 [1, 2, 3] [4, 5]
    (sums .crc32c 2 [1, 2, 3, 4, 5])
  refine ⟨checks, enough, each, ?_⟩
  rw [apart, passes.2 ⟨by decide, enough, each⟩]

end Checksum

end CellStore
