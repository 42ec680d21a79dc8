import CellStore.Proofs.Block

/-! Checksums tell bytes from all that differ from them in a single one, which may be one of the
checksums' own. -/

namespace CellStore

namespace Bytes

/-- The bytes with the bits of `mask` flipped in the one at `position`. -/
def flip (bytes : Bytes) (position : Nat) (mask : UInt8) : Bytes :=
  bytes.modify position (· ^^^ mask)

variable {bytes more : Bytes} {position : Nat} {mask : UInt8}

@[simp] theorem length_flip (bytes : Bytes) (position : Nat) (mask : UInt8) :
    (flip bytes position mask).length = bytes.length := List.length_modify ..

theorem take_flip (bytes : Bytes) (position : Nat) (mask : UInt8) (n : Nat) :
    (flip bytes position mask).take n = flip (bytes.take n) position mask := List.take_modify ..

theorem drop_flip_of_lt {n : Nat} (lt : position < n) :
    (flip bytes position mask).drop n = bytes.drop n := List.drop_modify_of_lt _ _ _ _ lt

theorem drop_flip_of_le {n : Nat} (le : n ≤ position) :
    (flip bytes position mask).drop n = flip (bytes.drop n) (position - n) mask :=
  List.drop_modify_of_ge _ _ _ _ le

theorem flip_of_le (outside : bytes.length ≤ position) : flip bytes position mask = bytes :=
  List.modify_eq_self outside

theorem exists_flip (inside : position < bytes.length) (flips : mask ≠ 0) :
    ∃ before b b' after, b ≠ b' ∧ bytes = before ++ b :: after
      ∧ flip bytes position mask = before ++ b' :: after := by
  obtain ⟨before, b, after, whole, -, flipped⟩ := List.exists_of_modify (· ^^^ mask) inside
  refine ⟨before, b, b ^^^ mask, after, fun same => flips ?_, whole, flipped⟩
  rwa [← UInt8.xor_right_inj b, UInt8.xor_zero, eq_comm]

theorem flip_ne (inside : position < bytes.length) (flips : mask ≠ 0) :
    flip bytes position mask ≠ bytes := by
  obtain ⟨before, b, b', after, differ, whole, flipped⟩ := exists_flip inside flips
  rw [flipped, whole]
  simpa using differ.symm

theorem flip_append_of_lt (inside : position < bytes.length) :
    flip (bytes ++ more) position mask = flip bytes position mask ++ more := by
  rw [← List.take_append_drop bytes.length (flip (bytes ++ more) position mask), take_flip,
    List.take_left, drop_flip_of_lt inside, List.drop_left]

theorem flip_append_of_le (outside : bytes.length ≤ position) :
    flip (bytes ++ more) position mask = bytes ++ flip more (position - bytes.length) mask := by
  rw [← List.take_append_drop bytes.length (flip (bytes ++ more) position mask), take_flip,
    List.take_left, flip_of_le outside, drop_flip_of_le outside, List.drop_left]

theorem part_flip {start width : Nat} (outside : position < start ∨ start + width ≤ position) :
    ((flip bytes position mask).drop start).take width = (bytes.drop start).take width := by
  rcases outside with before | behind
  · rw [drop_flip_of_lt before]
  · rw [drop_flip_of_le (by omega), take_flip, flip_of_le]
    simp only [List.length_take]
    omega

end Bytes

namespace Crc

variable {polynomial : UInt32}

/-- Dividing a bit out loses nothing: the highest bit of what is left tells which bit it was. -/
theorem shift_injective (high : 0x8000_0000 ≤ polynomial.toNat) :
    Function.Injective (shift polynomial) := by
  intro r s same
  have half (x : UInt32) : (x >>> 1).toNat = x.toNat / 2 := by
    rw [UInt32.toNat_shiftRight]
    exact Nat.shiftRight_eq_div_pow ..
  have odd (x : UInt32) : x &&& 1 = 1 ↔ x.toNat % 2 = 1 := by
    rw [← UInt32.toNat_inj, UInt32.toNat_and, ← Nat.and_one_is_mod]
    rfl
  have below (x : UInt32) : (x >>> 1).toNat < 0x8000_0000 := by
    have := x.toNat_lt
    rw [half]
    omega
  have apart (x y : UInt32) : x >>> 1 ^^^ polynomial ≠ y >>> 1 := by
    intro equal
    have solved : polynomial = x >>> 1 ^^^ y >>> 1 := by
      rw [← equal, ← UInt32.xor_assoc, UInt32.xor_self, UInt32.zero_xor]
    rw [solved, UInt32.toNat_xor] at high
    have := Nat.xor_lt_two_pow (n := 31) (below x) (below y)
    omega
  have whole (halves : r >>> 1 = s >>> 1) (parity : r.toNat % 2 = s.toNat % 2) : r = s := by
    have quotient := congrArg UInt32.toNat halves
    rw [half, half] at quotient
    apply UInt32.toNat_inj.1
    omega
  simp only [shift, odd] at same
  split at same <;> split at same
  · exact whole ((UInt32.xor_left_inj polynomial).1 same) (by omega)
  · exact (apart r s same).elim
  · exact (apart s r same.symm).elim
  · exact whole same (by omega)

theorem shifts_injective (high : 0x8000_0000 ≤ polynomial.toNat) (n : Nat) :
    Function.Injective (shifts polynomial n) := by
  induction n with
  | zero => exact fun _ _ => id
  | succ n ih => exact ih.comp (shift_injective high)

theorem foldl_step_injective (high : 0x8000_0000 ≤ polynomial.toNat) (bytes : Bytes) :
    Function.Injective fun remainder => bytes.foldl (step polynomial) remainder := by
  induction bytes with
  | nil => exact fun _ _ => id
  | cons b bytes ih =>
    intro r s same
    exact (UInt32.xor_left_inj b.toUInt32).1 (shifts_injective high 8 (ih same))

theorem sum_ne (high : 0x8000_0000 ≤ polynomial.toNat) {before after : Bytes} {b b' : UInt8}
    (differ : b ≠ b') : sum polynomial (before ++ b :: after) ≠
      sum polynomial (before ++ b' :: after) := by
  intro same
  rw [sum, sum, UInt32.not_inj, List.foldl_append, List.foldl_append] at same
  have stepped := shifts_injective high 8 (foldl_step_injective high after same)
  exact differ (UInt8.toUInt32_inj.1 ((UInt32.xor_right_inj _).1 stepped))

end Crc

variable {kind : ChecksumKind} {chunkSize position : Nat} {mask : UInt8}

theorem ChecksumKind.compute_flip_ne (checks : kind ≠ .null) {bytes : Bytes}
    (inside : position < bytes.length) (flips : mask ≠ 0) :
    kind.compute (Bytes.flip bytes position mask) ≠ kind.compute bytes := by
  obtain ⟨before, b, b', after, differ, whole, flipped⟩ := Bytes.exists_flip inside flips
  rw [flipped, whole]
  cases kind with
  | null => exact (checks rfl).elim
  | crc32 => exact Crc.sum_ne (by decide) differ.symm
  | crc32c => exact Crc.sum_ne (by decide) differ.symm

namespace Checksum

variable {covered other : Bytes}

theorem sums_of_ne_nil (pos : 0 < chunkSize) (nonempty : covered ≠ []) :
    sums kind chunkSize covered =
      Bytes.ofNat 4 (kind.compute (covered.take chunkSize)).toNat
        ++ sums kind chunkSize (covered.drop chunkSize) := by
  rw [sums, pieces_of_ne_nil pos nonempty, List.flatMap_cons]
  rfl

theorem check_flip (checks : kind ≠ .null) (pos : 0 < chunkSize) (flips : mask ≠ 0)
    (inside : position < covered.length) (index : Nat) :
    ∃ stored computed, check kind index (pieces chunkSize (Bytes.flip covered position mask))
        (sums kind chunkSize covered) =
      .error (.checksumMismatch (index + position / chunkSize) stored computed) := by
  induction covered using pieces_induction pos generalizing position index with
  | nil => simp at inside
  | piece covered nonempty ih =>
    have flipped : Bytes.flip covered position mask ≠ [] :=
      List.length_pos_iff.1 (by rw [Bytes.length_flip]; omega)
    rw [pieces_of_ne_nil pos flipped, sums_of_ne_nil pos nonempty, check_cons, Bytes.take_flip]
    -- The byte is in the first chunk, which has another checksum then, or behind it.
    by_cases here : position < chunkSize
    · have inFirst : position < (covered.take chunkSize).length := by
        rw [List.length_take]
        omega
      rw [if_neg (ChecksumKind.compute_flip_ne checks inFirst flips), Nat.div_eq_of_lt here]
      exact ⟨_, _, rfl⟩
    · have behind := Nat.le_of_not_lt here
      have inLater : position - chunkSize < (covered.drop chunkSize).length := by
        rw [List.length_drop]
        omega
      have outside : (covered.take chunkSize).length ≤ position := by
        rw [List.length_take]
        omega
      have count : index + position / chunkSize =
          index + 1 + (position - chunkSize) / chunkSize := by
        rw [Nat.div_eq_sub_div pos behind]
        omega
      rw [Bytes.flip_of_le outside, if_pos rfl, Bytes.drop_flip_of_le behind, count]
      exact ih inLater (index + 1)

theorem sums_flip_ne (checks : kind ≠ .null) (pos : 0 < chunkSize) (flips : mask ≠ 0)
    (inside : position < covered.length) :
    sums kind chunkSize (Bytes.flip covered position mask) ≠ sums kind chunkSize covered := by
  intro same
  obtain ⟨_, _, mismatch⟩ := check_flip checks pos flips inside 0
  rw [← same, sums, check_sums] at mismatch
  cases mismatch

theorem flip_sums_ne (checks : kind ≠ .null) (pos : 0 < chunkSize) (flips : mask ≠ 0)
    (inside : position < (covered ++ sums kind chunkSize covered).length)
    (length : other.length = covered.length) :
    Bytes.flip (covered ++ sums kind chunkSize covered) position mask ≠
      other ++ sums kind chunkSize other := by
  intro whole
  by_cases early : position < covered.length
  · rw [Bytes.flip_append_of_lt early] at whole
    obtain ⟨rfl, same⟩ := List.append_inj whole (by rw [Bytes.length_flip, length])
    exact sums_flip_ne checks pos flips early same.symm
  · rw [Bytes.flip_append_of_le (by omega)] at whole
    obtain ⟨rfl, same⟩ := List.append_inj whole length.symm
    rw [List.length_append] at inside
    exact Bytes.flip_ne (by omega) flips same

theorem eq_of_word {bytes : Bytes} {word : UInt32} (length : bytes.length = 4)
    (read : UInt32.ofNat (Bytes.toNat bytes) = word) : bytes = Bytes.ofNat 4 word.toNat := by
  have bound := Bytes.toNat_lt bytes
  have digits := Bytes.ofNat_toNat bytes
  rw [length] at bound digits
  rw [← read, UInt32.toNat_ofNat', Nat.mod_eq_of_lt (by omega), digits]

theorem check_flip_sums (kind : ChecksumKind) (flips : mask ≠ 0) {chunks : List Bytes}
    (inside : position < 4 * chunks.length) (index : Nat) :
    ∃ stored computed, check kind index chunks
        (Bytes.flip (chunks.flatMap fun chunk => Bytes.ofNat 4 (kind.compute chunk).toNat) position
          mask) =
      .error (.checksumMismatch (index + position / 4) stored computed) := by
  induction chunks generalizing position index with
  | nil => simp at inside
  | cons chunk chunks ih =>
    rw [List.length_cons] at inside
    rw [List.flatMap_cons]
    have length := Bytes.length_ofNat 4 (kind.compute chunk).toNat
    by_cases here : position < 4
    · have inFirst : position < (Bytes.ofNat 4 (kind.compute chunk).toNat).length := by omega
      have flipped : (Bytes.flip (Bytes.ofNat 4 (kind.compute chunk).toNat) position mask).length =
          4 := by
        rw [Bytes.length_flip, length]
      rw [Bytes.flip_append_of_lt inFirst, check, List.take_left' flipped, Nat.div_eq_of_lt here,
        if_neg fun same => Bytes.flip_ne inFirst flips (eq_of_word flipped same.symm)]
      exact ⟨_, _, rfl⟩
    · have count : index + position / 4 = index + 1 + (position - 4) / 4 := by omega
      rw [Bytes.flip_append_of_le (by omega), check_cons, if_pos rfl, length, count]
      exact ih (by omega) (index + 1)

theorem eq_sums_of_check {index : Nat} {chunks : List Bytes} {stored : Bytes}
    (enough : 4 * chunks.length ≤ stored.length)
    (passes : check kind index chunks stored = .ok ()) :
    stored.take (4 * chunks.length) =
      chunks.flatMap fun chunk => Bytes.ofNat 4 (kind.compute chunk).toNat := by
  induction chunks generalizing index stored with
  | nil => rfl
  | cons chunk chunks ih =>
    rw [List.length_cons] at enough ⊢
    rw [check] at passes
    split at passes
    · rename_i same
      have word : stored.take 4 = Bytes.ofNat 4 (kind.compute chunk).toNat :=
        eq_of_word (List.length_take_of_le (by omega)) same.symm
      have rest := ih (by rw [List.length_drop]; omega) passes
      rw [Nat.mul_succ, Nat.add_comm, List.take_add, word, rest, List.flatMap_cons]
    · cases passes

theorem eq_sums_of_verify {header payload stored : Bytes} (checks : kind ≠ .null)
    (passes : verify kind chunkSize header payload stored = .ok ()) :
    stored.take (sumsLength (header ++ payload).length chunkSize) =
      sums kind chunkSize (header ++ payload) := by
  rw [verify, if_neg checks] at passes
  split at passes
  · cases passes
  · rename_i positive
    simp only at passes
    split at passes
    · cases passes
    · rename_i enough
      have count : sumsLength (header ++ payload).length chunkSize =
          4 * (pieces chunkSize (header ++ payload)).length := by
        rw [sumsLength, length_pieces (Nat.pos_of_ne_zero positive), Nat.mul_comm]
      rw [count] at enough ⊢
      exact eq_sums_of_check (by omega) passes

end Checksum

end CellStore
