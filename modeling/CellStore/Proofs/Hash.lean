import CellStore.Hash.Rounds
import CellStore.Proofs.Pieces

namespace CellStore

namespace Rounds

theorem shiftLeft_eight (a : UInt32) : a <<< 8 <<< 8 = a <<< 16 ∧ a <<< 16 <<< 8 = a <<< 24 :=
  ⟨(UInt32.shiftLeft_add (by decide) (by decide) (by decide)).symm,
    (UInt32.shiftLeft_add (by decide) (by decide) (by decide)).symm⟩

theorem word_eq (bytes : Bytes) : word bytes = lowWord (bytes.take 4) := by
  match bytes with
  | [] => rfl
  | [a] => simp [word, lowWord]
  | [a, b] => simp [word, lowWord]
  | [a, b, c] => simp [word, lowWord, UInt32.shiftLeft_or, shiftLeft_eight, UInt32.or_assoc]
  | a :: b :: c :: d :: rest =>
    simp [word, lowWord, UInt32.shiftLeft_or, shiftLeft_eight, UInt32.or_assoc]

namespace Lanes

theorem add_take (s : Lanes) (bytes : Bytes) : s.add (bytes.take 12) = s.add bytes := by
  simp [add, word_eq, List.take_take, List.drop_take]

theorem absorb_succ (s : Lanes) (rounds : Nat) (bytes : Bytes) :
    Jenkins.absorb (rounds + 1) s.a s.b s.c bytes =
      Jenkins.absorb rounds (s.add bytes).mix.a (s.add bytes).mix.b (s.add bytes).mix.c
        (bytes.drop 12) := by
  simp only [Jenkins.absorb, add, mix, word_eq]

theorem finish_add (s : Lanes) {bytes : Bytes} (short : bytes.length ≤ 12) :
    (s.add bytes).finish = Jenkins.finish s.a s.b s.c bytes := by
  have second : (if 4 < bytes.length then s.b + lowWord ((bytes.drop 4).take 4) else s.b) =
      s.b + lowWord ((bytes.drop 4).take 4) := by
    split
    · rfl
    · rw [List.drop_of_length_le (by omega)]
      simp [lowWord]
  have third : (if 8 < bytes.length then s.c + lowWord (bytes.drop 8) else s.c) =
      s.c + lowWord ((bytes.drop 8).take 4) := by
    rw [List.take_of_length_le (by rw [List.length_drop]; omega)]
    split
    · rfl
    · rw [List.drop_of_length_le (by omega)]
      simp [lowWord]
  simp only [Jenkins.finish, second, third, finish, add, word_eq]

theorem absorb_eq {key : Bytes} (nonempty : key ≠ []) (s : Lanes) :
    ∃ last mixed, last ≠ [] ∧ last.length ≤ 12 ∧ (pieces 12 key).getLast? = some last
      ∧ (pieces 12 key).dropLast.foldl (fun (s : Lanes) block => (s.add block).mix) s = mixed
      ∧ Jenkins.absorb ((key.length - 1) / 12) s.a s.b s.c key =
        (mixed.a, mixed.b, mixed.c, last) := by
  generalize count : (key.length - 1) / 12 = rounds
  induction rounds generalizing key s with
  | zero =>
    have short : key.length ≤ 12 := by omega
    refine ⟨key, s, nonempty, short, ?_, ?_, rfl⟩
    · rw [pieces_of_length_le nonempty short, List.getLast?_singleton]
    · rw [pieces_of_length_le nonempty short]
      rfl
  | succ rounds ih =>
    have rest : key.drop 12 ≠ [] := by
      rw [← List.length_pos_iff, List.length_drop]
      omega
    have fewer : ((key.drop 12).length - 1) / 12 = rounds := by
      rw [List.length_drop]
      omega
    obtain ⟨last, mixed, some, short, final, folded, absorbed⟩ := ih rest (s.add key).mix fewer
    have more : pieces 12 (key.drop 12) ≠ [] := by
      intro none
      rw [none] at final
      cases final
    refine ⟨last, mixed, some, short, ?_, ?_, ?_⟩
    · rw [pieces_of_ne_nil (by omega) nonempty, List.getLast?_cons_of_ne_nil more, final]
    · rw [pieces_of_ne_nil (by omega) nonempty, List.dropLast_cons_of_ne_nil more,
        List.foldl_cons, add_take, folded]
    · rw [absorb_succ, absorbed]

end Lanes

theorem jenkins_eq (key : Bytes) (seed : UInt32) : jenkins key seed = Jenkins.hash key seed := by
  by_cases empty : key = []
  · subst empty
    rfl
  · let start := 0xDEADBEEF + UInt32.ofNat key.length + seed
    obtain ⟨last, mixed, filled, short, final, folded, absorbed⟩ :=
      Lanes.absorb_eq empty ⟨start, start, start⟩
    simp only [jenkins, Jenkins.hash]
    rw [folded, final, absorbed]
    cases last with
    | nil => exact (filled rfl).elim
    | cons b last => exact Lanes.finish_add mixed short

theorem words_of_length_lt {key : Bytes} (short : key.length < 4) : words key = ([], key) := by
  by_cases empty : key = []
  · subst empty
    rfl
  · simp [words, pieces_of_length_le empty (Nat.le_of_lt short), Nat.ne_of_lt short]

theorem words_of_le_length {key : Bytes} (long : 4 ≤ key.length) :
    words key = (key.take 4 :: (words (key.drop 4)).1, (words (key.drop 4)).2) := by
  have nonempty : key ≠ [] := by
    rintro rfl
    simp at long
  have whole : (key.take 4).length = 4 := List.length_take_of_le long
  simp [words, pieces_of_ne_nil (show 0 < 4 by decide) nonempty, whole]

theorem length_words (key : Bytes) : (words key).2.length < 4 := by
  generalize count : key.length / 4 = rounds
  induction rounds generalizing key with
  | zero =>
    have short : key.length < 4 := by omega
    rwa [words_of_length_lt short]
  | succ rounds ih =>
    rw [words_of_le_length (by omega)]
    apply ih
    rw [List.length_drop]
    omega

theorem absorb_eq {absorb : Nat → UInt32 → Bytes → UInt32 × Bytes}
    {step : UInt32 → Bytes → UInt32} (none : ∀ h rest, absorb 0 h rest = (h, rest))
    (more : ∀ rounds h rest, absorb (rounds + 1) h rest =
      absorb rounds (step h (rest.take 4)) (rest.drop 4)) (h : UInt32) (key : Bytes) :
    absorb (key.length / 4) h key = ((words key).1.foldl step h, (words key).2) := by
  generalize count : key.length / 4 = rounds
  induction rounds generalizing key h with
  | zero =>
    rw [none, words_of_length_lt (by omega)]
    rfl
  | succ rounds ih =>
    have fewer : (key.drop 4).length / 4 = rounds := by
      rw [List.length_drop]
      omega
    rw [more, words_of_le_length (by omega), ih _ _ fewer, List.foldl_cons]

theorem murmurTail_eq (h : UInt32) {tail : Bytes} (short : tail.length < 4) :
    (if tail.isEmpty then h else Murmur.multiplier * tail.zipIdx.foldr
      (fun (b, i) h => h ^^^ signedWord b <<< (8 * UInt32.ofNat i)) h) =
        Murmur.absorbTail h tail := by
  match tail with
  | [] => rfl
  | [a] => simp [Murmur.absorbTail, UInt32.mul_comm]
  | [a, b] => simp [Murmur.absorbTail, UInt32.mul_comm]
  | [a, b, c] => simp [Murmur.absorbTail, UInt32.mul_comm]
  | a :: b :: c :: d :: tail =>
    simp only [List.length_cons] at short
    omega

theorem murmur_eq (key : Bytes) (seed : UInt32) : murmur key seed = Murmur.hash key seed := by
  have absorbed (h : UInt32) : Murmur.absorb (key.length / 4) h key =
      ((words key).1.foldl (fun h block =>
        let k := word block * (0x5BD1E995 : UInt32)
        h * (0x5BD1E995 : UInt32) ^^^ (k ^^^ k >>> 24) * (0x5BD1E995 : UInt32)) h,
        (words key).2) := by
    refine absorb_eq (fun _ _ => rfl) (fun rounds h rest => ?_) h key
    simp only [Murmur.absorb, Murmur.multiplier, word_eq, List.take_take, Nat.min_self]
  have tail (h : UInt32) := murmurTail_eq h (length_words key)
  simp only [Murmur.multiplier] at tail
  simp only [murmur, Murmur.hash, absorbed, ← tail, Murmur.multiplier]

theorem murmur3_eq (key : Bytes) (seed : UInt32) : murmur3 key seed = Murmur3.hash key seed := by
  have absorbed (h : UInt32) : Murmur3.absorb (key.length / 4) h key =
      ((words key).1.foldl (fun h block => rotateLeft
        (h ^^^ rotateLeft (word block * 0xCC9E2D51) 15 * 0x1B873593) 13 * 5 + 0xE6546B64) h,
        (words key).2) := by
    refine absorb_eq (fun _ _ => rfl) (fun rounds h rest => ?_) h key
    simp only [Murmur3.absorb, word_eq, List.take_take, Nat.min_self]
  have tail : word (words key).2 = lowWord (words key).2 := by
    rw [word_eq, List.take_of_length_le (Nat.le_of_lt (length_words key))]
  simp only [murmur3, Murmur3.hash, absorbed, tail]

end Rounds

theorem HashKind.hashByRounds_eq (kind : HashKind) (key : Bytes) (seed : Int32) :
    kind.hashByRounds key seed = kind.hash key seed := by
  cases kind with
  | jenkins => exact congrArg UInt32.toInt32 (Rounds.jenkins_eq key _)
  | murmur => exact congrArg UInt32.toInt32 (Rounds.murmur_eq key _)
  | murmur3 => exact congrArg UInt32.toInt32 (Rounds.murmur3_eq key _)

/-- The number that a filter keeps of the function it was filled by leads its readers to one that
hashes every key with every seed to the same. -/
theorem HashKind.hash_ofId (kind : HashKind) (key : Bytes) (seed : Int32) :
    (ofId kind.id).map (·.hash key seed) = .ok (kind.hashByRounds key seed) := by
  rw [ofId_id, hashByRounds_eq]
  rfl

end CellStore
