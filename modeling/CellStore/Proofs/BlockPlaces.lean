import CellStore.Proofs.Damage
import CellStore.Traced

namespace CellStore

theorem eq_or_le_of_take_eq {α : Type} {xs ys : List α} {n : Nat} (same : xs.take n = ys.take n) :
    xs = ys ∨ (n ≤ xs.length ∧ n ≤ ys.length) := by
  have lengths := congrArg List.length same
  rw [List.length_take, List.length_take] at lengths
  by_cases short : xs.length < n
  · rw [List.take_of_length_le (by omega), List.take_of_length_le (by omega)] at same
    exact .inl same
  · exact .inr (by omega)

namespace BlockHeader

theorem parse_take {bytes : Bytes} {n : Nat} (enough : size ≤ n) (whole : size ≤ bytes.length) :
    parse (bytes.take n) = parse bytes := by
  have part (start width : Nat) (inside : start + width ≤ size) :
      ((bytes.take n).drop start).take width = (bytes.drop start).take width := by
    rw [List.drop_take, List.take_take, Nat.min_eq_left (by omega)]
  have magic : (bytes.take n).take 8 = bytes.take 8 := part 0 8 (by decide)
  have field (start : Nat) (inside : start + 4 ≤ size) (name : String) :
      sizeField (bytes.take n) start name = sizeField bytes start name := by
    rw [sizeField, sizeField, part start 4 inside]
  have found {bytes : Bytes} (whole : size ≤ bytes.length) :
      ¬ (bytes.take size).length < size := by
    rw [List.length_take]
    omega
  have cut : size ≤ (bytes.take n).length := by
    rw [List.length_take]
    omega
  simp only [parse, found whole, found cut, if_false, magic, part 16 8 (by decide),
    part 24 1 (by decide), field 8 (by decide), field 12 (by decide), field 25 (by decide),
    field 29 (by decide)]

theorem parse_of_short {bytes : Bytes} (short : bytes.length < size) :
    parse bytes = .error (.truncated "block header" size bytes.length) := by
  have cut : (bytes.take size).length < size := by
    rw [List.length_take]
    omega
  rw [parse, if_pos cut]
  rfl

end BlockHeader

namespace Block

/-- How many bytes are looked at to parse the block at the start of `bytes`. -/
def reach (bytes : Bytes) : Nat :=
  match BlockHeader.parse bytes with
  | .ok header => header.onDiskSizeWithHeader
  | .error _ => BlockHeader.size

variable {bytes : Bytes} {header : BlockHeader}

theorem reach_of_parse (parsed : BlockHeader.parse bytes = .ok header) :
    reach bytes = header.onDiskSizeWithHeader := by
  rw [reach, parsed]

theorem reach_of_error {error : FormatError} (fails : BlockHeader.parse bytes = .error error) :
    reach bytes = BlockHeader.size := by
  rw [reach, fails]

theorem size_le_reach (bytes : Bytes) : BlockHeader.size ≤ reach bytes := by
  rw [reach]
  split
  · exact Nat.le_add_right ..
  · exact Nat.le_refl _

theorem reach_take {n : Nat} (enough : BlockHeader.size ≤ n)
    (whole : BlockHeader.size ≤ bytes.length) : reach (bytes.take n) = reach bytes := by
  rw [reach, reach, BlockHeader.parse_take enough whole]

def missing (bytes : Bytes) : String :=
  if bytes.length < BlockHeader.size then "block header" else "block body"

section

variable (bytes) (offset : Nat) (codec : Codec)

theorem parse_of_short (short : bytes.length < reach bytes) :
    parse bytes offset codec = .error (.truncated (missing bytes) (reach bytes) bytes.length) := by
  by_cases cut : bytes.length < BlockHeader.size
  · have fails := BlockHeader.parse_of_short cut
    rw [parse, fails, reach_of_error fails, missing, if_pos cut]
    rfl
  · cases parsed : BlockHeader.parse bytes with
    | error error => exact absurd (reach_of_error parsed ▸ short) cut
    | ok header =>
      rw [reach_of_parse parsed] at short
      have cut' : (bytes.take header.onDiskSizeWithHeader).length <
          header.onDiskSizeWithHeader := by
        rw [List.length_take]
        omega
      rw [parse, parsed, reach_of_parse parsed, missing, if_neg cut, ok_bind]
      dsimp only
      rw [if_pos cut']
      rfl

theorem parse_take_reach (fits : reach bytes ≤ bytes.length) :
    parse (bytes.take (reach bytes)) offset codec = parse bytes offset codec := by
  have enough := size_le_reach bytes
  have whole := Nat.le_trans enough fits
  rw [parse, parse, BlockHeader.parse_take enough whole]
  cases parsed : BlockHeader.parse bytes with
  | error error => rfl
  | ok header =>
    rw [reach_of_parse parsed] at enough fits ⊢
    have long : ¬ (bytes.take header.onDiskSizeWithHeader).length <
        header.onDiskSizeWithHeader := by
      rw [List.length_take]
      omega
    simp only [ok_bind, List.take_take, Nat.min_self, Nat.min_eq_left enough, long, if_false]

theorem parse_congr {others : Bytes}
    (same : others.take (reach bytes) = bytes.take (reach bytes)) :
    parse others offset codec = parse bytes offset codec := by
  obtain rfl | ⟨fits', fits⟩ := eq_or_le_of_take_eq same
  · rfl
  · have enough := size_le_reach bytes
    have alike : reach others = reach bytes := by
      rw [← reach_take enough (Nat.le_trans enough fits'), same,
        reach_take enough (Nat.le_trans enough fits)]
    rw [← parse_take_reach bytes offset codec fits, ← same, ← alike,
      parse_take_reach others offset codec (alike ▸ fits')]

end

section

variable (source : Source) (offset : Nat) (codec : Codec)

theorem read_of_short (short : source.size < offset + reach (source.bytes.drop offset)) :
    read source offset codec =
      .error (.format (.truncated (missing (source.bytes.drop offset))
        (min (offset + reach (source.bytes.drop offset)) 0xFFFF_FFFF_FFFF_FFFF) source.size)) := by
  have length : (source.bytes.drop offset).length = source.size - offset := by
    rw [List.length_drop, source.size_eq]
  have pos : 0 < BlockHeader.size := by decide
  by_cases cut : source.size < offset + BlockHeader.size
  · have cut' : (source.bytes.drop offset).length < BlockHeader.size := by omega
    rw [read, fetch_of_short cut, reach_of_error (BlockHeader.parse_of_short cut'),
      missing, if_pos cut']
    rfl
  · have whole : ¬ (source.bytes.drop offset).length < BlockHeader.size := by omega
    have header := BlockHeader.parse_take (Nat.le_refl _) (Nat.le_of_not_lt whole)
    rw [read, fetch_of_fits (Nat.le_of_not_lt cut), ok_bind, header]
    cases parsed : BlockHeader.parse (source.bytes.drop offset) with
    | error error => exact absurd (reach_of_error parsed ▸ short) cut
    | ok header =>
      rw [reach_of_parse parsed, BlockHeader.onDiskSizeWithHeader, ← Nat.add_assoc] at short
      rw [reach_of_parse parsed, BlockHeader.onDiskSizeWithHeader, ← Nat.add_assoc, missing,
        if_neg whole, liftM_decoded_ok, ok_bind, fetch_of_short short]
      rfl

theorem read_of_fits (fits : offset + reach (source.bytes.drop offset) ≤ source.size) :
    read source offset codec = liftM (parse (source.bytes.drop offset) offset codec) := by
  have length : (source.bytes.drop offset).length = source.size - offset := by
    rw [List.length_drop, source.size_eq]
  have enough := size_le_reach (source.bytes.drop offset)
  have whole : BlockHeader.size ≤ (source.bytes.drop offset).length := by omega
  rw [read, fetch_of_fits (by omega), ok_bind,
    BlockHeader.parse_take (Nat.le_refl _) whole, parse]
  cases parsed : BlockHeader.parse (source.bytes.drop offset) with
  | error error => rfl
  | ok header =>
    rw [reach_of_parse parsed] at fits enough
    have long : ¬ ((source.bytes.drop offset).take header.onDiskSizeWithHeader).length <
        header.onDiskSizeWithHeader := by
      rw [List.length_take]
      omega
    have room : offset + BlockHeader.size + header.onDiskSize ≤ source.size := by
      rw [Nat.add_assoc]
      exact fits
    rw [liftM_decoded_ok, ok_bind, fetch_of_fits room, ok_bind, ok_bind]
    dsimp only
    rw [if_neg long, List.drop_take, List.drop_drop, BlockHeader.onDiskSizeWithHeader,
      Nat.add_sub_cancel_left]

theorem read_congr {other : Source}
    (same : other.bytes.take (offset + reach (source.bytes.drop offset)) =
      source.bytes.take (offset + reach (source.bytes.drop offset))) :
    read other offset codec = read source offset codec := by
  obtain alike | ⟨fits', fits⟩ := eq_or_le_of_take_eq same
  · obtain ⟨bytes, size, rfl⟩ := source
    obtain ⟨_, _, rfl⟩ := other
    cases alike
    rfl
  · have agree : (other.bytes.drop offset).take (reach (source.bytes.drop offset)) =
        (source.bytes.drop offset).take (reach (source.bytes.drop offset)) := by
      simpa [List.drop_take] using congrArg (List.drop offset) same
    have enough := size_le_reach (source.bytes.drop offset)
    have alike : reach (other.bytes.drop offset) = reach (source.bytes.drop offset) := by
      rw [← reach_take enough, agree, reach_take enough]
      all_goals
        rw [List.length_drop]
        omega
    rw [read_of_fits source offset codec (source.size_eq ▸ fits),
      read_of_fits other offset codec (by rw [alike, other.size_eq]; exact fits'),
      parse_congr _ _ _ agree]

theorem fetch_traced (what : String) (length : Nat) :
    (fetch source what offset length : Traced ReadError Bytes) =
      ⟨if source.size < offset + length then [] else [⟨source, offset, length⟩],
        fetch source what offset length⟩ := by
  rw [fetch, fetch]
  by_cases short : source.size < offset + length
  · rw [if_pos short, if_pos short, if_pos short]
    rfl
  · rw [if_neg short, if_neg short, if_neg short]
    rfl

theorem mem_reads_read {access : Access}
    (read : access ∈ (read source offset codec : Traced ReadError Block).reads) :
    access.source = source ∧ offset ≤ access.offset
      ∧ access.offset + access.length ≤ offset + reach (source.bytes.drop offset) := by
  have within {what : String} {start length : Nat} {access : Access}
      (read : access ∈ (fetch source what start length : Traced ReadError Bytes).reads) :
      access = ⟨source, start, length⟩ := by
    rw [fetch_traced] at read
    split at read
    · cases read
    · exact List.mem_singleton.1 read
  obtain read | ⟨headerBytes, fetched, read⟩ := Traced.mem_reads_bind.1 read
  · obtain rfl := within read
    exact ⟨rfl, Nat.le_refl _, Nat.add_le_add_left (size_le_reach _) _⟩
  obtain read | ⟨header, parsed, read⟩ := Traced.mem_reads_bind.1 read
  · cases read
  obtain read | ⟨onDisk, -, read⟩ := Traced.mem_reads_bind.1 read
  · obtain rfl := within read
    rw [fetch_traced] at fetched
    obtain ⟨rfl, inside⟩ := of_fetch fetched
    have whole : BlockHeader.size ≤ (source.bytes.drop offset).length := by
      rw [List.length_drop]
      omega
    have parsed := ok_of_liftM_decoded parsed
    rw [BlockHeader.parse_take (Nat.le_refl _) whole] at parsed
    rw [reach_of_parse parsed, BlockHeader.onDiskSizeWithHeader, ← Nat.add_assoc]
    exact ⟨rfl, Nat.le_add_right .., Nat.le_refl _⟩
  · cases read

end

/-- A block that is whole is read as it is parsed where it lies, with the same error if it has a
flaw. One that is cut off is found to be so in both ways, in the same part. No byte after the block
makes a difference, and none is read. -/
theorem read_eq_parse (source : Source) (offset : Nat) (codec : Codec) :
    let bytes := source.bytes.drop offset
    (if reach bytes ≤ bytes.length then
      read source offset codec = liftM (parse bytes offset codec)
    else ∃ what,
      parse bytes offset codec = .error (.truncated what (reach bytes) bytes.length)
        ∧ read source offset codec = .error (.format
          (.truncated what (min (offset + reach bytes) 0xFFFF_FFFF_FFFF_FFFF) source.size)))
    ∧ (∀ others : Bytes, others.take (reach bytes) = bytes.take (reach bytes) →
      parse others offset codec = parse bytes offset codec)
    ∧ (∀ other : Source,
      other.bytes.take (offset + reach bytes) = source.bytes.take (offset + reach bytes) →
      read other offset codec = read source offset codec)
    ∧ ∀ access ∈ (read source offset codec : Traced ReadError Block).reads, access.source = source
      ∧ offset ≤ access.offset ∧ access.offset + access.length ≤ offset + reach bytes := by
  intro bytes
  refine ⟨?_, fun _ => parse_congr bytes offset codec, fun _ => read_congr source offset codec,
    fun _ => mem_reads_read source offset codec⟩
  have length : bytes.length = source.size - offset := by
    rw [source.size_eq]
    exact List.length_drop ..
  have enough := size_le_reach bytes
  have pos : 0 < BlockHeader.size := by decide
  by_cases fits : reach bytes ≤ bytes.length
  · rw [if_pos fits]
    exact read_of_fits source offset codec (show offset + reach bytes ≤ source.size by omega)
  · rw [if_neg fits]
    refine ⟨missing bytes, parse_of_short bytes offset codec (Nat.lt_of_not_le fits), ?_⟩
    exact read_of_short source offset codec (show source.size < offset + reach bytes by omega)

theorem read_eq_parse_twoBytes :
    let block : Bytes := BlockKind.data.magic ++ [0, 0, 0, 2, 0, 0, 0, 2] ++ List.replicate 12 0
      ++ [0, 0, 0, 0, 35, 7, 8]
    let source := Source.ofBytes (9 :: (block ++ [6]))
    block.length = 35
      ∧ reach (block ++ [6]) = 35
      ∧ (parse (block ++ [6]) 1 .stored).map (·.data) = .ok [7, 8]
      ∧ read source 1 .stored = liftM (parse (block ++ [6]) 1 .stored)
      ∧ parse block 1 .stored = parse (block ++ [6]) 1 .stored
      ∧ read (.ofBytes (9 :: block)) 1 .stored = read source 1 .stored
      ∧ (read source 1 .stored : Traced ReadError Block).reads = [⟨source, 1, 33⟩, ⟨source, 34, 2⟩]
      ∧ 34 + 2 ≤ 1 + reach (block ++ [6]) := by
  intro block source
  have reached : reach (block ++ [6]) = 35 := by decide +kernel
  have reads : (read source 1 .stored : Traced ReadError Block).reads =
      [⟨source, 1, 33⟩, ⟨source, 34, 2⟩] := by rfl
  obtain ⟨same, parses, others, inside⟩ := read_eq_parse source 1 .stored
  change (if reach (block ++ [6]) ≤ 36 then _ else _) at same
  rw [reached, if_pos (by decide)] at same
  have body := inside ⟨source, 34, 2⟩ (by rw [reads]; exact List.mem_cons_of_mem _ (.head _))
  exact ⟨by rfl, reached, by decide +kernel, same, parses block (by rfl),
    others (.ofBytes (9 :: block)) (by rfl), reads, body.2.2⟩

/-- Of a block that claims more bytes than there are, only the header is read. -/
example :
    let source := Source.ofBytes (BlockKind.data.magic ++ [0, 0, 1, 0] ++ List.replicate 21 0)
    (read source 0 .stored : Traced ReadError Block) =
      ⟨[⟨source, 0, 33⟩], .error (.format (.truncated "block body" 289 33))⟩ := by
  rfl

end Block

end CellStore
