import CellStore.Delta
import CellStore.Proofs.Steady

namespace CellStore

namespace Delta

theorem steady_check {c : Prop} {known : Decidable c} {flaw : DeltaFlaw}
    {next : PUnit → Input → Decoded (α × Input)} {read : Input → Decoded (α × Input)}
    (later : Steady read) :
    Steady fun input => if c then fail flaw >>= (next · input) else read input :=
  .ite (.error (.flawed (.delta flaw))) later

theorem steady_firstKey (length : Nat) : Steady (firstKey length) := by
  unfold firstKey
  refine .bind (Input.steady_take _ _) fun key => ?_
  dsimp +instances only
  refine steady_check ?_
  refine steady_check ?_
  refine steady_check ?_
  exact .ok key

theorem steady_newRow (previous : Bytes) (shared : Nat) : Steady (newRow previous shared) := by
  unfold newRow
  refine .bind (Input.steady_take _ _) fun length => ?_
  refine .bind (Input.steady_take _ _) fun row => ?_
  exact .ok _

theorem steady_readStart (previous : Bytes) (shared : Nat) :
    Steady (readStart previous shared) :=
  .ite (steady_newRow previous shared) (.ok (previous.take shared))

theorem steady_readKind (same : Bool) (previous : UInt8) : Steady (readKind same previous) :=
  .ite (.ok [previous]) (Input.steady_take _ _)

theorem steady_laterKey (previous : Bytes) (flags : Flags) (length shared : Nat) :
    Steady (laterKey previous flags length shared) := by
  unfold laterKey
  refine steady_check ?_
  refine .bind (steady_readStart _ _) fun start => ?_
  dsimp +instances only
  refine steady_check ?_
  refine .bind (Input.steady_take _ _) fun qualifier => ?_
  dsimp +instances only
  refine .bind (Input.steady_take _ _) fun timestamp => ?_
  dsimp +instances only
  refine .bind (steady_readKind _ _) fun kind => ?_
  dsimp +instances only
  refine steady_check ?_
  exact .ok _

theorem steady_readKey (previous : Option Record) (flags : Flags) (length shared : Nat) :
    Steady (readKey previous flags length shared) := by
  cases previous with
  | none => exact steady_firstKey length
  | some previous => exact steady_laterKey previous.key flags length shared

theorem steady_readValue (repeated : Option Bytes) (length : Nat) :
    Steady (readValue repeated length) := by
  cases repeated with
  | none => exact Input.steady_take _ _
  | some value => exact .ite (.error _) (.ok value)

theorem steady_readTags (format : RecordFormat) : Steady (readTags format) := by
  unfold readTags
  refine .ite ?_ (.ok none)
  refine .bind Septets.steady_read fun length => ?_
  dsimp +instances only
  refine steady_check ?_
  refine .bind (Input.steady_take _ _) fun tags => ?_
  exact .ok (some tags)

theorem steady_readLength (same : Bool) (previous : Nat) : Steady (readLength same previous) :=
  .ite (.ok previous) Septets.steady_read

theorem takes_of_readStamp {format : RecordFormat} {input after : Input} {stamp : Option Bytes}
    (recorded : format.mvcc = true) (made : readStamp format input = .ok (stamp, after)) :
    ∃ raw n, stamp = some raw ∧ input.rest = raw ++ after.rest ∧ Takes VarLong.read raw n
      ∧ Takes (readStamp format) raw (some raw) := by
  obtain ⟨whole, start, rest⟩ := input
  cases rest with
  | nil => simp [readStamp, recorded] at made
  | cons first rest =>
    simp only [readStamp, recorded, if_true] at made
    obtain ⟨⟨n, atEnd⟩, read, given⟩ := exists_of_bind made
    obtain ⟨rfl, rfl⟩ := Prod.mk.inj (Except.ok.inj given)
    obtain ⟨first', more, split, length, takes⟩ := VarLong.takes_of_read read
    obtain ⟨rfl, rfl⟩ := List.cons.inj split
    have cut (rest : Bytes) : (first :: (more ++ rest)).take (VarLong.size first) =
        first :: more := by
      rw [length, List.take_succ_cons, List.take_left]
    refine ⟨first :: more, n, congrArg some (cut _), rfl, takes, fun size offset rest => ?_, ?_⟩
    · have number := takes.reads.eq size offset rest
      simp only [List.cons_append] at number ⊢
      simp only [readStamp, recorded, if_true, number, ok_bind, pure_eq_ok, cut]
    · intro part short other size offset
      cases part with
      | nil => exact ⟨_, _, _, by simp only [readStamp, recorded, if_true]; rfl⟩
      | cons b part =>
        have fails := (takes.needs (b :: part) short other size offset).bind fun read =>
          (.ok (some ((b :: part).take (VarLong.size b)), read.2) : Decoded (Option Bytes × Input))
        simpa only [readStamp, recorded, if_true, pure_eq_ok] using fails

theorem steady_readStamp (format : RecordFormat) : Steady (readStamp format) := by
  intro input stamp after made
  cases recorded : format.mvcc with
  | false =>
    have absent (input : Input) : readStamp format input = .ok (none, input) := by
      simp [readStamp, recorded]
    rw [absent] at made
    cases made
    exact ⟨[], rfl, .nothing absent⟩
  | true =>
    obtain ⟨raw, n, rfl, split, -, takes⟩ := takes_of_readStamp recorded made
    exact ⟨raw, split, takes⟩

theorem steady_readRecord (format : RecordFormat) (previous : Option Record) (flags : Flags) :
    Steady (readRecord format previous flags) := by
  unfold readRecord
  refine steady_check ?_
  refine .bind (steady_readLength _ _) fun keyLength => ?_
  refine .bind (steady_readLength _ _) fun valueLength => ?_
  refine .bind Septets.steady_read fun shared => ?_
  refine .bind (steady_readKey _ _ _ _) fun key => ?_
  refine .bind (steady_readValue _ _) fun value => ?_
  refine .bind (steady_readTags _) fun tags => ?_
  refine .bind (steady_readStamp _) fun stamp => ?_
  exact .ok _

/-- A record and the bytes that stand for it in a block, of which the first one has its flags. -/
structure Coded where
  flags : UInt8
  body : Bytes
  record : Record

def spelled (coded : List Coded) : Bytes := coded.flatMap fun c => c.flags :: c.body

def plain (coded : List Coded) : Bytes := coded.flatMap (·.record.encode)

/-- Records after one another, each read off its own bytes and the record before. -/
inductive Chain (format : RecordFormat) : (previous : Option Record) → List Coded → Prop
  | nil {previous : Option Record} : Chain format previous []
  | cons {previous : Option Record} {c : Coded} {coded : List Coded} :
    Takes (readRecord format previous (Flags.ofByte c.flags)) c.body c.record →
      Chain format (some c.record) coded → Chain format previous (c :: coded)

variable {format : RecordFormat} {found : List Record} {coded before after : List Coded}
  {c : Coded} {bytes out : Bytes}

theorem spelled_cons (c : Coded) (coded : List Coded) :
    spelled (c :: coded) = c.flags :: (c.body ++ spelled coded) := rfl

theorem length_le_spelled (coded : List Coded) : coded.length ≤ (spelled coded).length := by
  induction coded with
  | nil => exact Nat.le_refl 0
  | cons c coded ih =>
    rw [spelled_cons, List.length_cons, List.length_cons, List.length_append]
    omega

theorem readRecords_nil (fuel : Nat) (size offset : Nat) :
    readRecords format fuel found ⟨size, offset, []⟩ = .ok found.reverse := by
  cases fuel <;> rfl

theorem readRecords_chain (found : List Record) (chain : Chain format found.head? coded)
    (more size offset : Nat) (rest : Bytes) :
    readRecords format (coded.length + more) found ⟨size, offset, spelled coded ++ rest⟩ =
      readRecords format more ((coded.map (·.record)).reverse ++ found)
        ⟨size, offset + (spelled coded).length, rest⟩ := by
  induction coded generalizing found offset with
  | nil => simp [spelled]
  | cons c coded ih =>
    cases chain with
    | cons takes later =>
      have record := takes.reads.eq size (offset + 1) (spelled coded ++ rest)
      rw [List.length_cons, Nat.add_right_comm, spelled_cons, List.cons_append, List.append_assoc,
        readRecords]
      simp only [Input.skip, List.drop_succ_cons, List.drop_zero, record]
      rw [ih (c.record :: found) later]
      simp only [List.map_cons, List.reverse_cons, List.append_assoc, List.cons_append,
        List.nil_append, List.length_cons, List.length_append, Nat.add_assoc, Nat.add_comm 1]

theorem exists_chain {fuel : Nat} {input : Input} {records : List Record}
    (enough : input.rest.length ≤ fuel)
    (made : readRecords format fuel found input = .ok records) :
    ∃ coded, Chain format found.head? coded ∧ input.rest = spelled coded
      ∧ records = found.reverse ++ coded.map (·.record) := by
  induction fuel generalizing found input with
  | zero =>
    cases made
    exact ⟨[], .nil, List.eq_nil_of_length_eq_zero (Nat.le_zero.1 enough), by simp⟩
  | succ fuel ih =>
    obtain ⟨size, offset, rest⟩ := input
    cases rest with
    | nil =>
      cases made
      exact ⟨[], .nil, rfl, by simp⟩
    | cons flags rest =>
      rw [readRecords] at made
      simp only [Input.skip, List.drop_succ_cons, List.drop_zero] at made
      split at made
      · rename_i record after read
        obtain ⟨body, split, takes⟩ := steady_readRecord _ _ _ _ _ _ read
        simp only at split
        have fewer : after.rest.length ≤ fuel := by
          simp only [split, List.length_cons, List.length_append] at enough
          omega
        obtain ⟨coded, chain, rest, rfl⟩ := ih fewer made
        refine ⟨⟨flags, body, record⟩ :: coded, .cons takes chain, ?_, by simp⟩
        rw [spelled_cons, ← rest, ← split]
      · cases made

theorem decode_spelled (chain : Chain format none coded) :
    decode format (spelled coded) = .ok (plain coded) := by
  obtain ⟨more, fuel⟩ := Nat.exists_eq_add_of_le (length_le_spelled coded)
  have read := readRecords_chain [] chain more (spelled coded).length 0 []
  rw [List.append_nil, ← fuel, readRecords_nil] at read
  rw [decode, records, Input.ofBytes, read]
  simp [plain, List.flatMap_map]

theorem decode_eq_ok_iff : decode format bytes = .ok out ↔
    ∃ coded, Chain format none coded ∧ bytes = spelled coded ∧ out = plain coded := by
  constructor
  · intro decoded
    obtain ⟨records, read, given⟩ := exists_of_bind decoded
    cases given
    have enough : (Input.ofBytes bytes).rest.length ≤ bytes.length := Nat.le_refl _
    obtain ⟨coded, chain, split, rfl⟩ := exists_chain enough read
    exact ⟨coded, chain, split, by simp [plain, List.flatMap_map]⟩
  · rintro ⟨coded, chain, rfl, rfl⟩
    exact decode_spelled chain

theorem Chain.take (chain : Chain format previous coded) (k : Nat) :
    Chain format previous (coded.take k) := by
  induction chain generalizing k with
  | nil => simpa using .nil
  | cons takes _ ih =>
    cases k with
    | zero => exact .nil
    | succ k => exact .cons takes (ih k)

theorem Chain.takes (found : List Record)
    (chain : Chain format found.head? (before ++ c :: after)) :
    Chain format found.head? before
      ∧ Takes (readRecord format ((before.map (·.record)).reverse ++ found).head?
        (Flags.ofByte c.flags)) c.body c.record := by
  induction before generalizing found with
  | nil =>
    cases chain with
    | cons takes later => exact ⟨.nil, takes⟩
  | cons b before ih =>
    cases chain with
    | cons takes later =>
      obtain ⟨chain, reads⟩ := ih (b.record :: found) later
      refine ⟨.cons takes chain, ?_⟩
      rwa [List.map_cons, List.reverse_cons, List.append_assoc]

theorem truncates_part (chain : Chain format none (before ++ c :: after)) {part : Bytes}
    (short : part <+: c.body) (other : part ≠ c.body) :
    Truncates (decode format (spelled before ++ c.flags :: part)) := by
  obtain ⟨first, takes⟩ := chain.takes []
  refine Truncates.bind ?_ _
  have length := length_le_spelled before
  -- There is fuel for the records before the cut and for the one that is cut.
  obtain ⟨more, fuel⟩ : ∃ more, (spelled before ++ c.flags :: part).length =
      before.length + (more + 1) := by
    refine ⟨(spelled before).length - before.length + part.length, ?_⟩
    rw [List.length_append, List.length_cons]
    omega
  obtain ⟨what, needed, available, fails⟩ := takes.needs part short other
    (before.length + (more + 1)) (0 + (spelled before).length + 1)
  refine ⟨what, needed, available, ?_⟩
  rw [records, Input.ofBytes, fuel, readRecords_chain [] first, readRecords]
  simp only [Input.skip, List.drop_succ_cons, List.drop_zero, fails]

theorem cut_spelled {n : Nat} (inside : n ≤ (spelled coded).length) :
    (∃ k, n = (spelled (coded.take k)).length)
      ∨ ∃ before c after part, coded = before ++ c :: after ∧ part <+: c.body ∧ part ≠ c.body
        ∧ (spelled coded).take n = spelled before ++ c.flags :: part := by
  induction coded generalizing n with
  | nil => exact .inl ⟨0, Nat.le_zero.1 inside⟩
  | cons c coded ih =>
    rw [spelled_cons, List.length_cons, List.length_append] at inside
    cases n with
    | zero => exact .inl ⟨0, rfl⟩
    | succ m =>
      by_cases within : m < c.body.length
      · refine .inr ⟨[], c, coded, c.body.take m, rfl, List.take_prefix m c.body,
          fun same => ?_, ?_⟩
        · have := congrArg List.length same
          rw [List.length_take] at this
          omega
        · rw [spelled_cons, List.take_succ_cons, List.take_append_of_le_length (by omega)]
          rfl
      · obtain ⟨more, rfl⟩ := Nat.exists_eq_add_of_le (Nat.not_lt.1 within)
        obtain ⟨k, rfl⟩ | ⟨before, d, after, part, rfl, short, other, cut⟩ :=
          ih (n := more) (by omega)
        · refine .inl ⟨k + 1, ?_⟩
          rw [List.take_succ_cons, spelled_cons, List.length_cons, List.length_append]
        · refine .inr ⟨c :: before, d, after, part, rfl, short, other, ?_⟩
          rw [spelled_cons, List.take_succ_cons, List.take_length_add_append, cut, spelled_cons,
            List.cons_append, List.append_assoc]

theorem plain_take_prefix (coded : List Coded) (k : Nat) :
    plain (coded.take k) <+: plain coded := by
  refine ⟨plain (coded.drop k), ?_⟩
  rw [plain, plain, ← List.flatMap_append, List.take_append_drop, plain]

/-- A block that is cut off decodes to the records before the cut when that is between two of them,
and is found to be truncated when it is within one. -/
theorem decode_take (decoded : decode format bytes = .ok out) :
    ∃ coded, Chain format none coded ∧ bytes = spelled coded ∧ out = plain coded
      ∧ ∀ n ≤ bytes.length,
        (∀ k, n = (spelled (coded.take k)).length →
          decode format (bytes.take n) = .ok (plain (coded.take k)) ∧ plain (coded.take k) <+: out)
        ∧ ((∀ k, n ≠ (spelled (coded.take k)).length) →
          Truncates (decode format (bytes.take n))) := by
  obtain ⟨coded, chain, rfl, rfl⟩ := decode_eq_ok_iff.1 decoded
  refine ⟨coded, chain, rfl, rfl, fun n inside => ⟨?_, fun within => ?_⟩⟩
  · rintro k rfl
    refine ⟨?_, plain_take_prefix coded k⟩
    have whole : spelled (coded.take k) ++ spelled (coded.drop k) = spelled coded := by
      rw [spelled, spelled, ← List.flatMap_append, List.take_append_drop, spelled]
    rw [← whole, List.take_left]
    exact decode_spelled (chain.take k)
  · obtain ⟨k, same⟩ | ⟨before, c, after, part, rfl, short, other, cut⟩ := cut_spelled inside
    · exact absurd same (within k)
    · rw [cut]
      exact truncates_part chain short other

def olderVersion : Bytes :=
  [0, 14, 2, 0, 0, 1, 97, 1, 102, 0, 0, 0, 0, 0, 0, 0, 5, 4, 1, 2, 1, 7, 9, 127, 5, 4, 0, 0]

def olderVersionRecords : Bytes :=
  [0, 0, 0, 14, 0, 0, 0, 2, 0, 1, 97, 1, 102, 0, 0, 0, 0, 0, 0, 0, 5, 4, 1, 2, 0, 1, 7, 9]
    ++ [0, 0, 0, 14, 0, 0, 0, 2, 0, 1, 97, 1, 102, 0, 0, 0, 0, 0, 0, 0, 4, 4, 1, 2, 0, 0, 0]

theorem decode_take_olderVersion :
    decode ⟨true, true⟩ olderVersion = .ok olderVersionRecords
    ∧ ∃ coded, Chain ⟨true, true⟩ none coded ∧ olderVersion = spelled coded
      ∧ olderVersionRecords = plain coded
      ∧ ∀ n ≤ olderVersion.length,
        (∀ k, n = (spelled (coded.take k)).length →
          decode ⟨true, true⟩ (olderVersion.take n) = .ok (plain (coded.take k))
            ∧ plain (coded.take k) <+: olderVersionRecords)
        ∧ ((∀ k, n ≠ (spelled (coded.take k)).length) →
          Truncates (decode ⟨true, true⟩ (olderVersion.take n))) := by
  have decoded : decode ⟨true, true⟩ olderVersion = .ok olderVersionRecords := by rfl
  exact ⟨decoded, decode_take decoded⟩

end Delta

end CellStore
