import CellStore.Delta.InPlace
import CellStore.Proofs.Input

/-! A key of a FAST_DIFF block has room for its parts, and the parts that are kept of it are those
it has. So nothing is shared past the end of a row, a family is there to be taken over, and no key
ends within its row. -/

namespace CellStore

/-- A key with room for its row and its family, and for a timestamp and a kind behind them. -/
def Key.Whole (key : Bytes) : Prop :=
  2 + Delta.rowLength key + 1 + Delta.familyLength key + Key.suffixLength ≤ key.length

theorem Key.Whole.minLength_le {key : Bytes} (whole : Whole key) : minLength ≤ key.length := by
  rw [Whole, suffixLength] at whole
  rw [minLength]
  omega

namespace Delta

variable {flags : Flags} {input after : Input} {previous key start : Bytes} {length shared : Nat}

theorem rowLength_take {n : Nat} (length : 2 ≤ n) (key : Bytes) :
    rowLength (key.take n) = rowLength key := by
  rw [rowLength, rowLength, List.take_take, Nat.min_eq_left length]

theorem rowLength_append (long : 2 ≤ start.length) (rest : Bytes) :
    rowLength (start ++ rest) = rowLength start := by
  rw [rowLength, rowLength, List.take_append_of_le_length long]

theorem familyLength_of_getElem? {b : UInt8} (found : key[2 + rowLength key]? = some b) :
    familyLength key = b.toNat := by
  rw [familyLength, List.headD_eq_head?_getD, List.head?_drop, found, Option.getD_some]

theorem length_timestampBytes (whole : Key.Whole key) : (timestampBytes key).length = 8 := by
  have long := whole.minLength_le
  rw [Key.minLength] at long
  rw [timestampBytes, List.length_take, List.length_drop, Key.suffixLength]
  omega

theorem timestampBytes_append (start : Bytes) {timestamp kind : Bytes}
    (eight : timestamp.length = 8) (one : kind.length = 1) :
    timestampBytes (start ++ timestamp ++ kind) = timestamp := by
  have before : (start ++ timestamp ++ kind).length - Key.suffixLength = start.length := by
    rw [List.length_append, List.length_append, eight, one, Key.suffixLength]
    omega
  rw [timestampBytes, before, List.append_assoc, List.drop_left, List.take_left' eight]

theorem whole_of_firstKey (made : firstKey length input = .ok (key, after)) :
    key.length = length ∧ Key.Whole key := by
  obtain ⟨⟨taken, atEnd⟩, read, made⟩ := exists_of_bind made
  dsimp only at made
  split at made
  · cases made
  · split at made
    · cases made
    · split at made
      · cases made
      · rename_i room
        cases made
        exact ⟨(Input.take_eq_ok_iff.1 read).1, Nat.not_lt.1 room⟩

theorem length_shared (inside : shared ≤ previous.length) {bytes : Bytes}
    (rest : bytes.length = 2 - shared) :
    (previous.take shared ++ bytes).length = shared + (2 - shared) := by
  rw [List.length_append, List.length_take, Nat.min_eq_left inside, rest]

theorem row_of_readStart (inside : shared ≤ previous.length)
    (made : readStart previous shared input = .ok (start, after)) :
    2 + rowLength start ≤ start.length := by
  rw [readStart] at made
  split at made
  · obtain ⟨⟨bytes, atRow⟩, first, made⟩ := exists_of_bind made
    obtain ⟨⟨row, atFamily⟩, second, made⟩ := exists_of_bind made
    cases made
    have shared := length_shared inside (Input.take_eq_ok_iff.1 first).1
    have rest : row.length = 2 + rowLength (previous.take _ ++ bytes) - _ :=
      (Input.take_eq_ok_iff.1 second).1
    rw [List.append_assoc, rowLength_append (by omega)]
    simp only [List.length_append, rest] at shared ⊢
    omega
  · rename_i past
    cases made
    rw [rowLength_take (by omega), List.length_take, Nat.min_eq_left inside]
    exact Nat.not_lt.1 past

theorem length_readKind {same : Bool} {previous : UInt8} {kind : Bytes}
    (made : readKind same previous input = .ok (kind, after)) : kind.length = 1 := by
  rw [readKind] at made
  split at made
  · cases made
    rfl
  · exact (Input.take_eq_ok_iff.1 made).1

theorem timestamp_ofByte_le (b : UInt8) : (Flags.ofByte b).timestamp ≤ 8 := by
  have bound : (b &&& 7).toNat ≤ 7 := by
    rw [UInt8.toNat_and]
    exact Nat.and_le_right
  exact Nat.le_succ_of_le bound

theorem whole_of_laterKey (before : Key.Whole previous) (small : flags.timestamp ≤ 8)
    (made : laterKey previous flags length shared input = .ok (key, after)) :
    key.length = length ∧ Key.Whole key := by
  rw [laterKey] at made
  split at made
  · cases made
  · obtain ⟨⟨start, atQualifier⟩, -, made⟩ := exists_of_bind made
    dsimp only at made
    split at made
    · cases made
    · rename_i long
      obtain ⟨⟨qualifier, atTimestamp⟩, qualified, made⟩ := exists_of_bind made
      obtain ⟨⟨timestamp, atKind⟩, stamped, made⟩ := exists_of_bind made
      obtain ⟨⟨kind, atEnd⟩, kinded, made⟩ := exists_of_bind made
      dsimp only at made
      split at made
      · cases made
      · rename_i room
        cases made
        refine ⟨?_, Nat.not_lt.1 room⟩
        have first : qualifier.length = length - (start.length + Key.suffixLength) :=
          (Input.take_eq_ok_iff.1 qualified).1
        have second : timestamp.length = 8 - flags.timestamp := (Input.take_eq_ok_iff.1 stamped).1
        have third : kind.length = 1 := length_readKind kinded
        have shared := length_timestampBytes before
        simp only [List.length_append, List.length_take, first, second, third, shared,
          Key.suffixLength] at long ⊢
        omega

namespace KnownKey

def of (key : Bytes) : KnownKey :=
  ⟨key, Delta.rowLength key, Delta.familyLength key, timestampBytes key, key.getLastD 0⟩

theorem first_eq (length : Nat) (input : Input) :
    first length input = (firstKey length input).map fun read => (of read.1, read.2) := by
  rw [first, firstKey, map_bind]
  refine bind_congr_ok fun (key, atEnd) _ => ?_
  dsimp only
  split
  · rfl
  · cases found : key[2 + Delta.rowLength key]? with
    | none =>
      rw [if_pos (List.getElem?_eq_none_iff.1 found)]
      rfl
    | some b =>
      obtain ⟨inside, -⟩ := List.getElem?_eq_some_iff.1 found
      rw [if_neg (Nat.not_le.2 inside)]
      simp only [of, familyLength_of_getElem? found]
      split
      · rfl
      · simp only [pure_eq_ok, Except.map, familyLength_of_getElem? found]

theorem newRow_eq (whole : Key.Whole previous) (within : shared < 2 + Delta.rowLength previous) :
    newRow (of previous) shared input = (Delta.newRow previous shared input).map fun read =>
      ((read.1, Delta.rowLength read.1), read.2) := by
  rw [Key.Whole] at whole
  rw [newRow, Delta.newRow, map_bind]
  refine bind_congr_ok fun (bytes, atRow) taken => ?_
  dsimp only [of]
  have rest : bytes.length = 2 - shared := (Input.take_eq_ok_iff.1 taken).1
  have startLength := length_shared (by omega : shared ≤ previous.length) rest
  have fits : (previous.take shared ++ bytes).length ≤
      2 + Delta.rowLength (previous.take shared ++ bytes) := by
    -- A length that is not shared whole is read; else it is that of the last row, which goes on.
    by_cases unread : shared < 2
    · omega
    · obtain rfl : bytes = [] := List.eq_nil_of_length_eq_zero (by omega)
      rw [startLength, List.append_nil, rowLength_take (by omega)]
      omega
  have family : previous.slice? (2 + Delta.rowLength previous) (1 + Delta.familyLength previous) =
      some ((previous.drop (2 + Delta.rowLength previous)).take
        (1 + Delta.familyLength previous)) := by
    rw [Bytes.slice?, if_pos (by omega)]
  rw [if_neg (Nat.not_lt.2 fits), map_bind]
  refine bind_congr_ok fun rowRead _ => ?_
  obtain ⟨row, atFamily⟩ := rowRead
  have same (behind : Bytes) : Delta.rowLength (previous.take shared ++ bytes ++ behind) =
      Delta.rowLength (previous.take shared ++ bytes) := rowLength_append (by omega) behind
  simp only [family, pure_eq_ok, Except.map]
  rw [List.append_assoc _ row, same]

theorem readStart_eq (whole : Key.Whole previous) :
    readStart (of previous) shared input = (Delta.readStart previous shared input).map fun read =>
      ((read.1, Delta.rowLength read.1), read.2) := by
  by_cases within : shared < 2 + Delta.rowLength previous
  · rw [Delta.readStart, if_pos within, ← newRow_eq whole within]
    exact if_pos within
  · rw [Delta.readStart, if_neg within]
    refine (if_neg within).trans ?_
    have row : Delta.rowLength (previous.take shared) = Delta.rowLength previous :=
      rowLength_take (Nat.le_trans (Nat.le_add_right 2 _) (Nat.not_lt.1 within)) previous
    simp only [of, Except.map, row]

theorem checkFamily_append {timestamp kind : Bytes} (row : 2 + Delta.rowLength start ≤ start.length)
    (qualifier : Bytes) (eight : timestamp.length = 8) (one : kind.length = 1) :
    let key := start ++ qualifier ++ timestamp ++ kind
    checkFamily key (Delta.rowLength start) timestamp (kind.headD 0) =
      if key.length < 2 + Delta.rowLength key + 1 + Delta.familyLength key + Key.suffixLength then
        fail .familyPastKey
      else .ok (of key) := by
  obtain ⟨b, rfl⟩ := List.length_eq_one_iff.1 one
  intro key
  have rowLength : Delta.rowLength key = Delta.rowLength start := by
    simp only [key, List.append_assoc]
    exact rowLength_append (by omega) _
  have stamp : timestampBytes key = timestamp := timestampBytes_append _ eight rfl
  have last : key.getLastD 0 = b := List.getLastD_concat
  have inside : 2 + Delta.rowLength key < key.length := by
    rw [rowLength]
    simp only [key, List.length_append, eight]
    omega
  have found := List.getElem?_eq_getElem inside
  rw [List.headD_cons, ← rowLength, ← last, checkFamily, found]
  simp only [of, stamp, familyLength_of_getElem? found]

theorem later_eq (whole : Key.Whole previous) (small : flags.timestamp ≤ 8) :
    later (of previous) flags length shared input =
      (laterKey previous flags length shared input).map fun read => (of read.1, read.2) := by
  rw [later, laterKey]
  by_cases past : previous.length < shared ∨ length < shared
  · rw [if_pos past]
    exact if_pos past
  · rw [if_neg past]
    refine (if_neg past).trans ?_
    have inside : shared ≤ previous.length := Nat.not_lt.1 fun less => past (.inl less)
    rw [readStart_eq whole, bind_map, map_bind]
    refine bind_congr_ok fun (start, atQualifier) started => ?_
    have row := row_of_readStart inside started
    dsimp only
    split
    · rfl
    · rw [map_bind]
      refine bind_congr_ok fun (qualifier, atTimestamp) _ => ?_
      dsimp only
      rw [map_bind]
      refine bind_congr_ok fun (rest, atKind) stamped => ?_
      dsimp only
      rw [map_bind]
      refine bind_congr_ok fun (kind, atEnd) kinded => ?_
      have eight : ((timestampBytes previous).take flags.timestamp ++ rest).length = 8 := by
        have restLength : rest.length = 8 - flags.timestamp := (Input.take_eq_ok_iff.1 stamped).1
        rw [List.length_append, List.length_take, length_timestampBytes whole, restLength]
        omega
      dsimp only [of]
      rw [checkFamily_append row qualifier eight (length_readKind kinded)]
      split <;> rfl

end KnownKey

end Delta

end CellStore
