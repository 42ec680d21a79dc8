import CellStore.Compression.Frames.Nested
import CellStore.Proofs.Input
import CellStore.Proofs.Pieces

/-! Frames are expanded step by step to what two loops over one output make of them, and the output
never gets longer than declared. -/

namespace CellStore.Frames

variable {decode : ChunkDecoder} {declared fuel fuel' : Nat}

/-- A chunk never expands to more than its limit. -/
def Bounded (decode : ChunkDecoder) : Prop :=
  ∀ limit chunk content, decode limit chunk = .ok content → content.length ≤ limit

namespace State

variable {s after : State}

def Done (s : State) : Prop := s.owed = 0 ∧ s.input.rest.isEmpty

theorem step_of_owed (owes : s.owed ≠ 0) : s.step decode declared = do
    let (chunk, input) ← readChunk s.input
    let expanded ← decode s.owed chunk
    return { s with input, owed := s.owed - expanded.length, chunks := expanded :: s.chunks } := by
  simp only [step, if_neg owes, readChunk, bind_assoc]

theorem step_of_not_owed (free : s.owed = 0) : s.step decode declared = do
    let (length, input) ← s.input.number "compressed block length" 4
    if s.room < length then
      throw (.undecodable (.longFrame length declared))
    return { s with input, owed := length, room := s.room - length } := by
  simp only [step, if_pos free]

theorem length_of_step (made : s.step decode declared = .ok after) :
    after.input.rest.length < s.input.rest.length := by
  by_cases free : s.owed = 0
  · rw [step_of_not_owed free] at made
    obtain ⟨⟨length, input⟩, read, made⟩ := exists_of_bind made
    have := Input.length_of_number read
    dsimp only at made
    split at made
    · cases made
    · cases made
      dsimp only
      omega
  · rw [step_of_owed free] at made
    obtain ⟨⟨chunk, input⟩, read, made⟩ := exists_of_bind made
    obtain ⟨expanded, -, made⟩ := exists_of_bind made
    cases made
    exact length_of_readChunk read

end State

variable {s : State}

theorem run_of_done (done : s.Done) : run decode declared fuel s = .ok s := by
  cases fuel with
  | zero => rfl
  | succ fuel => exact if_pos done

theorem run_congr (enough : s.input.rest.length < fuel) (enough' : s.input.rest.length < fuel') :
    run decode declared fuel s = run decode declared fuel' s := by
  induction fuel generalizing fuel' s with
  | zero => omega
  | succ fuel ih =>
    cases fuel' with
    | zero => omega
    | succ fuel' =>
      rw [run, run]
      split
      · rfl
      · cases made : s.step decode declared with
        | error e => rfl
        | ok after =>
          have := State.length_of_step made
          exact ih (by omega) (by omega)

theorem run_of_step (enough : s.input.rest.length < fuel) (more : ¬ s.Done) :
    run decode declared fuel s = s.step decode declared >>= run decode declared fuel := by
  cases fuel with
  | zero => omega
  | succ fuel =>
    refine (if_neg more).trans ?_
    cases made : s.step decode declared with
    | error e => rfl
    | ok after =>
      have := State.length_of_step made
      exact run_congr (by omega) (by omega)

theorem done_of_run {after : State} (enough : s.input.rest.length < fuel)
    (ran : run decode declared fuel s = .ok after) : after.Done := by
  induction fuel generalizing s with
  | zero => omega
  | succ fuel ih =>
    rw [run] at ran
    split at ran
    · rename_i done
      cases ran
      exact done
    · cases made : s.step decode declared with
      | error e =>
        rw [made] at ran
        cases ran
      | ok next =>
        rw [made] at ran
        have := State.length_of_step made
        exact ih (by omega) ran

def State.output (s : State) : Bytes := s.chunks.reverse.flatten

/-- A frame is expanded step by step as a loop fills it. Where no chunk expands to more than is
missing, the output ends where the frame does. -/
theorem run_fill (bounded : Bounded decode) (declared stop room : Nat) {output : Bytes}
    {input : Input} {chunks : List Bytes} (short : output.length ≤ stop)
    (content : chunks.reverse.flatten = output) (enough : input.rest.length < fuel) :
    match fill decode stop output input with
    | .ok (full, after) => full.length = stop ∧ ∃ chunks', chunks'.reverse.flatten = full
      ∧ run decode declared fuel ⟨input, stop - output.length, room, chunks⟩ =
        run decode declared fuel ⟨after, 0, room, chunks'⟩
    | .error e =>
      run decode declared fuel ⟨input, stop - output.length, room, chunks⟩ = .error e := by
  fun_induction fill decode stop output input generalizing chunks with
  | case1 output input fewer chunk after read expanded decoded ih =>
    have := bounded _ _ _ decoded
    have := length_of_readChunk read
    have owes : stop - output.length ≠ 0 := by omega
    have step : State.step decode declared ⟨input, stop - output.length, room, chunks⟩ =
        .ok ⟨after, stop - (output ++ expanded).length, room, expanded :: chunks⟩ := by
      rw [State.step_of_owed owes, read, ok_bind]
      dsimp only
      rw [decoded, ok_bind, List.length_append, ← Nat.sub_sub]
      rfl
    rw [run_of_step enough (fun done => owes done.1), step, ok_bind]
    refine ih ?_ ?_ (by omega)
    · rw [List.length_append]
      omega
    · simp [content]
  | case2 output input fewer chunk after read e failed =>
    have owes : stop - output.length ≠ 0 := by omega
    dsimp only
    rw [run_of_step enough (fun done => owes done.1), State.step_of_owed owes, read, ok_bind]
    dsimp only
    rw [failed]
    rfl
  | case3 output input fewer e failed =>
    have owes : stop - output.length ≠ 0 := by omega
    rw [run_of_step enough (fun done => owes done.1), State.step_of_owed owes, failed]
    rfl
  | case4 output input full =>
    have none : stop - output.length = 0 := by omega
    exact ⟨by omega, chunks, content, by rw [none]⟩

theorem run_of_length {input inside : Input} {length room : Nat} {chunks : List Bytes}
    (read : input.number "compressed block length" 4 = .ok (length, inside))
    (allowed : ¬ room < length) (more : ¬ input.rest.isEmpty) (enough : input.rest.length < fuel) :
    run decode declared fuel ⟨input, 0, room, chunks⟩ =
      run decode declared fuel ⟨inside, length, room - length, chunks⟩ := by
  have step : State.step decode declared ⟨input, 0, room, chunks⟩ =
      .ok ⟨inside, length, room - length, chunks⟩ := by
    rw [State.step_of_not_owed rfl, read, ok_bind]
    exact if_neg allowed
  rw [run_of_step enough (fun done => more done.2), step, ok_bind]

theorem run_frame (bounded : Bounded decode) (declared : Nat) {output : Bytes}
    {input inside : Input} {length room : Nat} {chunks : List Bytes}
    (content : chunks.reverse.flatten = output)
    (read : input.number "compressed block length" 4 = .ok (length, inside))
    (allowed : ¬ room < length) (more : ¬ input.rest.isEmpty) (enough : input.rest.length < fuel) :
    match fill decode (output.length + length) output inside with
    | .ok (full, after) => full.length = output.length + length
      ∧ ∃ chunks', chunks'.reverse.flatten = full
        ∧ run decode declared fuel ⟨input, 0, room, chunks⟩ =
          run decode declared fuel ⟨after, 0, room - length, chunks'⟩
    | .error e => run decode declared fuel ⟨input, 0, room, chunks⟩ = .error e := by
  have := Input.length_of_number read
  have filled := run_fill bounded declared (output.length + length) (room - length)
    (Nat.le_add_right _ _) content (show inside.rest.length < fuel by omega)
  rw [Nat.add_sub_cancel_left] at filled
  rwa [run_of_length read allowed more enough]

theorem run_expand (bounded : Bounded decode) {output : Bytes} {input : Input}
    {chunks : List Bytes} (fits : output.length ≤ declared)
    (content : chunks.reverse.flatten = output) (enough : input.rest.length < fuel) :
    expand decode declared output input =
      some ((run decode declared fuel ⟨input, 0, declared - output.length, chunks⟩).map
        State.output) := by
  fun_induction expand decode declared output input generalizing chunks with
  | case1 output input none =>
    rw [run_of_done ⟨rfl, none⟩, ← content]
    rfl
  | case2 output input more length inside read tooMuch =>
    rw [room?, if_pos fits] at tooMuch
    cases tooMuch
  | case3 output input more length inside read room left tooLong =>
    rw [room?, if_pos fits] at left
    cases left
    rw [run_of_step enough (fun done => more done.2), State.step_of_not_owed rfl, read, ok_bind]
    dsimp only
    rw [if_pos tooLong]
    rfl
  | case4 output input more length inside read room left allowed full after filled ih =>
    rw [room?, if_pos fits] at left
    cases left
    have := Input.length_of_number read
    have := length_of_fill filled
    have framed := run_frame bounded declared content read allowed more enough
    rw [filled] at framed
    obtain ⟨ended, chunks', content', same⟩ := framed
    rw [same, Nat.sub_sub, ← ended]
    exact ih (by omega) content' (by omega)
  | case5 output input more length inside read room left allowed e failed =>
    rw [room?, if_pos fits] at left
    cases left
    have framed := run_frame bounded declared content read allowed more enough
    rw [failed] at framed
    rw [framed]
    rfl
  | case6 output input more e failed =>
    rw [run_of_step enough (fun done => more done.2), State.step_of_not_owed rfl, failed]
    rfl

theorem decodeNested_eq (bounded : Bounded decode) (declared : Nat) (bytes : Bytes) :
    decodeNested decode declared bytes = some (Frames.decode decode declared bytes) := by
  have nothing : ([] : List Bytes).reverse.flatten = [] := rfl
  have same : decodeNested decode declared bytes = _ :=
    run_expand bounded (Nat.zero_le declared) nothing (Nat.lt_succ_self bytes.length)
  rw [same, Frames.decode]
  cases run decode declared (bytes.length + 1) ⟨Input.ofBytes bytes, 0, declared, []⟩ <;> rfl

end CellStore.Frames
