import CellStore.Input

namespace CellStore

@[simp] theorem ok_bind (a : α) (next : α → Except ε β) : (Except.ok a >>= next) = next a := rfl

@[simp] theorem error_bind (e : ε) (next : α → Except ε β) :
    (Except.error e >>= next) = .error e := rfl

@[simp] theorem pure_eq_ok (a : α) : (pure a : Except ε α) = .ok a := rfl

@[simp] theorem throw_eq_error (e : ε) : (throw e : Except ε α) = .error e := rfl

@[simp] theorem liftM_decoded_ok (a : α) :
    (liftM (Except.ok a : Decoded α) : Fetched α) = .ok a := rfl

@[simp] theorem liftM_source_ok (a : α) :
    (liftM (Except.ok a : Except SourceError α) : Fetched α) = .ok a := rfl

@[simp] theorem tryCatch_none (x : Except ε α) :
    tryCatch (some <$> x) (fun _ => return none) = .ok x.toOption := by
  cases x <;> rfl

theorem exists_of_bind {x : Except ε α} {next : α → Except ε β} {b : β}
    (made : (x >>= next) = .ok b) : ∃ a, x = .ok a ∧ next a = .ok b := by
  cases x with
  | error e => cases made
  | ok a => exact ⟨a, rfl, made⟩

theorem exists_of_map {x : Except ε α} {f : α → β} {b : β} (made : x.map f = .ok b) :
    ∃ a, x = .ok a ∧ f a = b := by
  cases x with
  | error e => cases made
  | ok a => exact ⟨a, rfl, Except.ok.inj made⟩

theorem bind_congr_ok {x : Except ε α} {next next' : α → Except ε β}
    (same : ∀ a, x = .ok a → next a = next' a) : (x >>= next) = (x >>= next') := by
  cases x with
  | error e => rfl
  | ok a => exact same a rfl

theorem map_bind (f : β → γ) (x : Except ε α) (next : α → Except ε β) :
    (x >>= next).map f = x >>= fun a => (next a).map f := by
  cases x <;> rfl

theorem bind_map (f : α → β) (x : Except ε α) (next : β → Except ε γ) :
    x.map f >>= next = x >>= fun a => next (f a) := by
  cases x <;> rfl

theorem ok_of_liftM_decoded {x : Decoded α} {a : α} (made : (liftM x : Fetched α) = .ok a) :
    x = .ok a := by
  cases x with
  | error e => cases made
  | ok b => exact congrArg Except.ok (Except.ok.inj made)

/-- Both fail with the same error, or else what they give belongs together. -/
inductive Alike (R : α → β → Prop) : Except ε α → Except ε β → Prop
  | ok {a : α} {b : β} : R a b → Alike R (.ok a) (.ok b)
  | error (e : ε) : Alike R (.error e) (.error e)

theorem Alike.bind {R : β → γ → Prop} (x : Except ε α) {next : α → Except ε β}
    {next' : α → Except ε γ} (later : ∀ a, x = .ok a → Alike R (next a) (next' a)) :
    Alike R (x >>= next) (x >>= next') := by
  cases x with
  | error e => exact .error e
  | ok a => exact later a rfl

/-- A reader takes these bytes for `a`, whatever stands before and after them. -/
def Reads (read : Input → Decoded (α × Input)) (bytes : Bytes) (a : α) : Prop :=
  ∀ size offset rest,
    read ⟨size, offset, bytes ++ rest⟩ = .ok (a, ⟨size, offset + bytes.length, rest⟩)

namespace Reads

variable {read : Input → Decoded (α × Input)} {bytes : Bytes} {a : α}

theorem eq (h : Reads read bytes a) (size offset : Nat) (rest : Bytes) :
    read ⟨size, offset, bytes ++ rest⟩ = .ok (a, ⟨size, offset + bytes.length, rest⟩) :=
  h size offset rest

end Reads

namespace Input

section

variable {size offset n width : Nat} {rest : Bytes} {what : String} {after : Input}

theorem exists_of_take {taken : Bytes}
    (read : (⟨size, offset, rest⟩ : Input).take what n = .ok (taken, after)) :
    ∃ behind, rest = taken ++ behind ∧ taken.length = n ∧ after = ⟨size, offset + n, behind⟩ := by
  obtain ⟨size', offset', behind⟩ := after
  obtain ⟨length, split, sizes, offsets⟩ := take_eq_ok_iff.1 read
  cases sizes
  cases offsets
  exact ⟨behind, split, length, rfl⟩

theorem exists_of_number
    (read : (⟨size, offset, rest⟩ : Input).number what width = .ok (n, after)) :
    ∃ behind, rest = Bytes.ofNat width n ++ behind ∧ after = ⟨size, offset + width, behind⟩ := by
  obtain ⟨⟨bytes, atEnd⟩, taken, given⟩ := exists_of_bind read
  obtain ⟨behind, rfl, rfl, rfl⟩ := exists_of_take taken
  cases given
  rw [Bytes.ofNat_toNat]
  exact ⟨behind, rfl, rfl⟩

end

theorem lt_of_number {input after : Input} {what : String} {width n : Nat}
    (read : input.number what width = .ok (n, after)) : n < 256 ^ width := by
  obtain ⟨⟨bytes, rest⟩, taken, given⟩ := exists_of_bind read
  obtain ⟨rfl, -⟩ := take_eq_ok_iff.1 taken
  cases given
  exact Bytes.toNat_lt bytes

theorem reads_take (bytes : Bytes) (what : String) {n : Nat} (length : bytes.length = n) :
    Reads (·.take what n) bytes bytes := by
  intro size offset rest
  subst length
  simp [take, skip]

theorem reads_wrapped (width n : Nat) (what : String) :
    Reads (·.number what width) (Bytes.ofNat width n) (n % 256 ^ width) := by
  intro size offset rest
  have taken := (reads_take (Bytes.ofNat width n) what (Bytes.length_ofNat width n)).eq size offset
    rest
  simp [number, taken]

theorem reads_number (width n : Nat) (what : String) (fits : n < 256 ^ width) :
    Reads (·.number what width) (Bytes.ofNat width n) n := by
  have wrapped := reads_wrapped width n what
  rwa [Nat.mod_eq_of_lt fits] at wrapped

end Input

end CellStore
