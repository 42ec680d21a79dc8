import CellStore.Text.Utf8
import Mathlib.Tactic.Common

namespace CellStore.Utf8

/-- Between two characters, after those in `found`. -/
def State.Between (found : List (Option Char)) (s : State) : Prop := s.found = found ∧ s.owed = 0

/-- Inside a character whose bytes before have the value `code`. -/
def State.inside (found : List (Option Char)) (code owed least most : Nat) : State :=
  ⟨found, code, owed, least, most⟩

variable {found : List (Option Char)} {s : State}

theorem step_between (between : s.Between found) {b : Nat} (byte : b < 256) :
    s.step (UInt8.ofNat b) = s.lead b := by
  have same : b % 256 = b := Nat.mod_eq_of_lt byte
  simp [State.step, between.2, same]

theorem step_last {code least most b : Nat} {s : State}
    (state : s = .inside found code 1 least most)
    (byte : b < 256) (bounds : least ≤ b ∧ b ≤ most) :
    (s.step (UInt8.ofNat b)).Between (some (Char.ofNat (code * 64 + b % 64)) :: found) := by
  have same : b % 256 = b := Nat.mod_eq_of_lt byte
  subst state
  simp [State.step, State.inside, State.Between, same, bounds]

theorem step_inner {code owed least most b : Nat} {s : State}
    (state : s = .inside found code (owed + 2) least most) (byte : b < 256)
    (bounds : least ≤ b ∧ b ≤ most) :
    s.step (UInt8.ofNat b) = .inside found (code * 64 + b % 64) (owed + 1) 0x80 0xBF := by
  have same : b % 256 = b := Nat.mod_eq_of_lt byte
  subst state
  simp [State.step, State.inside, same, bounds]

theorem lead_two {b : Nat} (s : State) (low : 0xC2 ≤ b) (high : b < 0xE0) :
    s.lead b = .inside s.found (b - 0xC0) 1 0x80 0xBF := by
  have notOne : ¬ b < 0x80 := by omega
  have valid : ¬ b < 0xC2 := by omega
  simp only [State.lead, notOne, valid, high, if_true, if_false, State.inside]

theorem lead_three {b : Nat} (s : State) (low : 0xE0 ≤ b) (high : b < 0xF0) :
    s.lead b = .inside s.found (b - 0xE0) 2 (if b = 0xE0 then 0xA0 else 0x80)
      (if b = 0xED then 0x9F else 0xBF) := by
  have notOne : ¬ b < 0x80 := by omega
  have valid : ¬ b < 0xC2 := by omega
  have notTwo : ¬ b < 0xE0 := by omega
  simp only [State.lead, notOne, valid, notTwo, high, if_true, if_false, State.inside]
  by_cases first : b = 0xE0
  · simp [first]
  · by_cases surrogates : b = 0xED <;> simp [first, surrogates]

theorem lead_four {b : Nat} (s : State) (low : 0xF0 ≤ b) (high : b ≤ 0xF4) :
    s.lead b = .inside s.found (b - 0xF0) 3 (if b = 0xF0 then 0x90 else 0x80)
      (if b = 0xF4 then 0x8F else 0xBF) := by
  have cases : b = 0xF0 ∨ b = 0xF1 ∨ b = 0xF2 ∨ b = 0xF3 ∨ b = 0xF4 := by omega
  rcases cases with rfl | rfl | rfl | rfl | rfl <;> rfl

theorem valid_toNat (c : Char) : c.toNat < 0xD800 ∨ 0xDFFF < c.toNat ∧ c.toNat < 0x110000 :=
  c.valid

theorem foldl_utf8EncodeChar (between : s.Between found) (c : Char) :
    ((String.utf8EncodeChar c).foldl State.step s).Between (some c :: found) := by
  have valid := valid_toNat c
  have same : c.val.toNat = c.toNat := rfl
  have whole : ∀ n, n = c.toNat → Char.ofNat n = c := by
    rintro n rfl
    exact Char.ofNat_toNat c
  simp only [String.utf8EncodeChar, same]
  generalize c.toNat = n at *
  split
  · rename_i one
    have lead : n < 0x80 := by omega
    simp [step_between between (show n < 256 by omega), State.lead, lead, State.Between,
      whole n rfl, between.1]
  · split
    · have lead := lead_two s (b := n / 64 % 0x20 + 0xC0) (by omega) (by omega)
      rw [between.1] at lead
      have last := step_last lead (b := n % 64 + 0x80) (by omega) (by omega)
      rw [whole _ (by omega)] at last
      simpa only [List.foldl_cons, List.foldl_nil, step_between between
        (show n / 64 % 0x20 + 0xC0 < 256 by omega)] using last
    · split
      · have lead := lead_three s (b := n / 4096 % 0x10 + 0xE0) (by omega) (by omega)
        rw [between.1] at lead
        have inner := step_inner lead (b := n / 64 % 64 + 0x80) (by omega)
          (by split <;> split <;> omega)
        have last := step_last inner (b := n % 64 + 0x80) (by omega) (by omega)
        rw [whole _ (by omega)] at last
        simpa only [List.foldl_cons, List.foldl_nil, step_between between
          (show n / 4096 % 0x10 + 0xE0 < 256 by omega)] using last
      · have lead := lead_four s (b := n / 262144 % 0x08 + 0xF0) (by omega) (by omega)
        rw [between.1] at lead
        have second := step_inner lead (b := n / 4096 % 64 + 0x80) (by omega)
          (by split <;> split <;> omega)
        have third := step_inner second (b := n / 64 % 64 + 0x80) (by omega) (by omega)
        have last := step_last third (b := n % 64 + 0x80) (by omega) (by omega)
        rw [whole _ (by omega)] at last
        simpa only [List.foldl_cons, List.foldl_nil, step_between between
          (show n / 262144 % 0x08 + 0xF0 < 256 by omega)] using last

theorem foldl_flatMap (between : s.Between found) (cs : List Char) :
    ((cs.flatMap String.utf8EncodeChar).foldl State.step s).Between
      ((cs.map some).reverse ++ found) := by
  induction cs generalizing s found with
  | nil => simpa using between
  | cons c cs ih =>
    rw [List.flatMap_cons, List.foldl_append]
    simpa using ih (foldl_utf8EncodeChar between c)

theorem characters_encode (text : String) : characters (encode text) = text.toList.map some := by
  have start : State.start.Between [] := ⟨rfl, rfl⟩
  obtain ⟨found, owed⟩ := foldl_flatMap start text.toList
  simp [characters, encode, State.close, found, owed]

@[simp] theorem decodeLossy_encode (text : String) : decodeLossy (encode text) = text := by
  simp [decodeLossy, characters_encode, Function.comp_def]

@[simp] theorem decode?_encode (text : String) : decode? (encode text) = some text := by
  have all : (text.toList.map some).mapM id = some text.toList := by
    induction text.toList with
    | nil => rfl
    | cons c cs ih => simp [ih]
  rw [decode?, characters_encode, all, Option.map_some, String.ofList_toList]

end CellStore.Utf8
