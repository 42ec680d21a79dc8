import CellStore.Bytes

/-! Decimal numbers below 2^64, as they are written in settings. -/

namespace CellStore.Text

inductive NumeralFlaw
  | empty
  | badDigit
  | tooLarge
  deriving DecidableEq

def NumeralFlaw.message : NumeralFlaw → String
  | empty => "cannot parse integer from empty string"
  | badDigit => "invalid digit found in string"
  | tooLarge => "number too large to fit in target type"

/-- Reads the digits that follow those of `n`. Of several flaws the first one counts. -/
def readDigits : (n : Nat) → List Char → Except NumeralFlaw Nat
  | n, [] => .ok n
  | n, c :: cs =>
    if c.isDigit then
      let n := 10 * n + (c.toNat - 48)
      if n < 0x1_0000_0000_0000_0000 then readDigits n cs else .error .tooLarge
    else .error .badDigit

def readNumeral : List Char → Except NumeralFlaw Nat
  | [] => .error .empty
  | ['+'] => .error .badDigit
  | '+' :: cs => readDigits 0 cs
  | cs => readDigits 0 cs

end CellStore.Text
