import CellStore.Bytes

namespace CellStore.Utf8

/-- A reader between two bytes: the characters so far, the last one first and `none` for each
part that is no character, and the sequence under way. -/
structure State where
  found : List (Option Char)
  code : Nat
  /-- Bytes the sequence still needs. -/
  owed : Nat
  /-- Bounds on its next byte. -/
  least : Nat
  most : Nat

def State.start : State := ⟨[], 0, 0, 0x80, 0xBF⟩

/-- Reads the first byte of a sequence. The bounds on its second byte leave out overlong forms,
surrogates and values above U+10FFFF. -/
def State.lead (s : State) (b : Nat) : State :=
  let opens (code owed least most : Nat) : State := { s with code, owed, least, most }
  if b < 0x80 then { s with found := some (Char.ofNat b) :: s.found, owed := 0 }
  else if b < 0xC2 then { s with found := none :: s.found, owed := 0 }
  else if b < 0xE0 then opens (b - 0xC0) 1 0x80 0xBF
  else if b = 0xE0 then opens 0 2 0xA0 0xBF
  else if b = 0xED then opens 0xD 2 0x80 0x9F
  else if b < 0xF0 then opens (b - 0xE0) 2 0x80 0xBF
  else if b = 0xF0 then opens 0 3 0x90 0xBF
  else if b < 0xF4 then opens (b - 0xF0) 3 0x80 0xBF
  else if b = 0xF4 then opens 4 3 0x80 0x8F
  else { s with found := none :: s.found, owed := 0 }

/-- A byte that cannot continue the sequence under way ends it as one invalid part and is read
again as a first byte. -/
def State.step (s : State) (byte : UInt8) : State :=
  let b := byte.toNat
  match s.owed with
  | 0 => s.lead b
  | owed + 1 =>
    if s.least ≤ b ∧ b ≤ s.most then
      let code := s.code * 64 + b % 64
      let found := if owed = 0 then some (Char.ofNat code) :: s.found else s.found
      ⟨found, code, owed, 0x80, 0xBF⟩
    else State.lead { s with found := none :: s.found } b

def State.close (s : State) : List (Option Char) :=
  (if s.owed = 0 then s.found else none :: s.found).reverse

def characters (bytes : Bytes) : List (Option Char) :=
  (bytes.foldl State.step State.start).close

def decodeLossy (bytes : Bytes) : String :=
  String.ofList ((characters bytes).map (·.getD '\uFFFD'))

def decode? (bytes : Bytes) : Option String :=
  ((characters bytes).mapM id).map String.ofList

def encode (text : String) : Bytes := text.toList.flatMap String.utf8EncodeChar

end CellStore.Utf8
