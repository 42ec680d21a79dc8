namespace CellStore

inductive Encoding
  | plain
  | fastDiff
  deriving DecidableEq

namespace Encoding

def name : Encoding → String
  | plain => "NONE"
  | fastDiff => "FAST_DIFF"

def id : Encoding → Nat
  | plain => 0
  | fastDiff => 4

def ofName? (name : String) : Option Encoding :=
  if name = "NONE" then some plain else if name = "FAST_DIFF" then some fastDiff else none

def ofId? : Nat → Option Encoding
  | 0 => some plain
  | 4 => some fastDiff
  | _ => none

@[simp] theorem ofId?_id (encoding : Encoding) : ofId? encoding.id = some encoding := by
  cases encoding <;> rfl

@[simp] theorem ofName?_name (encoding : Encoding) :
    ofName? encoding.name = some encoding := by
  cases encoding <;> rfl

end Encoding

end CellStore
