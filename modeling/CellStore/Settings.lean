import CellStore.Text.Blank
import CellStore.Text.Numeral
import CellStore.Text.Quoted

namespace CellStore

inductive SettingValue
  | number (n : Nat)
  | text (text : String)
  deriving DecidableEq

inductive SettingError
  | missing (name : String)
  | unreadable (text name : String) (flaw : Text.NumeralFlaw)
  | notNumber (text : String)
  /-- What a setting of its own kind refuses. -/
  | refused (message : String)
  deriving DecidableEq

def SettingError.message : SettingError → String
  | missing name => s!"Config '{name}' not found"
  | unreadable text name flaw =>
    s!"Failed to parse '{text}' for config '{name}': {flaw.message}"
  | notNumber text => s!"Cannot cast String({Text.quoted text}) to usize"
  | refused message => message

namespace SettingValue

def toNumber : SettingValue → Except SettingError Nat
  | number n => .ok n
  | text t => .error (.notNumber t)

def toText : SettingValue → String
  | number n => toString n
  | text t => t

end SettingValue

structure Setting where
  name : String
  required : Bool
  default : Option SettingValue
  parse : Option String → Except SettingError SettingValue

/-- Texts by name. Of several texts under one name, the last counts. -/
structure Settings where
  entries : List (String × String)

namespace Settings

def text? (settings : Settings) (name : String) : Option String :=
  settings.entries.reverse.lookup name

def get (settings : Settings) (setting : Setting) : Except SettingError SettingValue :=
  setting.parse (settings.text? setting.name)

/-- The value of a setting, or its default when it has no good value. -/
def get? (settings : Settings) (setting : Setting) : Option SettingValue :=
  match settings.get setting with
  | .ok value => some value
  | .error _ => setting.default

/-- The value of a setting or its default; without a default, why there is no value. -/
def getOrDefault (settings : Settings) (setting : Setting) : Except SettingError SettingValue :=
  match settings.get setting with
  | .ok value => .ok value
  | .error error => setting.default.elim (.error error) .ok

/-- Fails when a required setting is missing, or when a setting that is there has no good value. -/
def validate (settings : Settings) (setting : Setting) : Except SettingError Unit :=
  if (settings.text? setting.name).isSome then
    (settings.get setting).map fun _ => ()
  else if setting.required then .error (.missing setting.name)
  else .ok ()

end Settings

namespace Setting

def ofText (name : String) (default : Option String) : Setting where
  name
  required := false
  default := default.map .text
  parse
    | none => .error (.missing name)
    | some text => .ok (.text text)

/-- A setting whose value is a number. Blanks around it do not count. -/
def ofNumber (name : String) (default : Option Nat) : Setting where
  name
  required := false
  default := default.map .number
  parse
    | none => .error (.missing name)
    | some text =>
      match Text.readNumeral (Text.trim text.toList) with
      | .ok n => .ok (.number n)
      | .error flaw => .error (.unreadable text name flaw)

end Setting

end CellStore
