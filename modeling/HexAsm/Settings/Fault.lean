import HexAsm.Decimal.Spelling
import HexAsm.Json.Scan
import HexAsm.Text.Quoted

/-!
# Faults of settings

The settings that a JSON text can give, and why a text gives none.
-/

namespace HexAsm

/-! ## Members -/

/-- A setting that can be given. -/
inductive Setting where
  | keepGoing
  | header
  | jobs
  deriving DecidableEq

namespace Setting

/-- The settings in the order in which an array gives them. -/
def all : List Setting := [.keepGoing, .header, .jobs]

/-- The member name of a setting. -/
def name : Setting → String
  | .keepGoing => "continue_on_error"
  | .header => "header"
  | .jobs => "jobs"

/-- The setting with the given member name. -/
def ofName? (s : String) : Option Setting := all.find? fun m => m.name == s

end Setting

/-! ## Values in messages -/

/-- A JSON value as far as a message tells it. -/
inductive Found where
  | null
  | bool (b : Bool)
  | natural (n : Nat)
  | negative (n : Nat)
  | double (x : Float)
  | string (s : String)
  | array
  | object

/-- Doubles are positional up to sixteen digits before the point and four zeros after it; a positive exponent has
a plus sign. -/
def Found.doubleStyle : Decimal.Style := ⟨-4, 16, ['+']⟩

/-- The description of a value. -/
def Found.description : Found → String
  | .null => "null"
  | .bool b => "boolean `" ++ toString b ++ "`"
  | .natural n => "integer `" ++ toString n ++ "`"
  | .negative n => "integer `-" ++ toString n ++ "`"
  | .double x => "floating point `" ++ Decimal.spell doubleStyle x ++ "`"
  | .string s => "string " ++ Text.quote s
  | .array => "sequence"
  | .object => "map"

/-- What stands where a value is read. -/
inductive Wanted where
  | settings
  | bool
  | count

/-- The description of what is wanted. -/
def Wanted.description : Wanted → String
  | .settings => "struct Config"
  | .bool => "a boolean"
  | .count => "usize"

/-! ## Faults -/

/-- Why a text gives no settings. -/
inductive SettingsFault where
  | json (halt : Json.Halt)
  | unknownMember (name : String)
  | repeatedMember (setting : Setting)
  | wrongType (found : Found) (wanted : Wanted)
  | negativeCount (n : Nat)

/-- The wording of a fault in the content of a JSON text; a text that is not JSON has none. -/
def SettingsFault.message? : SettingsFault → Option String
  | .json _ => none
  | .unknownMember name =>
    let names := Setting.all.map fun m => "`" ++ m.name ++ "`"
    some ("unknown field `" ++ name ++ "`, expected one of " ++ String.intercalate ", " names)
  | .repeatedMember m => some ("duplicate field `" ++ m.name ++ "`")
  | .wrongType found wanted =>
    some ("invalid type: " ++ found.description ++ ", expected " ++ wanted.description)
  | .negativeCount n =>
    some ("invalid value: " ++ (Found.negative n).description ++ ", expected " ++ Wanted.count.description)

end HexAsm
