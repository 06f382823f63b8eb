import HexAsm.Json.Numeral
import HexAsm.Settings.Basic
import HexAsm.Settings.Fault

/-!
# Reading settings

Settings are a JSON object with a member for each setting, or a JSON array of the values in order. Settings that are
not given keep their defaults. The text is read from left to right, and the first fault is the one reported.
-/

namespace HexAsm

open HexAsm.Json

namespace Settings

/-- What is read from a text, or its first fault. -/
abbrev Read (α : Type) := Except SettingsFault α

/-- A halt of JSON as a fault of settings. -/
def ofJson {α : Type} (r : Except Halt α) : Read α := r.mapError .json

/-! ## Values -/

/-- A number as a message tells it. -/
def foundNumber : Number → Found
  | .natural n => .natural n
  | .negative n => .negative n
  | .double x => .double x

/-- The value at the front of a text, which is none of those wanted. Arrays and objects are not read further. -/
def found (cs : List Char) : Read Found :=
  match cs with
  | [] => .error (.json .ended)
  | c :: rest =>
    if c = 'n' then ofJson ((expect ['u', 'l', 'l'] rest).map fun _ => .null)
    else if c = 't' then ofJson ((expect ['r', 'u', 'e'] rest).map fun _ => .bool true)
    else if c = 'f' then ofJson ((expect ['a', 'l', 's', 'e'] rest).map fun _ => .bool false)
    else if c = '-' ∨ c.isDigit then ofJson ((number cs).map fun r => foundNumber r.1)
    else if c = '"' then ofJson ((stringTail rest).map fun r => .string (String.ofList r.1))
    else if c = '[' then .ok .array
    else if c = '\x7b' then .ok .object
    else .error (.json .malformed)

/-- The fault of a value that is none of those wanted. -/
def mismatch {α : Type} (wanted : Wanted) (cs : List Char) : Read α := do
  .error (.wrongType (← found cs) wanted)

/-- The boolean at the front of a text. -/
def readBool (cs : List Char) : Read (Bool × List Char) :=
  match skipBlanks cs with
  | 't' :: rest => ofJson ((expect ['r', 'u', 'e'] rest).map (true, ·))
  | 'f' :: rest => ofJson ((expect ['a', 'l', 's', 'e'] rest).map (false, ·))
  | cs => mismatch .bool cs

/-- The count that a number stands for. -/
def countOfNumber : Number → Read UInt64
  | .natural n => .ok (UInt64.ofNat n)
  | .negative n => .error (.negativeCount n)
  | .double x => .error (.wrongType (.double x) .count)

/-- The count or null at the front of a text. -/
def readCount (cs : List Char) : Read (Option UInt64 × List Char) :=
  match skipBlanks cs with
  | [] => .error (.json .ended)
  | c :: rest =>
    if c = 'n' then ofJson ((expect ['u', 'l', 'l'] rest).map (none, ·))
    else if c = '-' ∨ c.isDigit then do
      let (n, rest) ← ofJson (number (c :: rest))
      .ok (some (← countOfNumber n), rest)
    else mismatch .count (c :: rest)

/-- The settings with one of them taken from the front of a text. -/
def readSetting (m : Setting) (s : Settings) (cs : List Char) : Read (Settings × List Char) :=
  match m with
  | .keepGoing => (readBool cs).map fun (b, rest) => ({ s with keepGoing := b }, rest)
  | .header => (readBool cs).map fun (b, rest) => ({ s with header := b }, rest)
  | .jobs => (readCount cs).map fun (n, rest) => ({ s with jobs := n }, rest)

/-! ## Arrays -/

/-- The text of the next element of an array, or the rest of the text after the array. -/
inductive Next where
  | more (cs : List Char)
  | done (cs : List Char)

/-- Looks for the next element of an array; elements after the first follow a comma. -/
def nextElement (first : Bool) (cs : List Char) : Read Next :=
  match skipBlanks cs with
  | [] => .error (.json .ended)
  | c :: rest =>
    if c = ']' then .ok (.done rest)
    else if first then .ok (.more (c :: rest))
    else if c = ',' then
      match skipBlanks rest with
      | [] => .error (.json .ended)
      | d :: rest => if d = ']' then .error (.json .malformed) else .ok (.more (d :: rest))
    else .error (.json .malformed)

/-- The text after the end of an array. -/
def arrayEnd (cs : List Char) : Read (List Char) :=
  ofJson (expect [']'] (skipBlanks cs))

/-- The settings with the given ones taken from the elements of an array, in order; the array may end early. -/
def readElements : List Setting → Bool → Settings → List Char → Read (Settings × List Char)
  | [], _, s, cs => (arrayEnd cs).map (s, ·)
  | m :: ms, first, s, cs => do
    match ← nextElement first cs with
    | .done rest => .ok (s, rest)
    | .more cs =>
      let (s, rest) ← readSetting m s cs
      readElements ms false s rest

/-! ## Objects -/

/-- Looks for the next member of an object, after its opening quotation mark; members after the first follow a
comma. -/
def nextMember (first : Bool) (cs : List Char) : Read Next :=
  match skipBlanks cs with
  | [] => .error (.json .ended)
  | c :: rest =>
    if c = '\x7d' then .ok (.done rest)
    else if first then
      if c = '"' then .ok (.more rest) else .error (.json .malformed)
    else if c = ',' then
      (ofJson (expect ['"'] (skipBlanks rest))).map .more
    else .error (.json .malformed)

/-- The settings with those in `unset` taken from the members of an object. A name that is not among them is refused
as soon as it is read. -/
def readMembers (unset : List Setting) (first : Bool) (s : Settings) (cs : List Char) :
    Read (Settings × List Char) := do
  match ← nextMember first cs with
  | .done rest => .ok (s, rest)
  | .more cs =>
    let (name, rest) ← ofJson (stringTail cs)
    match Setting.ofName? (String.ofList name) with
    | none => .error (.unknownMember (String.ofList name))
    | some m =>
      if h : m ∈ unset then
        have : (unset.erase m).length < unset.length := by
          rw [List.length_erase_of_mem h]
          exact Nat.sub_one_lt_of_lt (List.length_pos_of_mem h)
        let rest ← ofJson (expect [':'] (skipBlanks rest))
        let (s, rest) ← readSetting m s rest
        readMembers (unset.erase m) false s rest
      else .error (.repeatedMember m)
termination_by unset.length

/-! ## The whole text -/

/-- The settings at the front of a text. -/
def readValue (cs : List Char) : Read (Settings × List Char) :=
  match skipBlanks cs with
  | '[' :: rest => readElements Setting.all true {} rest
  | '\x7b' :: rest => readMembers Setting.all true {} rest
  | cs => mismatch .settings cs

/-- The settings that a JSON text gives. -/
def ofText (text : String) : Read Settings := do
  let (s, rest) ← readValue text.toList
  if skipBlanks rest = [] then .ok s else .error (.json .malformed)

end Settings

end HexAsm
