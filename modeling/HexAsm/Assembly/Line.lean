import HexAsm.Text.Blank

/-!
# Lines of assembly

A comment runs from `;`, `//` or `#` to the end of the line; the language has no quoted text that could hide a
marker. The tidy form of a line has no comment and no needless blank.
-/

namespace HexAsm.Line

open HexAsm.Text

/-! ## Comments -/

/-- The text starts with a comment marker. -/
def atMarker : List Char → Bool
  | ';' :: _ => true
  | '#' :: _ => true
  | '/' :: '/' :: _ => true
  | _ => false

/-- The first character that is not blank starts a comment marker. -/
def isComment (cs : List Char) : Bool := atMarker (trimStart cs)

/-- The part of a line before its first comment marker. -/
def code : List Char → List Char
  | [] => []
  | c :: cs => if atMarker (c :: cs) then [] else c :: code cs

/-! ## The tidy form -/

/-- The commas and the words between blanks and commas. -/
def lexemes (cs : List Char) : List (List Char) :=
  words (cs.flatMap fun c => if c = ',' then [' ', ',', ' '] else [c])

/-- The lexemes after `previous`, from the third lexeme of a line on: a space stands before each that is not a
comma and does not follow one. -/
def spellAfter (previous : List Char) : List (List Char) → List Char
  | [] => []
  | t :: ts => (if t = [','] ∨ previous = [','] then t else ' ' :: t) ++ spellAfter t ts

/-- The lexemes of a line with one space between neighbours, but none before or after a comma. A comma that is the
second lexeme keeps its space, so that it stays apart from the mnemonic. -/
def spell : List (List Char) → List Char
  | [] => []
  | [t] => t
  | t :: u :: us => t ++ (if t = [','] then u else ' ' :: u) ++ spellAfter u us

/-- The line without its comment and without needless blanks. -/
def tidy (cs : List Char) : List Char := spell (lexemes (code cs))

end HexAsm.Line
