import HexAsm.Machine.Word
import HexAsm.Text.Blank
import HexAsm.Text.Lines

/-!
# Memory images

An image is a text that lists the words of a memory. It may start with a format line; `#` starts a comment, and blanks
and line ends separate the words.
-/

namespace HexAsm.Image

open HexAsm.Text

/-- The line that names the format. -/
def formatLine : String := "v2.0 raw"

/-- The lines that may stand before the words. -/
def header : List String := [formatLine, "# nibble-asm image"]

/-- The image of a list of words, one on each line. -/
def render (ws : List Word) (withHeader : Bool) : String :=
  unlines ((if withHeader then header else []) ++ ws.map Word.text)

/-- The part of a line before its comment. -/
def body (line : List Char) : List Char := line.takeWhile (· != '#')

/-- The texts that stand for words on a line. The first line may be the format line, which holds none. -/
def entriesOfLine (line : List Char) (number : Nat) : List String :=
  if number = 1 ∧ trim (body line) = formatLine.toList then []
  else (words (body line)).map String.ofList

/-- The texts that stand for words in an image, each with the number of its line; the first line is line 1. -/
def entries (image : String) : List (Nat × String) :=
  ((lines image.toList).zipIdx 1).flatMap fun (line, number) =>
    (entriesOfLine line number).map fun entry => (number, entry)

end HexAsm.Image
