/-!
# Lines

A line ends at a line feed, which takes one carriage return directly before it along.
-/

namespace HexAsm.Text

/-- The lines of a text. What follows the last line feed is a line only if it is not empty, and it keeps its
carriage returns. -/
def lines : List Char → List (List Char)
  | [] => []
  | '\n' :: cs => [] :: lines cs
  | '\r' :: '\n' :: cs => [] :: lines cs
  | c :: cs =>
    match lines cs with
    | [] => [[c]]
    | l :: ls => (c :: l) :: ls

/-- The texts, each followed by a line feed. -/
def unlines (ts : List String) : String := String.ofList (ts.flatMap fun t => t.toList ++ ['\n'])

end HexAsm.Text
