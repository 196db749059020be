import TaggedOutline.Text.Replace

/-!
# Plain output

A control sequence of a terminal is an escape, a bracket, digits, semicolons and question marks, and
a letter. What is written to a file or a pipe holds none.
-/

namespace TaggedOutline.Frontend

open Text (Rule replaceMatches)

/-- Whether a character may stand between the bracket and the letter of a control sequence. -/
def isControlParameter (c : Char) : Bool := c.isDigit || c == ';' || c == '?'

/-- Drops a control sequence. -/
def dropControl : Rule
  | '\x1b' :: '[' :: r =>
    match r.dropWhile isControlParameter with
    | c :: rest => if c.isAlpha then some ([], rest) else none
    | [] => none
  | _ => none

/-- The text without control sequences. -/
def plain (t : Text) : Text := replaceMatches dropControl t

end TaggedOutline.Frontend
