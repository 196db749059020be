import TaggedOutline.Text.Replace

/-!
# Inline markup in Typst titles

Links, calls that style their content, calls on a string, labels, formulas and escapes are reduced
to what they show. Each kind is a rule that replaces its matches, and the rules run one after
another.
-/

namespace TaggedOutline.Title

open Text (Rule)

/-- The text up to the next `close` on the same line, and what follows it. -/
def upTo? (close : Char) : Text → Option (Text × Text)
  | [] => none
  | c :: r =>
    if c = close then some ([], r)
    else if c = '\n' then none
    else (upTo? close r).map fun (a, b) => (c :: a, b)

/-- Content in brackets. -/
def bracketed? : Text → Option (Text × Text)
  | '[' :: r => upTo? ']' r
  | _ => none

/-- What follows the name of one of the given calls, without the blanks before it. -/
def afterCall? (names : List String) : Text → Option Text
  | '#' :: r => (names.findSome? fun name => Text.after? name.toList r).map Text.trimStart
  | _ => none

/-- A link is shown by its content. -/
def linkRule : Rule := fun t =>
  (afterCall? ["link"] t).bind fun
    | '(' :: r => (Text.cutAt? (· = ')') r).bind fun (_, r) => bracketed? (Text.trimStart r)
    | _ => none

/-- A call that styles content in brackets is shown by it. -/
def contentCallRule : Rule := fun t =>
  (afterCall? ["emph", "strong", "underline", "strike", "quote", "math"] t).bind bracketed?

def isQuotationMark (c : Char) : Bool := c = '\x22' || c = '\''

/-- A call on a string is shown by the string. -/
def stringCallRule : Rule := fun t =>
  let names := ["code", "raw", "emph", "strong", "underline", "strike", "quote", "math"]
  (afterCall? names t).bind fun
    | '(' :: r =>
      match Text.trimStart r with
      | c :: r =>
        if isQuotationMark c then
          (Text.cutAt? isQuotationMark r).bind fun (inside, r) =>
            match Text.trimStart r with
            | ')' :: r => if inside = [] then none else some (inside, r)
            | _ => none
        else none
      | [] => none
    | _ => none

/-- A label is shown as a space. -/
def labelRule : Rule
  | '<' :: r =>
    (Text.cutAt? (· = '>') r).bind fun (inside, r) => if inside = [] then none else some ([' '], r)
  | _ => none

/-- A formula is shown without its dollar signs. -/
def formulaRule : Rule
  | '$' :: c :: r => if c = '\n' then none else (upTo? '$' r).map fun (a, b) => (c :: a, b)
  | _ => none

/-- An escaped bracket or backslash is shown by itself. -/
def escapeRule : Rule
  | '\\' :: c :: r => if c ∈ ['\\', '[', ']', '(', ')', '\x7b', '\x7d'] then some ([c], r) else none
  | _ => none

/-- A Typst title without inline markup. -/
def stripInline (t : Text) : Text :=
  [linkRule, contentCallRule, stringCallRule, labelRule, formulaRule, escapeRule].foldl
    (fun t rule => Text.replaceMatches rule t) t

end TaggedOutline.Title
