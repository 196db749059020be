import TaggedOutline.Text.Basic

/-!
# Links in Markdown titles

A link is shown by its label alone, and so is an image. Code spans are left as they are, also where
they look like links. `isEscaped` says which characters a backslash makes literal,
`closingLength?` finds the bracket that balances an opening one, `spans` marks the code spans of a
title, and `stripLinks` puts the parts together.
-/

namespace TaggedOutline.Title

/-- Whether the character at an offset follows an odd number of backslashes. -/
def isEscaped (t : Text) (offset : Nat) : Bool :=
  ((t.take offset).reverse.takeWhile (· = '\\')).length % 2 == 1

/-! ## Balanced brackets -/

/-- The length of the text up to and including the closer that balances `depth` open openers. A
backslash makes the next character literal. -/
def closingLength? (opener closer : Char) (depth : Nat) : Text → Option Nat
  | [] => none
  | '\\' :: _ :: r => (closingLength? opener closer depth r).map (· + 2)
  | c :: r =>
    if c = opener then (closingLength? opener closer (depth + 1) r).map (· + 1)
    else if c = closer then
      if depth ≤ 1 then some 1 else (closingLength? opener closer (depth - 1) r).map (· + 1)
    else (closingLength? opener closer depth r).map (· + 1)

/-- The link at the start of a text, which begins with its opening bracket: its label and its
length. An address stands in parentheses, bare or between angle brackets, or a reference in
brackets. -/
def link? (t : Text) : Option (Text × Nat) :=
  (closingLength? '[' ']' 0 t).bind fun n =>
    let label := (t.take (n - 1)).drop 1
    match t.drop n with
    | '(' :: '<' :: r =>
      (Text.cutAt? (· = '>') r).bind fun (address, rest) =>
        let gap := (rest.takeWhile fun c => c = ' ' || c = '\t').length
        if (rest.drop gap).head? = some ')' then some (label, n + address.length + gap + 4)
        else none
    | '(' :: r => (closingLength? '(' ')' 0 ('(' :: r)).map fun k => (label, n + k)
    | '[' :: r => (Text.cutAt? (· = ']') r).map fun (reference, _) => (label, n + reference.length + 2)
    | _ => none

/-! ## Code spans -/

/-- The length of the text up to the end of the next run of exactly `n` backticks on the line,
where `run` backticks precede the text. -/
def closeCode? (n run : Nat) : Text → Option Nat
  | [] => if run = n then some 0 else none
  | c :: r =>
    if c = '\x60' then (closeCode? n (run + 1) r).map (· + 1)
    else if run = n then some 0
    else if c = '\n' then none
    else (closeCode? n 0 r).map (· + 1)

/-- The length of the code span at the start of a text: a run of backticks, and all up to the next
run of the same length. -/
def codeSpan? (t : Text) : Option Nat :=
  let n := (t.takeWhile (· = '\x60')).length
  if n = 0 then none else (closeCode? n 0 (t.drop n)).map (n + ·)

/-- For each character the length of the code span that starts there, or zero. A span does not
start after a backtick or a backslash, nor inside the first `skip` characters. -/
def spansFrom (skip : Nat) (previous : Option Char) : Text → List Nat
  | [] => []
  | c :: r =>
    if 0 < skip then 0 :: spansFrom (skip - 1) (some c) r
    else if previous = some '\x60' ∨ previous = some '\\' then 0 :: spansFrom 0 (some c) r
    else match codeSpan? (c :: r) with
      | some n => n :: spansFrom (n - 1) (some c) r
      | none => 0 :: spansFrom 0 (some c) r

/-- The code spans of a title, by the characters they start at. -/
def spans (t : Text) : List Nat := spansFrom 0 none t

/-! ## Stripping -/

/-- Strips links from characters that carry the lengths of the code spans they start. The first
`skip` characters are left out and the `copy` after them are kept; `literal` says that the next
character is escaped. -/
def stripFrom (skip copy : Nat) (literal : Bool) : List (Char × Nat) → Text
  | [] => []
  | (c, span) :: r =>
    let next := r.head?.map Prod.fst
    let go (_ : Unit) : Text :=
      c :: stripFrom 0 0 (c = '\\' && !literal || c = '!' && literal && next = some '[') r
    if 0 < skip then stripFrom (skip - 1) copy false r
    else if 0 < copy then c :: stripFrom 0 (copy - 1) false r
    else if 0 < span then c :: stripFrom 0 (span - 1) false r
    else if literal then go ()
    else if c = '[' then
      match link? (c :: r.map Prod.fst) with
      | some (label, n) => label ++ stripFrom (n - 1) 0 false r
      | none => go ()
    else if c = '!' ∧ next = some '[' then
      match link? (r.map Prod.fst) with
      | some (label, n) => label ++ stripFrom n 0 false r
      | none => go ()
    else go ()

/-- A Markdown title with every link and image replaced by its label. -/
def stripLinks (t : Text) : Text := stripFrom 0 0 false (t.zip (spans t))

end TaggedOutline.Title
