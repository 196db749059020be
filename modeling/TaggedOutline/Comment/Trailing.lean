import TaggedOutline.Comment.Marks
import TaggedOutline.Document.Basic

/-!
# Trailing comments

The comment of a heading is the last thing on its line. In Markdown it is closed by `-->` with
nothing but blanks after it, and starts at the first `<!--` from which it can be closed; in Typst
it starts at the first `//`. `find?` locates a comment, `strip` removes it and `update` writes
another one in its place.
-/

namespace TaggedOutline.Comment

/-- What opens a comment. -/
def opening : Markup → Text
  | .markdown => ['<', '!', '-', '-']
  | .typst => ['/', '/']

/-- What closes a Markdown comment. -/
def closing : Text := ['-', '-', '>']

/-- A comment in a text: the offsets of its start and its end, and its body. -/
structure Found where
  start : Nat
  stop : Nat
  body : Text
  deriving DecidableEq, Repr

/-! ## Reading -/

/-- The body of a Markdown comment whose opening precedes the text. It is trimmed and must not
run over a line feed. -/
def markdownBody? (rest : Text) : Option Text :=
  (Text.before? closing (Text.trimEnd rest)).bind fun inside =>
    let body := Text.trim inside
    if body.contains '\n' then none else some body

/-- The body of a Typst comment whose opening precedes the text, and the number of characters after
it. Only the line feed that ends the text may follow the body. -/
def typstBody? (rest : Text) : Option (Text × Nat) :=
  let bare := Text.trimStart rest
  let body := bare.takeWhile (· ≠ '\n')
  match bare.drop body.length with
  | [] => some (body, 0)
  | ['\n'] => some (body, 1)
  | _ => none

/-- The body of a comment whose opening precedes the text, and the number of characters after the
comment. -/
def body? : Markup → Text → Option (Text × Nat)
  | .markdown, rest => (markdownBody? rest).map (·, 0)
  | .typst, rest => typstBody? rest

/-- The first comment at or after offset `start`, where `t` begins. -/
def findFrom? (markup : Markup) (start : Nat) (t : Text) : Option Found :=
  match (Text.after? (opening markup) t).bind (body? markup) with
  | some (body, left) => some ⟨start, start + t.length - left, body⟩
  | none =>
    match t with
    | [] => none
    | _ :: r => findFrom? markup (start + 1) r

/-- The trailing comment of a line. -/
def find? (markup : Markup) (line : Text) : Option Found := findFrom? markup 0 line

/-! ## Removing -/

/-- What remains after a comment whose opening precedes the text, if the comment can be removed
there: it may run over line feeds only before its first other character. -/
def remainder? : Markup → Text → Option Text
  | .markdown, rest =>
    (Text.before? closing (Text.trimEnd rest)).bind fun inside =>
      if (Text.trimStart inside).contains '\n' then none else some []
  | .typst, rest =>
    match rest.dropWhile (· ≠ '\n') with
    | [] => some []
    | ['\n'] => some ['\n']
    | _ => none

/-- The text before the first comment that can be removed, and what remains after it. -/
def cut? (markup : Markup) (t : Text) : Option (Text × Text) :=
  match (Text.after? (opening markup) t).bind (remainder? markup) with
  | some rest => some ([], rest)
  | none =>
    match t with
    | [] => none
    | c :: r => (cut? markup r).map fun (a, b) => (c :: a, b)

/-- The line without its trailing comment and the blanks before it. -/
def strip (markup : Markup) (line : Text) : Text :=
  match cut? markup line with
  | some (before, rest) => Text.trimEnd before ++ rest
  | none => line

/-! ## Writing -/

/-- A comment with the given body. -/
def wrap (markup : Markup) (body : Text) : Text :=
  match markup with
  | .markdown => opening .markdown ++ [' '] ++ body ++ [' '] ++ closing
  | .typst => opening .typst ++ [' '] ++ body

/-- The line with its trailing comment replaced by one that holds the marks, or by nothing when
there are no marks. -/
def update (markup : Markup) (line : Text) (m : Marks) : Text :=
  let base := Text.trimEnd (strip markup line)
  let body := m.encode
  if body = [] then base else Text.trimEnd (base ++ [' '] ++ wrap markup body)

end TaggedOutline.Comment
