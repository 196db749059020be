import TaggedOutline.Comment.Escape

/-!
# Tags and remarks

The body of a heading's comment holds tags, words that start with a number sign, and at most one
remark between double colons. `Marks.decode` reads a body and `Marks.encode` writes one;
`Marks.normalize` is the policy that ties a remark to a tag under which it can be found.
-/

namespace TaggedOutline

/-- The tags of a heading, in written order and without their number signs, and its remark. -/
structure Marks where
  tags : List Text := []
  remark : Option Text := none
  deriving DecidableEq, Repr

namespace Marks

/-! ## Reading -/

/-- The text up to the next double colon on the same line, and what follows it. -/
def closeRemark? : Text → Option (Text × Text)
  | ':' :: ':' :: r => some ([], r)
  | c :: r => if c = '\n' then none else (closeRemark? r).map fun (a, b) => (c :: a, b)
  | [] => none

/-- The first remark of a body: what precedes it, what stands between its double colons, and what
follows it. -/
def findRemark? : Text → Option (Text × Text × Text)
  | [] => none
  | c :: r =>
    match (Text.after? [':', ':'] (c :: r)).bind closeRemark? with
    | some (inside, rest) => some ([], inside, rest)
    | none => (findRemark? r).map fun (a, b) => (c :: a, b)

/-- A tag is a word that has more than its number sign. -/
def tagOfWord? : Text → Option Text
  | '#' :: c :: r => some (Comment.unescape (c :: r))
  | _ => none

/-- A text, unless it is empty. -/
def nonEmpty? (t : Text) : Option Text := if t = [] then none else some t

/-- The marks in the body of a comment. Words without a number sign are passed over. -/
def decode (body : Text) : Marks :=
  match findRemark? body with
  | none => { tags := (Text.words body).filterMap tagOfWord? }
  | some (before, inside, rest) =>
    { tags := (Text.words (before ++ rest)).filterMap tagOfWord?
      remark := nonEmpty? (Comment.unescape (Text.trim inside)) }

/-! ## Writing -/

/-- The tags without surrounding blanks; blank ones are left out. -/
def trimmedTags (tags : List Text) : List Text := (tags.map Text.trim).filter (· ≠ [])

/-- The remark without surrounding blanks, unless nothing is left of it. -/
def trimmedRemark (remark : Option Text) : Option Text :=
  remark.bind fun t => nonEmpty? (Text.trim t)

/-- The written form of a tag. -/
def tagWord (tag : Text) : Text := '#' :: Comment.escape tag

/-- The written form of a remark. -/
def remarkSpan (remark : Text) : Text := [':', ':', ' '] ++ Comment.escape remark ++ [' ', ':', ':']

/-- The body that holds the marks; it is empty when there are none. -/
def encode (m : Marks) : Text :=
  Text.unwords ((trimmedTags m.tags).map tagWord ++ ((trimmedRemark m.remark).map remarkSpan).toList)

/-! ## The policy for remarks -/

/-- Tags are trimmed and made distinct. Beside other tags the remark tag is dropped. Without them
it is the one tag of a heading with a remark, if it was there or `ensure` adds it. A remark never
stands without a tag. -/
def normalize (m : Marks) (remarkTag : Text) (ensure : Bool) : Marks :=
  let tags := Text.distinct (trimmedTags m.tags)
  let others := tags.filter (· ≠ remarkTag)
  match trimmedRemark m.remark with
  | none => { tags := others }
  | some remark =>
    let kept :=
      if others ≠ [] then others
      else if ensure && remarkTag ≠ [] then [remarkTag]
      else tags.filter (· = remarkTag)
    if kept = [] then {} else { tags := kept, remark := some remark }

end Marks

end TaggedOutline
