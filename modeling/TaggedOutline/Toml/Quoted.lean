import TaggedOutline.Text.Basic

/-!
# Strings and keys of TOML

A reader takes what it reads off the front of a text and gives the rest. Strings stand between
quotation marks, where a backslash starts an escape, or between apostrophes, where nothing does;
three marks of either kind surround a string of several lines. A key is a path of bare words and
strings.
-/

namespace TaggedOutline.Toml

/-- Why a text is not read: it is no TOML, it holds a decimal number of so many digits that it is not
converted, or it is nested too deep. -/
inductive Fault
  | invalid
  | tooManyDigits (count : Nat)
  | tooDeep
  deriving DecidableEq, Repr

/-- Reads something off the front of a text. -/
abbrev Reader (α : Type) := Text → Except Fault (α × Text)

/-! ## Characters -/

/-- The blanks inside of a line. -/
def isSpace (c : Char) : Bool := c == ' ' || c == '\t'

def isSpaceOrFeed (c : Char) : Bool := isSpace c || c == '\n'

/-- The control characters, which stand for themselves nowhere; the tab is not one of them. -/
def isControl (c : Char) : Bool := (c.toNat < 32 && c != '\t') || c.toNat == 127

/-- The control characters other than a line feed. -/
def isControlInBlock (c : Char) : Bool := isControl c && c != '\n'

/-- The characters of a key that is not quoted. -/
def isBare (c : Char) : Bool := c.isAlphanum || c == '-' || c == '_'

def skipSpaces (t : Text) : Text := t.dropWhile isSpace

/-! ## Strings -/

/-- The value of a hexadecimal digit. -/
def hexValue? (c : Char) : Option Nat :=
  if c.isDigit then some (c.toNat - '0'.toNat)
  else if 'a' ≤ c ∧ c ≤ 'f' then some (c.toNat - 'a'.toNat + 10)
  else if 'A' ≤ c ∧ c ≤ 'F' then some (c.toNat - 'A'.toNat + 10)
  else none

/-- The character whose code point is written with `width` hexadecimal digits. -/
def codePoint? (width : Nat) (t : Text) : Option (Text × Text) :=
  let digits := t.take width
  if digits.length < width then none
  else (digits.mapM hexValue?).bind fun ds =>
    let n := ds.foldl (fun n d => 16 * n + d) 0
    if n.isValidChar then some ([Char.ofNat n], t.drop width) else none

/-- What a backslash before the end of a line skips: the break and all blanks after it. -/
def skipBreak? (t : Text) : Option (Text × Text) :=
  match skipSpaces t with
  | [] => some ([], [])
  | '\n' :: r => some ([], r.dropWhile isSpaceOrFeed)
  | _ => none

/-- What the characters after a backslash stand for. -/
def escape? (block : Bool) : Text → Option (Text × Text)
  | [] => none
  | c :: r =>
    match c with
    | 'b' => some (['\x08'], r)
    | 't' => some (['\t'], r)
    | 'n' => some (['\n'], r)
    | 'f' => some (['\x0c'], r)
    | 'r' => some (['\r'], r)
    | '\x22' => some (['\x22'], r)
    | '\\' => some (['\\'], r)
    | 'u' => codePoint? 4 r
    | 'U' => codePoint? 8 r
    | c => if block && isSpaceOrFeed c then skipBreak? (c :: r) else none

/-- Reads up to a closing quotation mark, or to three of them in a block. There are at most `fuel`
characters. -/
def basicFrom (block : Bool) : Nat → Reader Text
  | 0, _ => .error .invalid
  | _, [] => .error .invalid
  | fuel + 1, '\x22' :: r =>
    if block then
      match r with
      | '\x22' :: '\x22' :: rest => .ok ([], rest)
      | r => (basicFrom block fuel r).map fun (s, rest) => ('\x22' :: s, rest)
    else .ok ([], r)
  | fuel + 1, '\\' :: r =>
    match escape? block r with
    | some (s, r) => (basicFrom block fuel r).map fun (s', rest) => (s ++ s', rest)
    | none => .error .invalid
  | fuel + 1, c :: r =>
    if isControl c && !(block && c == '\n') then .error .invalid
    else (basicFrom block fuel r).map fun (s, rest) => (c :: s, rest)

/-- The rest of a string after its quotation mark. -/
def basic : Reader Text := fun t => basicFrom false (t.length + 1) t

/-- The rest of a string after its apostrophe. -/
def literal : Reader Text := fun t =>
  match Text.cutAt? (· == '\'') t with
  | some (body, rest) => if body.any isControl then .error .invalid else .ok (body, rest)
  | none => .error .invalid

/-- The text up to three apostrophes. -/
def literalBlock : Reader Text
  | '\'' :: '\'' :: '\'' :: r => .ok ([], r)
  | [] => .error .invalid
  | c :: r =>
    if isControlInBlock c then .error .invalid
    else (literalBlock r).map fun (s, rest) => (c :: s, rest)

/-- Up to two marks after the end of a block belong to the string. -/
def addMarks (mark : Char) (s rest : Text) : Text × Text :=
  match rest with
  | c :: d :: r =>
    if c == mark then if d == mark then (s ++ [c, d], r) else (s ++ [c], d :: r) else (s, rest)
  | [c] => if c == mark then (s ++ [c], []) else (s, rest)
  | [] => (s, [])

/-- The rest of a block after its three opening marks; a break right after them is left out. -/
def block (mark : Char) : Reader Text := fun t =>
  let body := match t with
    | '\n' :: r => r
    | t => t
  let read := if mark == '\'' then literalBlock body else basicFrom true (body.length + 1) body
  read.map fun (s, rest) => addMarks mark s rest

/-- A string, if one starts here. -/
def string? (t : Text) : Option (Except Fault (Text × Text)) :=
  match t with
  | '\x22' :: '\x22' :: '\x22' :: r => some (block '\x22' r)
  | '\x22' :: r => some (basic r)
  | '\'' :: '\'' :: '\'' :: r => some (block '\'' r)
  | '\'' :: r => some (literal r)
  | _ => none

/-! ## Keys -/

/-- One part of a key; the string of a key has one line. -/
def keyPart : Reader Text
  | '\x22' :: r => basic r
  | '\'' :: r => literal r
  | t =>
    match t.takeWhile isBare with
    | [] => .error .invalid
    | word => .ok (word, t.dropWhile isBare)

/-- A path of at most `fuel` parts, with the spaces after it. -/
def keyFrom : Nat → Reader (List Text)
  | 0, _ => .error .invalid
  | fuel + 1, t => do
    let (part, r) ← keyPart t
    match skipSpaces r with
    | '.' :: r => (keyFrom fuel (skipSpaces r)).map fun (parts, rest) => (part :: parts, rest)
    | rest => .ok ([part], rest)

/-- A path of parts between dots, with the spaces after it. -/
def key : Reader (List Text) := fun t => keyFrom (t.length + 1) t

end TaggedOutline.Toml
