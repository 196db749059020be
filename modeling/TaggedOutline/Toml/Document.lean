import TaggedOutline.Toml.Number
import TaggedOutline.Toml.Tree

/-!
# TOML texts

A text is read one statement at a time: a header opens a table, and a key and a value go into the
table that was opened last. The result is the table of the whole text. How deep values may lie inside
of one another is up to whoever reads the text (`nesting`).
-/

namespace TaggedOutline.Toml

/-! ## Comments -/

/-- The text after a comment, which reaches to the end of its line. -/
def skipComment : Text → Except Fault Text
  | '#' :: r =>
    if (r.takeWhile (· != '\n')).any isControl then .error .invalid
    else .ok (r.dropWhile (· != '\n'))
  | t => .ok t

/-- The text after blanks, breaks and at most `fuel` comments. -/
def skipLinesFrom : Nat → Text → Except Fault Text
  | 0, _ => .error .invalid
  | fuel + 1, t =>
    match t.dropWhile isSpaceOrFeed with
    | '#' :: r => do skipLinesFrom fuel (← skipComment ('#' :: r))
    | r => .ok r

/-- The text after blanks, breaks and comments. -/
def skipLines (t : Text) : Except Fault Text := skipLinesFrom (t.length + 1) t

/-! ## Values -/

/-- How much deeper the items of a list lie. -/
def listDepth : Nat := 2

/-- How much deeper the values of a table lie. -/
def tableDepth : Nat := 3

mutual

/-- A value at a depth that holds at most `fuel` values and separators. -/
def valueFrom (nesting depth : Nat) : Nat → Reader Value
  | 0, _ => .error .invalid
  | fuel + 1, t =>
    match string? t with
    | some read => read.map fun (s, rest) => (.text s, rest)
    | none =>
      match t with
      | 't' :: 'r' :: 'u' :: 'e' :: r => .ok (.boolean true, r)
      | 'f' :: 'a' :: 'l' :: 's' :: 'e' :: r => .ok (.boolean false, r)
      | '[' :: r =>
        (itemsFrom nesting (depth + listDepth) fuel r).map fun (vs, rest) => (.list vs, rest)
      | '\x7b' :: r =>
        match skipSpaces r with
        | '\x7d' :: rest => .ok (.table [], rest)
        | r =>
          (pairsFrom nesting (depth + tableDepth) fuel [] r).map fun (es, rest) =>
            (.table (valuesOf es), rest)
      | t => ((moment? t).or (number? t)).getD (.error .invalid)

/-- The items of a list up to its closing bracket; one separator may follow the last. -/
def itemsFrom (nesting depth : Nat) : Nat → Reader (List Value)
  | 0, _ => .error .invalid
  | fuel + 1, t => do
    if nesting < depth then throw .tooDeep
    match ← skipLines t with
    | ']' :: r => return ([], r)
    | r =>
      let (v, r) ← valueFrom nesting depth fuel r
      match ← skipLines r with
      | ']' :: r => return ([v], r)
      | ',' :: r =>
        let (vs, rest) ← itemsFrom nesting depth fuel r
        return (v :: vs, rest)
      | _ => throw .invalid

/-- The keys and values of a table up to its closing brace, after those read before. -/
def pairsFrom (nesting depth : Nat) : Nat → Entries → Reader Entries
  | 0, _, _ => .error .invalid
  | fuel + 1, entries, t => do
    if nesting < depth then throw .tooDeep
    let (path, v, r) ← pairFrom nesting depth fuel t
    match putDotted v path entries, skipSpaces r with
    | some entries, '\x7d' :: r => return (entries, r)
    | some entries, ',' :: r => pairsFrom nesting depth fuel entries (skipSpaces r)
    | _, _ => throw .invalid

/-- A key and its value. -/
def pairFrom (nesting depth : Nat) : Nat → Text → Except Fault (List Text × Value × Text)
  | 0, _ => .error .invalid
  | fuel + 1, t => do
    match ← key t with
    | (path, '=' :: r) =>
      let (v, rest) ← valueFrom nesting depth fuel (skipSpaces r)
      return (path, v, rest)
    | _ => throw .invalid

end

/-! ## Statements -/

/-- A statement: a header opens a table or appends one, and a pair puts a value under a key. -/
inductive Statement
  | table (path : List Text)
  | item (path : List Text)
  | pair (path : List Text) (v : Value)

/-- A statement, if one starts here. -/
def statement? (nesting : Nat) : Text → Except Fault (Option Statement × Text)
  | '[' :: '[' :: r => do
    match ← key (skipSpaces r) with
    | (path, ']' :: ']' :: r) => return (some (.item path), r)
    | _ => throw .invalid
  | '[' :: r => do
    match ← key (skipSpaces r) with
    | (path, ']' :: r) => return (some (.table path), r)
    | _ => throw .invalid
  | t =>
    match t with
    | c :: _ =>
      if isBare c || c == '\x22' || c == '\'' then do
        let (path, v, r) ← pairFrom nesting 0 (2 * t.length + 2) t
        return (some (.pair path v), r)
      else return (none, t)
    | [] => return (none, [])

/-- The tables of the statements so far, and the path of the table that was opened last. -/
structure Building where
  entries : Entries := []
  current : List Text := []

/-- The tables after one more statement. -/
def Building.add (b : Building) : Statement → Option Building
  | .table path => (atLast openTable path b.entries).map fun e => ⟨e, path⟩
  | .item path => (atLast appendTable path b.entries).map fun e => ⟨e, path⟩
  | .pair path v => (within (putDotted v path) b.current b.entries).map fun e => ⟨e, b.current⟩

/-- Reads the statements of at most `fuel` lines. -/
def readFrom (nesting : Nat) : Nat → Building → Text → Except Fault Building
  | 0, _, _ => .error .invalid
  | fuel + 1, b, t => do
    let (statement, r) ← statement? nesting (skipSpaces t)
    let b ← match statement with
      | none => .ok b
      | some s => (b.add s).elim (.error .invalid) .ok
    match ← skipComment (skipSpaces r) with
    | [] => return b
    | '\n' :: r => readFrom nesting fuel b r
    | _ => throw .invalid

/-- The table that a text writes. -/
def read (nesting : Nat) (t : Text) : Except Fault (List (Text × Value)) :=
  (readFrom nesting (t.length + 1) {} (Text.unifyBreaks t)).map fun b => valuesOf b.entries

end TaggedOutline.Toml
