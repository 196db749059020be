/-!
# Text

A text is a list of characters, so that every rule of the library is a recursion over it.
This module holds the blank characters and the plain operations the rules share: trimming,
splitting into words, joining, the texts of numbers and the order in which names are listed.
-/

namespace TaggedOutline

/-- A text is the list of its code points. No surrogate is one of them: what has lone surrogates in
it, as the name of a file whose bytes are not UTF-8 would have, is no text. -/
abbrev Text := List Char

namespace Text

/-! ## Blank characters -/

/-- The blank characters: the ASCII spaces and separators, and the space and line separators
of Unicode. The zero width space is not one of them. -/
def isBlank (c : Char) : Bool :=
  let n := c.toNat
  (9 ≤ n && n ≤ 13) || (28 ≤ n && n ≤ 32) || n == 0x85 || n == 0xA0 || n == 0x1680 ||
    (0x2000 ≤ n && n ≤ 0x200A) || n == 0x2028 || n == 0x2029 || n == 0x202F || n == 0x205F ||
    n == 0x3000

theorem isBlank_space : isBlank ' ' = true := rfl

/-- The text without its leading blanks. -/
def trimStart (t : Text) : Text := t.dropWhile isBlank

/-- The text without its trailing blanks. -/
def trimEnd (t : Text) : Text := (t.reverse.dropWhile isBlank).reverse

/-- The text without blanks at either end. -/
def trim (t : Text) : Text := trimEnd (trimStart t)

/-- A text of blanks only; the empty text is one. -/
def isBlankText (t : Text) : Bool := t.all isBlank

/-! ## Pieces -/

/-- What follows `start` in a text that begins with it. -/
def after? (start t : Text) : Option Text := start.isPrefixOf? t

/-- What precedes `stop` in a text that ends with it. -/
def before? (stop t : Text) : Option Text :=
  (stop.reverse.isPrefixOf? t.reverse).map List.reverse

def startsWith (start t : Text) : Bool := (after? start t).isSome

def endsWith (stop t : Text) : Bool := (before? stop t).isSome

/-- The pieces between the characters that satisfy `p`; there is always at least one. -/
def splitWhere (p : Char → Bool) : Text → List Text
  | [] => [[]]
  | c :: r => if p c then [] :: splitWhere p r else (splitWhere p r).modifyHead (c :: ·)

/-- The maximal runs of characters that are not blank. -/
def words (t : Text) : List Text := (splitWhere isBlank t).filter (· ≠ [])

/-- The pieces, with `sep` between two neighbours. -/
def joinWith (sep : Text) : List Text → Text
  | [] => []
  | [t] => t
  | t :: ts => t ++ sep ++ joinWith sep ts

/-- The words, separated by single spaces. -/
def unwords (ts : List Text) : Text := joinWith [' '] ts

/-- Every run of blanks becomes one space, and none is left at the ends. -/
def collapse (t : Text) : Text := unwords (words t)

/-- The text up to the first character that satisfies `p`, and the text after that character. -/
def cutAt? (p : Char → Bool) : Text → Option (Text × Text)
  | [] => none
  | c :: r => if p c then some ([], r) else (cutAt? p r).map fun (a, b) => (c :: a, b)

/-- Each carriage return before a line feed is dropped. -/
def unifyBreaks : Text → Text
  | '\r' :: '\n' :: r => '\n' :: unifyBreaks r
  | c :: r => c :: unifyBreaks r
  | [] => []

/-- Every break, be it a carriage return, a line feed or both, becomes a line feed. -/
def feedBreaks : Text → Text
  | '\r' :: '\n' :: r => '\n' :: feedBreaks r
  | c :: r => (if c = '\r' then '\n' else c) :: feedBreaks r
  | [] => []

/-- The text without its trailing line feeds. -/
def dropFinalFeeds (t : Text) : Text := (t.reverse.dropWhile (· == '\n')).reverse

/-- The part of a text between two offsets. A negative offset counts from the end, and offsets
beyond either end stop there. -/
def slice (t : Text) (start stop : Int) : Text :=
  let clamp (i : Int) : Nat := (if i < 0 then i + t.length else i).toNat
  (t.take (clamp stop)).drop (clamp start)

/-! ## Numbers -/

/-- The decimal digits of a natural number. -/
def ofNat (n : Nat) : Text := Nat.toDigits 10 n

/-- The decimal digits of an integer, after a minus sign if it is negative. -/
def ofInt : Int → Text
  | .ofNat n => ofNat n
  | .negSucc n => '-' :: ofNat (n + 1)

/-- The text with enough spaces before it to be at least `width` characters long. -/
def padStart (width : Nat) (t : Text) : Text := List.replicate (width - t.length) ' ' ++ t

/-! ## Order -/

/-- The order of the code points of the characters; a text comes after its beginnings. -/
def precedes : Text → Text → Bool
  | [], _ => true
  | _ :: _, [] => false
  | a :: r, b :: s => a.toNat < b.toNat || (a = b && precedes r s)

/-- Names are listed in the order of their code points. -/
def sort (ts : List Text) : List Text := ts.mergeSort precedes

/-- Whether a text is one of some texts. -/
def isIn (t : Text) (ts : List Text) : Bool := ts.any (· = t)

theorem isIn_iff {t : Text} {ts : List Text} : isIn t ts = true ↔ t ∈ ts := by
  simp [isIn]

/-- The distinct members of a list, at their first places. -/
def distinct {α : Type} [DecidableEq α] : List α → List α
  | [] => []
  | a :: r => a :: (distinct r).filter (· ≠ a)

end Text

end TaggedOutline
