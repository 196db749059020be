import TaggedOutline.Text.Basic

/-!
# Reading numbers

A whole number is an optional sign and decimal digits of any script; single underscores may stand
between digits and blanks may stand around the whole. At most `digitLimit` digits are read. A
decimal number may have a fraction and an exponent as well, and only its form is checked.
-/

namespace TaggedOutline.Text

/-- The zeros of the decimal digit runs: each is followed by the digits one to nine. -/
def zeroDigits : List Nat :=
  [0x30, 0x660, 0x6f0, 0x7c0, 0x966, 0x9e6, 0xa66, 0xae6, 0xb66, 0xbe6, 0xc66, 0xce6, 0xd66,
   0xde6, 0xe50, 0xed0, 0xf20, 0x1040, 0x1090, 0x17e0, 0x1810, 0x1946, 0x19d0, 0x1a80, 0x1a90,
   0x1b50, 0x1bb0, 0x1c40, 0x1c50, 0xa620, 0xa8d0, 0xa900, 0xa9d0, 0xa9f0, 0xaa50, 0xabf0, 0xff10,
   0x104a0, 0x10d30, 0x11066, 0x110f0, 0x11136, 0x111d0, 0x112f0, 0x11450, 0x114d0, 0x11650,
   0x116c0, 0x11730, 0x118e0, 0x11950, 0x11c50, 0x11d50, 0x11da0, 0x16a60, 0x16ac0, 0x16b50,
   0x1d7ce, 0x1d7d8, 0x1d7e2, 0x1d7ec, 0x1d7f6, 0x1e140, 0x1e2f0, 0x1e950, 0x1fbf0]

/-- The value of a decimal digit. -/
def digitValue? (c : Char) : Option Nat :=
  (zeroDigits.find? fun z => z ≤ c.toNat && c.toNat ≤ z + 9).map (c.toNat - ·)

/-- Blanks that may surround a number: the separators U+001C to U+001F are not among them. -/
def isNumberBlank (c : Char) : Bool :=
  isBlank c && !(28 ≤ c.toNat && c.toNat ≤ 31)

/-- The digits of a text in which single underscores stand between digits only. -/
def digitsOf? : Text → Option (List Nat)
  | [] => none
  | [c] => (digitValue? c).map ([·])
  | c :: '_' :: r => (digitValue? c).bind fun d => (digitsOf? r).map (d :: ·)
  | c :: r => (digitValue? c).bind fun d => (digitsOf? r).map (d :: ·)

/-- The longest number that is read, in digits. -/
def digitLimit : Nat := 4300

/-- The number with the given digits, the most significant first. -/
def ofDigits (ds : List Nat) : Nat := ds.foldl (fun n d => 10 * n + d) 0

/-- The text without the blanks around a number. -/
def bareNumber (t : Text) : Text :=
  ((t.dropWhile isNumberBlank).reverse.dropWhile isNumberBlank).reverse

/-- The whole number a text denotes. -/
def toInt? (t : Text) : Option Int :=
  let (negative, digits) := match bareNumber t with
    | '-' :: r => (true, r)
    | '+' :: r => (false, r)
    | r => (false, r)
  match digitsOf? digits with
  | none => none
  | some ds =>
    if digitLimit < ds.length then none
    else some (if negative then -(ofDigits ds : Int) else ofDigits ds)

/-! ## Decimal numbers -/

/-- The digits of a run after its first; an underscore belongs to the run if a digit follows. -/
def moreDigits (isDigit : Char → Bool) : Text → Text × Text
  | [] => ([], [])
  | '_' :: c :: r =>
    if isDigit c then
      let (ds, rest) := moreDigits isDigit r
      (c :: ds, rest)
    else ([], '_' :: c :: r)
  | c :: r =>
    if isDigit c then
      let (ds, rest) := moreDigits isDigit r
      (c :: ds, rest)
    else ([], c :: r)

/-- The digits of a run, if one starts here. -/
def digits? (isDigit : Char → Bool) : Text → Option (Text × Text)
  | c :: r =>
    if isDigit c then
      let (ds, rest) := moreDigits isDigit r
      some (c :: ds, rest)
    else none
  | [] => none

/-- The text without a sign at its start. -/
def dropSign : Text → Text
  | '+' :: r => r
  | '-' :: r => r
  | t => t

/-- Whether a text is empty or an exponent. -/
def isExponent (isDigit : Char → Bool) : Text → Bool
  | [] => true
  | c :: r =>
    (c == 'e' || c == 'E') && (digits? isDigit (dropSign r)).any fun (_, rest) => rest = []

/-- Whether a text is decimal digits, before a point, after it or both, and an exponent if it goes
on. -/
def isPlainDecimal (isDigit : Char → Bool) (t : Text) : Bool :=
  let whole := digits? isDigit t
  match (whole.map Prod.snd).getD t with
  | '.' :: r =>
    let fraction := digits? isDigit r
    (whole.isSome || fraction.isSome) && isExponent isDigit ((fraction.map Prod.snd).getD r)
  | r => whole.isSome && isExponent isDigit r

/-- The names of the numbers that have no digits. -/
def namedNumbers : List Text := ["inf".toList, "infinity".toList, "nan".toList]

/-- Whether a text denotes a decimal number. -/
def isDecimal (t : Text) : Bool :=
  let body := dropSign (bareNumber t)
  isIn (body.map Char.toLower) namedNumbers ||
    isPlainDecimal (fun c => (digitValue? c).isSome) body

end TaggedOutline.Text
