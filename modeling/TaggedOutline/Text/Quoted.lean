import TaggedOutline.Text.Basic
import TaggedOutline.Text.Printable

/-!
# Quoted text

Messages show a text between quotation marks, with the characters that would not print written as
escapes. Apostrophes surround it, unless it holds an apostrophe and no double quotation mark.
-/

namespace TaggedOutline.Text.Quoted

/-- The mark that surrounds a text. -/
def mark (t : Text) : Char :=
  if t.contains '\'' && !t.contains '\x22' then '\x22' else '\''

/-- The last `width` hexadecimal digits of a number. -/
def hexDigits (width n : Nat) : Text :=
  let digits := Nat.toDigits 16 n
  List.replicate (width - digits.length) '0' ++ digits

/-- The written form of a character between marks `q`. -/
def encodeChar (q c : Char) : Text :=
  if c == q || c == '\\' then ['\\', c]
  else if c == '\n' then ['\\', 'n']
  else if c == '\r' then ['\\', 'r']
  else if c == '\t' then ['\\', 't']
  else if isPrintable c then [c]
  else if c.toNat < 0x100 then '\\' :: 'x' :: hexDigits 2 c.toNat
  else if c.toNat < 0x10000 then '\\' :: 'u' :: hexDigits 4 c.toNat
  else '\\' :: 'U' :: hexDigits 8 c.toNat

end Quoted

/-- The text between marks, on one line. -/
def quoted (t : Text) : Text :=
  let q := Quoted.mark t
  q :: t.flatMap (Quoted.encodeChar q) ++ [q]

end TaggedOutline.Text
