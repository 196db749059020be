import TaggedOutline.Config.Value
import TaggedOutline.Text.Number
import TaggedOutline.Toml.Quoted

/-!
# Numbers and moments of TOML

Whole numbers are decimal, or hexadecimal, octal or binary after a mark; single underscores may
stand between digits. A number with a fraction or an exponent and a moment in time are read for
their extent only, and a date must be one of the calendar.
-/

namespace TaggedOutline.Toml

/-! ## Moments -/

/-- Exactly two decimal digits of a number from `low` to `high`. -/
def twoDigits? (low high : Nat) : Text → Option (Nat × Text)
  | a :: b :: r =>
    if a.isDigit && b.isDigit then
      let n := 10 * (a.toNat - 48) + (b.toNat - 48)
      if low ≤ n && n ≤ high then some (n, r) else none
    else none
  | _ => none

/-- The text after one of some characters. -/
def oneOf? (cs : List Char) : Text → Option Text
  | c :: r => if c ∈ cs then some r else none
  | [] => none

/-- The text after a time of the day, with the fraction of a second if there is one. -/
def clock? (t : Text) : Option Text := do
  let (_, t) ← twoDigits? 0 23 t
  let (_, t) ← twoDigits? 0 59 (← oneOf? [':'] t)
  let (_, t) ← twoDigits? 0 59 (← oneOf? [':'] t)
  match t with
  | '.' :: c :: r => return if c.isDigit then r.dropWhile Char.isDigit else t
  | t => return t

/-- The text after an offset from universal time, if there is one. -/
def offset? (t : Text) : Option Text := do
  match oneOf? ['Z', 'z'] t with
  | some r => return r
  | none =>
    let (_, t) ← twoDigits? 0 23 (← oneOf? ['+', '-'] t)
    let (_, t) ← twoDigits? 0 59 (← oneOf? [':'] t)
    return t

/-- Years of 366 days. -/
def isLeap (year : Nat) : Bool := year % 4 == 0 && (year % 100 != 0 || year % 400 == 0)

def daysOfMonth (year month : Nat) : Nat :=
  if month == 2 then if isLeap year then 29 else 28
  else if month == 4 || month == 6 || month == 9 || month == 11 then 30 else 31

/-- A date in digits, and whether the calendar has it. -/
def date? (t : Text) : Option (Bool × Text) := do
  let (century, t) ← twoDigits? 0 99 t
  let (year, t) ← twoDigits? 0 99 t
  let (month, t) ← twoDigits? 1 12 (← oneOf? ['-'] t)
  let (day, t) ← twoDigits? 1 31 (← oneOf? ['-'] t)
  let year := 100 * century + year
  return (1 ≤ year && day ≤ daysOfMonth year month, t)

/-- What follows a date: a time and an offset, each if there is one. -/
def afterDate (t : Text) : Text :=
  match (oneOf? ['T', 't', ' '] t).bind clock? with
  | some r => (offset? r).getD r
  | none => t

/-- A moment, if one starts here: a date with or without a time, or a time. -/
def moment? (t : Text) : Option (Except Fault (Value × Text)) :=
  match date? t with
  | some (true, r) => some (.ok (.moment, afterDate r))
  | some (false, _) => some (.error .invalid)
  | none => (clock? t).map fun r => .ok (.moment, r)

/-! ## Numbers -/

/-- The number with the given digits in a base. -/
def ofBase (base : Nat) (ds : Text) : Nat :=
  ds.foldl (fun n c => base * n + (hexValue? c).getD 0) 0

/-- A number in another base, after its zero. -/
def based? : Text → Option (Nat × Text)
  | 'x' :: r =>
    (Text.digits? (fun c => (hexValue? c).isSome) r).map fun (ds, rest) => (ofBase 16 ds, rest)
  | 'b' :: r =>
    (Text.digits? (fun c => c == '0' || c == '1') r).map fun (ds, rest) => (ofBase 2 ds, rest)
  | 'o' :: r =>
    (Text.digits? (fun c => '0' ≤ c && c ≤ '7') r).map fun (ds, rest) => (ofBase 8 ds, rest)
  | _ => none

/-- The digits of a decimal number without its sign. The first is zero only if it is alone. -/
def wholeDigits? : Text → Option (Text × Text)
  | '0' :: r => some (['0'], r)
  | t => Text.digits? Char.isDigit t

/-- The text after a decimal fraction, if there is one. -/
def afterFraction? : Text → Option Text
  | '.' :: r => (Text.digits? Char.isDigit r).map (·.2)
  | _ => none

/-- The text after an exponent, if there is one. -/
def afterExponent? (t : Text) : Option Text := do
  let r ← oneOf? ['e', 'E'] t
  let (_, rest) ← Text.digits? Char.isDigit ((oneOf? ['+', '-'] r).getD r)
  return rest

/-- A decimal number after its sign. -/
def decimal? (negative : Bool) (t : Text) : Option (Except Fault (Value × Text)) := do
  let (ds, r) ← wholeDigits? t
  let fraction := afterFraction? r
  let exponent := afterExponent? (fraction.getD r)
  match exponent.or fraction with
  | some rest => return .ok (.fraction, rest)
  | none =>
    if Text.digitLimit < ds.length then return .error (.tooManyDigits ds.length)
    let n : Int := ofBase 10 ds
    return .ok (.integer (if negative then -n else n), r)

/-- The names of the numbers that are no numbers of digits. -/
def specialNumbers : List Text :=
  ["inf", "nan", "-inf", "+inf", "-nan", "+nan"].map String.toList

/-- A number, if one starts here. -/
def number? (t : Text) : Option (Except Fault (Value × Text)) :=
  let based := match t with
    | '0' :: r => based? r
    | _ => none
  match based with
  | some (n, rest) => some (.ok (.integer n, rest))
  | none =>
    let decimal := match t with
      | '-' :: r => decimal? true r
      | '+' :: r => decimal? false r
      | t => decimal? false t
    decimal.or ((specialNumbers.findSome? (Text.after? · t)).map fun r => .ok (.fraction, r))

end TaggedOutline.Toml
