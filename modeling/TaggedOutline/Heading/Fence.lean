import TaggedOutline.Text.Basic

/-!
# Code fences

A fence opens a region of code with at least three backticks or tildes and closes it with at least
as many of the same. Up to three spaces and any block quote markers may stand before it. The
fence state is what a scan over the lines of a text carries from one line to the next.
-/

namespace TaggedOutline

/-- Whether a scan is inside a code region, and the marker and the length of the fence that opened
it. Outside of a region there is no marker and the length is zero. -/
structure Fence where
  inside : Bool := false
  marker : Option Char := none
  length : Int := 0
  deriving DecidableEq, Repr

namespace Fence

/-- A line without its block quote markers, each of which takes the spaces after it along. -/
def dropQuotes (t : Text) : Text := go t.length t
where
  /-- Drops at most `fuel` markers; a line has no more markers than characters. -/
  go : Nat → Text → Text
    | fuel + 1, '>' :: r => go fuel (r.dropWhile (· = ' '))
    | _, t => t

/-- At most `n` leading spaces are dropped. -/
def dropSpaces : Nat → Text → Text
  | n + 1, ' ' :: r => dropSpaces n r
  | _, t => t

/-- A line without its indent of up to three spaces and its block quote markers. -/
def bare (line : Text) : Text := dropQuotes (dropSpaces 3 line)

/-- The number of characters `marker` at the start of a text. -/
def runLength (marker : Char) (t : Text) : Nat := (t.takeWhile (· = marker)).length

/-- The marker and the length of the fence that a line opens. -/
def opening? (line : Text) : Option (Char × Nat) :=
  match bare line with
  | [] => none
  | c :: r =>
    if c = '\x60' ∨ c = '~' then
      let n := runLength c (c :: r)
      if n < 3 then none else some (c, n)
    else none

/-- The state after a line that may open a region. -/
def tryOpen (fence : Fence) (line : Text) : Bool × Fence :=
  if fence.inside then (false, fence)
  else match opening? line with
    | some (c, n) => (true, ⟨true, some c, n⟩)
    | none => (false, fence)

/-- Whether a line closes a region that a fence of `length` markers opened. -/
def closes (marker : Char) (length : Int) (line : Text) : Bool :=
  let t := bare line
  let n := runLength marker t
  length ≤ n && Text.isBlankText (t.drop n)

/-- The state after a line that may close a region. -/
def tryClose (fence : Fence) (line : Text) : Bool × Fence :=
  match fence.inside, fence.marker with
  | true, some c => if closes c fence.length line then (true, {}) else (false, fence)
  | _, _ => (false, fence)

/-- One line of a scan: the state after it, and whether it is code or a fence. -/
def step (fence : Fence) (line : Text) : Bool × Fence :=
  if fence.inside then (true, (fence.tryClose line).2) else fence.tryOpen line

/-- The state after some lines. -/
def afterLines (fence : Fence) (lines : List Text) : Fence :=
  lines.foldl (fun f line => (f.step line).2) fence

end Fence

end TaggedOutline
