/-!
# Positions and ranges

A position is a line and a character, both counted from zero. A range runs from its start up to,
but not including, its end. Neither is tied to a text: a position may lie outside of it.
-/

namespace TaggedOutline

/-- A place between characters. -/
structure Position where
  line : Int
  character : Int
  deriving DecidableEq, Repr

namespace Position

/-- Positions are ordered by line, then by character. -/
instance : LE Position where
  le p q := p.line < q.line ∨ p.line = q.line ∧ p.character ≤ q.character

instance : LT Position where
  lt p q := p.line < q.line ∨ p.line = q.line ∧ p.character < q.character

instance (p q : Position) : Decidable (p ≤ q) :=
  inferInstanceAs (Decidable (p.line < q.line ∨ p.line = q.line ∧ p.character ≤ q.character))

instance (p q : Position) : Decidable (p < q) :=
  inferInstanceAs (Decidable (p.line < q.line ∨ p.line = q.line ∧ p.character < q.character))

end Position

/-- A span between two positions, end exclusive. -/
structure Range where
  start : Position
  stop : Position
  deriving DecidableEq, Repr

namespace Range

/-- Whether `r` lies inside `outer`; a range contains itself. -/
def contains (outer r : Range) : Bool := outer.start ≤ r.start && r.stop ≤ outer.stop

/-- The range of a line of the given length. -/
def ofLine (line : Int) (length : Nat) : Range := ⟨⟨line, 0⟩, ⟨line, length⟩⟩

end Range

end TaggedOutline
