import TaggedOutline.Text.Basic

/-!
# Lines

A text is a sequence of lines, each with the break that ends it; only the last line has none. A
break is a line feed, or a carriage return and a line feed. A carriage return anywhere else is
part of its line. Joining the lines gives the text back.
-/

namespace TaggedOutline

/-- How a line ends. -/
inductive Terminator
  | none
  | lf
  | crlf
  deriving DecidableEq, Repr

def Terminator.text : Terminator → Text
  | .none => []
  | .lf => ['\n']
  | .crlf => ['\r', '\n']

/-- A line and its break. -/
structure Line where
  content : Text
  terminator : Terminator
  deriving DecidableEq, Repr

namespace Line

/-- The characters of a line, its break included. -/
def text (l : Line) : Text := l.content ++ l.terminator.text

def cons (c : Char) (l : Line) : Line := { l with content := c :: l.content }

/-- The lines of a text. -/
def ofText : Text → List Line
  | [] => [⟨[], .none⟩]
  | '\n' :: r => ⟨[], .lf⟩ :: ofText r
  | '\r' :: '\n' :: r => ⟨[], .crlf⟩ :: ofText r
  | c :: r => (ofText r).modifyHead (cons c)

/-- The text of a sequence of lines. -/
def join (ls : List Line) : Text := ls.flatMap text

theorem ofText_ne_nil (t : Text) : ofText t ≠ [] := by
  fun_induction ofText t <;> simp_all [List.modifyHead_eq_nil_iff]

theorem join_modifyHead_cons {ls : List Line} (h : ls ≠ []) (c : Char) :
    join (ls.modifyHead (cons c)) = c :: join ls := by
  cases ls with
  | nil => exact absurd rfl h
  | cons l ls => simp [join, text, cons]

/-- Nothing is lost in splitting a text into lines. -/
theorem join_ofText (t : Text) : join (ofText t) = t := by
  fun_induction ofText t with
  | case1 => rfl
  | case2 r ih => simpa [join, text, Terminator.text] using ih
  | case3 r ih => simpa [join, text, Terminator.text] using ih
  | case4 c r _ _ ih => rw [join_modifyHead_cons (ofText_ne_nil r), ih]

/-- The contents of the lines of a text. -/
def contents (t : Text) : List Text := (ofText t).map content

end Line

end TaggedOutline
