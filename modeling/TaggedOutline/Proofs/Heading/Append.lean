import TaggedOutline.Proofs.Heading.Keep

/-!
# The headings of texts put together

A text that follows another one after a line feed is scanned on its own, if no code region is open
before it: its headings are found as many lines further down as there are lines before it
(`ofText_append_lineFeed`). Whatever follows, the headings before it stay as they are.
-/

namespace TaggedOutline

namespace Heading

/-- The heading on a line that comes `n` lines later. -/
def movedDown (h : Heading) (n : Int) : Heading := h.movedUp (-n)

theorem movedUp_movedDown (h : Heading) (n : Int) : (h.movedDown n).movedUp n = h := by
  have hback (x : Int) : x - -n - n = x := by omega
  unfold movedDown movedUp
  simp only [hback]

/-- A scan finds the same headings whatever number it starts from. -/
theorem ofLines_add (fence : Fence) (number n : Int) (lines : List Text) :
    ofLines fence (number + n) lines = (ofLines fence number lines).map (·.movedDown n) := by
  induction lines generalizing fence number with
  | nil => rfl
  | cons line rest ih =>
    have hread : read? fence (number + n) line = (read? fence number line).map (·.movedDown n) := by
      rw [show number + n = number - -n by omega]
      exact read?_sub fence line number (-n)
    rw [ofLines_cons, ofLines_cons, hread, Int.add_right_comm number n 1, ih, List.map_append]
    cases read? fence number line <;> rfl

/-- The headings of two texts with a line feed between them. -/
theorem ofText_append_eq {a : Text} (ha : a.getLast? ≠ some '\r') (b : Text) :
    ofText (a ++ '\n' :: b) =
      ofText a ++ ofLines (({} : Fence).afterLines (Line.contents a)) (Line.contents a).length
        (Line.contents b) := by
  rw [ofText, Line.contents_append_lineFeed ha, ofLines_append, Int.zero_add]
  rfl

/-- A text is scanned on its own after one that leaves no code region open, and no text has an
effect on the headings before it. -/
theorem ofText_append_lineFeed {a : Text} (ha : a.getLast? ≠ some '\r') (b : Text) :
    ((({} : Fence).afterLines (Line.contents a)).inside = false →
      ofText (a ++ '\n' :: b) =
        ofText a ++ (ofText b).map (·.movedDown (Line.contents a).length)) ∧
    ((ofText (a ++ '\n' :: b)).filter fun h => h.line < ((Line.contents a).length : Int)) =
      ofText a := by
  refine ⟨fun hnormal => ?_, ?_⟩
  · have hsound : ({} : Fence).Sound := fun _ => rfl
    have hlater := ofLines_add {} 0 (Line.contents a).length (Line.contents b)
    rw [Int.zero_add] at hlater
    rw [ofText_append_eq ha, hsound.afterLines _ hnormal, hlater]
    rfl
  · rw [ofText_append_eq ha, List.filter_append]
    have hbefore : ((ofText a).filter fun h => h.line < ((Line.contents a).length : Int)) =
        ofText a := by
      refine List.filter_eq_self.mpr fun h hh => decide_eq_true ?_
      have := line_of_mem_ofLines hh
      omega
    have hafter (fence : Fence) :
        ((ofLines fence (Line.contents a).length (Line.contents b)).filter fun h =>
          h.line < ((Line.contents a).length : Int)) = [] := by
      refine List.filter_eq_nil_iff.mpr fun h hh => ?_
      have := line_of_mem_ofLines hh
      simp only [decide_eq_true_eq]
      omega
    rw [hbefore, hafter, List.append_nil]

/-- A code region that is closed again, after it both markups and another region. -/
theorem ofText_append_lineFeed_code :
    let a := "# A\r\n~~~\n# no\n~~~~ ".toList
    let b := "## B <!-- #x -->\r\n\n= C // #y\n```\n# no".toList
    a.getLast? ≠ some '\r' ∧
      (({} : Fence).afterLines (Line.contents a)).inside = false ∧
      ofText (a ++ '\n' :: b) = ofText a ++ (ofText b).map (·.movedDown 4) ∧
      (ofText (a ++ '\n' :: b)).filter (·.line < 4) = ofText a := by
  intro a b
  have ha : a.getLast? ≠ some '\r' := by decide
  have hnormal : (({} : Fence).afterLines (Line.contents a)).inside = false := by decide
  have hlength : (Line.contents a).length = 4 := by decide
  obtain ⟨hboth, hfirst⟩ := ofText_append_lineFeed ha b
  rw [hlength] at hboth hfirst
  exact ⟨ha, hnormal, hboth hnormal, hfirst⟩

end Heading

end TaggedOutline
