import TaggedOutline.Text.Basic

/-!
# Replacing the matches of a rule

A rule looks at the text from some place on. Where it matches it gives a replacement and the text
that follows the match. Replacing goes from left to right and never looks at replaced text again.
-/

namespace TaggedOutline.Text

/-- A rule: the replacement for a match at the start of a text, and the text after the match. -/
abbrev Rule := Text → Option (Text × Text)

/-- The text with every match of the rule replaced. A match must not be empty. -/
def replaceMatches (rule : Rule) : Text → Text
  | [] => []
  | c :: r =>
    match rule (c :: r) with
    | some (replacement, rest) =>
      if rest.length ≤ r.length then replacement ++ replaceMatches rule rest
      else c :: replaceMatches rule r
    | none => c :: replaceMatches rule r
  termination_by t => t.length

end TaggedOutline.Text
