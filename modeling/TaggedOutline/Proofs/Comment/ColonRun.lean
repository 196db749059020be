import Mathlib.Data.List.SplitBy
import TaggedOutline.Proofs.Comment.Escape

/-!
# Escaping by runs of colons

Escaping is two substitutions, one after the other: every backslash is doubled, and then every run
of two colons or more gets a backslash before each colon (`escape_eq_escapeRuns`). A run ends where
another character follows, so what is escaped before that character does not depend on what comes
after it, and a text is escaped run by run (`escapeFrom_run`).
-/

namespace TaggedOutline.Comment

variable {a b r : Text} {c : Char}

/-! ## The two substitutions -/

/-- A character, twice if it is a backslash. -/
def slashTwice (c : Char) : Text := if c = '\\' then ['\\', '\\'] else [c]

/-- The text with every backslash written twice. -/
def doubled (t : Text) : Text := t.flatMap slashTwice

/-- Whether two neighbours belong to one run of colons. -/
def isColonPair (a b : Char) : Bool := a = ':' && b = ':'

/-- A run of two colons or more, with a backslash before each; any other piece as it is. -/
def escapeRun (run : Text) : Text := if 2 ≤ run.length then run.flatMap (['\\', ·]) else run

/-- The text with its runs of colons escaped. -/
def escapeRuns (t : Text) : Text := (t.splitBy isColonPair).flatMap escapeRun

theorem slashTwice_of_ne (h : c ≠ '\\') : slashTwice c = [c] := if_neg h

theorem doubled_cons (c : Char) (t : Text) : doubled (c :: t) = slashTwice c ++ doubled t :=
  List.flatMap_cons

theorem doubled_append (a b : Text) : doubled (a ++ b) = doubled a ++ doubled b :=
  List.flatMap_append

theorem doubled_replicate (n : Nat) : doubled (List.replicate n ':') = List.replicate n ':' := by
  induction n with
  | zero => rfl
  | succ n ih => rw [List.replicate_succ, doubled_cons, ih]; rfl

theorem head?_doubled (t : Text) : (doubled t).head? = t.head? := by
  cases t with
  | nil => rfl
  | cons c t =>
    rw [doubled_cons]
    by_cases hc : c = '\\'
    · rw [hc]; rfl
    · rw [slashTwice_of_ne hc]; rfl

/-- No run of colons goes across a place where one of the neighbours is no colon. -/
theorem escapeRuns_append (h : a.getLast? = some ':' → b.head? ≠ some ':') :
    escapeRuns (a ++ b) = escapeRuns a ++ escapeRuns b := by
  unfold escapeRuns
  rw [List.splitBy_append, List.flatMap_append]
  intro x hx y hy
  rw [isColonPair, Bool.and_eq_false_iff, decide_eq_false_iff_not, decide_eq_false_iff_not]
  by_contra! hboth
  obtain ⟨rfl, rfl⟩ := hboth
  exact h hx hy

/-- One run of colons is escaped as a whole. -/
theorem escapeRuns_replicate (n : Nat) :
    escapeRuns (List.replicate n ':') = escapeRun (List.replicate n ':') := by
  cases n with
  | zero => rfl
  | succ n =>
    have hchain : (List.replicate (n + 1) ':').IsChain fun x y => isColonPair x y :=
      List.isChain_replicate_of_rel _ rfl
    unfold escapeRuns
    rw [List.splitBy_of_isChain (by simp) hchain, List.flatMap_singleton]

/-- The copies of one character are no run of two colons. -/
theorem escapeRuns_slashTwice (c : Char) : escapeRuns (slashTwice c) = slashTwice c := by
  by_cases hb : c = '\\'
  · rw [hb]; rfl
  · rw [slashTwice_of_ne hb]; rfl

theorem getLast?_slashTwice (c : Char) : (slashTwice c).getLast? = some c := by
  by_cases hb : c = '\\'
  · rw [hb]; rfl
  · rw [slashTwice_of_ne hb]; rfl

/-! ## Run by run -/

theorem escapeFrom_cons (hc : c ≠ ':') (afterColon : Bool) (t : Text) :
    escapeFrom afterColon (c :: t) = slashTwice c ++ escape t := by
  rw [escapeFrom, slashTwice]
  by_cases hb : c = '\\'
  · rw [if_pos hb, if_pos hb]; rfl
  · rw [if_neg hb, if_neg hb, if_neg hc]; rfl

theorem escapeFrom_of_head? (hr : r.head? ≠ some ':') (afterColon : Bool) :
    escapeFrom afterColon r = escape r := by
  cases r with
  | nil => rfl
  | cons c r =>
    have hc : c ≠ ':' := by simpa using hr
    rw [escape, escapeFrom_cons hc, escapeFrom_cons hc]

/-- After a colon each colon of a run follows a backslash. -/
theorem escapeFrom_run (hr : r.head? ≠ some ':') (n : Nat) :
    escapeFrom true (List.replicate n ':' ++ r) =
      (List.replicate n ':').flatMap (['\\', ·]) ++ escape r := by
  induction n with
  | zero => exact escapeFrom_of_head? hr true
  | succ n ih =>
    rw [List.replicate_succ, List.cons_append, escapeFrom, if_neg (by decide), if_pos rfl,
      if_pos (Bool.true_or _), ih]
    rfl

/-- A run of colons, and what goes on with another character, are escaped each for itself. -/
theorem escape_run (hr : r.head? ≠ some ':') (n : Nat) :
    escape (List.replicate n ':' ++ r) = escapeRun (List.replicate n ':') ++ escape r := by
  match n with
  | 0 => rfl
  | 1 =>
    show escapeFrom false (':' :: r) = ':' :: escape r
    rw [escapeFrom, if_neg (by decide), if_pos rfl, if_neg (by simpa using hr),
      escapeFrom_of_head? hr]
  | n + 2 =>
    have hrest := escapeFrom_run hr (n + 1)
    have hlong : escapeRun (List.replicate (n + 2) ':') =
        '\\' :: ':' :: (List.replicate (n + 1) ':').flatMap (['\\', ·]) :=
      if_pos (by simp)
    show escapeFrom false (':' :: (List.replicate (n + 1) ':' ++ r)) = _
    rw [escapeFrom, if_neg (by decide), if_pos rfl, if_pos (by rfl), hrest, hlong]
    rfl

/-- Escaping doubles the backslashes and then escapes the runs of colons. -/
theorem escape_eq_escapeRuns (t : Text) : escape t = escapeRuns (doubled t) := by
  induction hlength : t.length using Nat.strong_induction_on generalizing t with
  | _ length ih =>
  obtain ⟨n, r, rfl, hr⟩ := Text.exists_replicate_append ':' t
  -- What follows the run is empty or goes on with a character that is no colon.
  have hrest : escape r = escapeRuns (doubled r) := by
    cases r with
    | nil => rfl
    | cons c s =>
      have hc : c ≠ ':' := by simpa using hr
      have hs : s.length < length := by
        rw [← hlength, List.length_append, List.length_cons]
        omega
      have hlast : (slashTwice c).getLast? = some ':' → (doubled s).head? ≠ some ':' := by
        rw [getLast?_slashTwice]
        exact fun he => absurd (Option.some.inj he) hc
      rw [escape, escapeFrom_cons hc, ih s.length hs s rfl, doubled_cons, escapeRuns_append hlast,
        escapeRuns_slashTwice]
  have hboundary : (List.replicate n ':').getLast? = some ':' →
      (doubled r).head? ≠ some ':' := fun _ => by rwa [head?_doubled]
  rw [escape_run hr, hrest, doubled_append, doubled_replicate, escapeRuns_append hboundary,
    escapeRuns_replicate]

/-! ## What the written form holds -/

theorem not_doubleColon_isInfix {t : Text} (h : NoDoubleColon t) : ¬ [':', ':'] <:+: t := by
  intro hdouble
  have hpair := List.IsChain.infix h hdouble
  rw [List.isChain_pair] at hpair
  exact hpair ⟨rfl, rfl⟩

/-- The written form is made by the two substitutions, has no double colon, and is read back, so
that different texts have different written forms. -/
theorem escape_form (v w : Text) :
    escape v = escapeRuns (doubled v) ∧ ¬ [':', ':'] <:+: escape v ∧ unescape (escape v) = v ∧
      (escape v = escape w ↔ v = w) := by
  refine ⟨escape_eq_escapeRuns v, not_doubleColon_isInfix (noDoubleColon_escape v),
    unescape_escape v, fun h => ?_, fun h => h ▸ rfl⟩
  have hread := congrArg unescape h
  rwa [unescape_escape, unescape_escape] at hread

/-- Backslashes before a single colon and before a run. -/
example : escape "\\:\\\\::".toList = "\\\\:\\\\\\\\\\:\\:".toList := by decide

end TaggedOutline.Comment
