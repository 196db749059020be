import Mathlib.Order.Nat
import Mathlib.Order.Bounds.Basic
import TaggedOutline.Proofs.Heading.FenceLine
import TaggedOutline.Proofs.Heading.Keep

/-!
# Code regions

Where the code of some lines is follows from the lines alone (`Fenced`): a region begins at the
first line after the one before it that opens one, and ends at the next line that closes it, or with
the last line. There is one such list of regions (`existsUnique_fenced`), and the scan takes a line
for code iff it is in one of them (`Fenced.code_iff`).
-/

namespace TaggedOutline

/-- Neighbouring lines, by the numbers of the first and the last. -/
@[ext]
structure Region where
  first : Nat
  last : Nat
  deriving DecidableEq, Repr

/-- The line is one of those of the region. -/
def Region.Covers (r : Region) (k : Nat) : Prop := r.first ≤ k ∧ k ≤ r.last

instance (r : Region) (k : Nat) : Decidable (r.Covers k) := inferInstanceAs (Decidable (_ ∧ _))

namespace Fence

/-! ## Regions -/

/-- Line `k` begins with a fence of exactly `n` marks `c`. -/
def OpensAt (lines : List Text) (c : Char) (n k : Nat) : Prop :=
  ∃ line, lines[k]? = some line ∧ Opens c n line

/-- Line `k` is a fence of at least `n` marks `c`. -/
def ClosesAt (lines : List Text) (c : Char) (n k : Nat) : Prop :=
  ∃ line, lines[k]? = some line ∧ Closes c n line

/-- A region that line `first` opens with `n` marks `c` ends at the first later line that closes it,
or else with the last line. -/
def EndsAt (lines : List Text) (c : Char) (n first last : Nat) : Prop :=
  IsLeast {k | first < k ∧ ClosesAt lines c n k} last ∨
    (∀ k, first < k → ¬ ClosesAt lines c n k) ∧ last + 1 = lines.length

/-- The code regions of some lines from the line `start` on. -/
inductive Fenced (lines : List Text) : Nat → List Region → Prop
  | done {start : Nat} : (∀ c n k, start ≤ k → ¬ OpensAt lines c n k) → Fenced lines start []
  | region {start : Nat} {r : Region} {rs : List Region} {c : Char} {n : Nat} :
      IsLeast {k | start ≤ k ∧ ∃ c n, OpensAt lines c n k} r.first →
      OpensAt lines c n r.first → EndsAt lines c n r.first r.last →
      Fenced lines (r.last + 1) rs → Fenced lines start (r :: rs)

variable {lines : List Text} {start : Nat} {rs : List Region} {c : Char} {n k : Nat}

theorem OpensAt.lt (h : OpensAt lines c n k) : k < lines.length := by
  obtain ⟨line, hline, -⟩ := h
  exact (List.getElem?_eq_some_iff.mp hline).1

theorem ClosesAt.lt (h : ClosesAt lines c n k) : k < lines.length := by
  obtain ⟨line, hline, -⟩ := h
  exact (List.getElem?_eq_some_iff.mp hline).1

/-- The marks of a fence are those of the line. -/
theorem OpensAt.unique {c' : Char} {n' : Nat} (h : OpensAt lines c n k)
    (h' : OpensAt lines c' n' k) : c = c' ∧ n = n' := by
  obtain ⟨line, hline, hopens⟩ := h
  obtain ⟨line', hline', hopens'⟩ := h'
  obtain rfl : line = line' := Option.some.inj (hline.symm.trans hline')
  have hboth := (opening?_eq_some_iff.mpr hopens).symm.trans (opening?_eq_some_iff.mpr hopens')
  exact Prod.mk.inj (Option.some.inj hboth)

theorem EndsAt.unique {first last last' : Nat} (h : EndsAt lines c n first last)
    (h' : EndsAt lines c n first last') : last = last' := by
  rcases h with hleast | ⟨hnone, hend⟩
  · rcases h' with hleast' | ⟨hnone', -⟩
    · exact hleast.unique hleast'
    · exact absurd hleast.1.2 (hnone' last hleast.1.1)
  · rcases h' with hleast' | ⟨-, hend'⟩
    · exact absurd hleast'.1.2 (hnone last' hleast'.1.1)
    · omega

theorem EndsAt.bounds {first last : Nat} (h : EndsAt lines c n first last)
    (hfirst : first < lines.length) : first ≤ last ∧ last < lines.length := by
  rcases h with hleast | ⟨-, hend⟩
  · exact ⟨Nat.le_of_lt hleast.1.1, hleast.1.2.lt⟩
  · omega

theorem exists_endsAt (c : Char) (n : Nat) (hk : k < lines.length) :
    ∃ last, EndsAt lines c n k last := by
  classical
  by_cases hcloses : ∃ j, k < j ∧ ClosesAt lines c n j
  · exact ⟨Nat.find hcloses, .inl (Nat.isLeast_find hcloses)⟩
  · exact ⟨lines.length - 1, .inr ⟨fun j hj hc => hcloses ⟨j, hj, hc⟩, by omega⟩⟩

theorem exists_fenced (lines : List Text) (start : Nat) : ∃ rs, Fenced lines start rs := by
  classical
  induction hleft : lines.length - start using Nat.strong_induction_on generalizing start with
  | _ left ih =>
    by_cases hopens : ∃ k, start ≤ k ∧ ∃ c n, OpensAt lines c n k
    · obtain ⟨hstart, c, n, hopen⟩ := Nat.find_spec hopens
      obtain ⟨last, hlast⟩ := exists_endsAt c n hopen.lt
      have hbounds := hlast.bounds hopen.lt
      obtain ⟨rs, hrs⟩ := ih (lines.length - (last + 1)) (by omega) (last + 1) rfl
      exact ⟨⟨Nat.find hopens, last⟩ :: rs, .region (Nat.isLeast_find hopens) hopen hlast hrs⟩
    · exact ⟨[], .done fun c n k hk hopen => hopens ⟨k, hk, c, n, hopen⟩⟩

theorem Fenced.unique {rs' : List Region} (h : Fenced lines start rs)
    (h' : Fenced lines start rs') : rs = rs' := by
  induction h generalizing rs' with
  | done hnone =>
    cases h' with
    | done => rfl
    | region hfirst hopen => exact absurd hopen (hnone _ _ _ hfirst.1.1)
  | @region start r rs c n hfirst hopen hend _ ih =>
    cases h' with
    | done hnone => exact absurd hopen (hnone _ _ _ hfirst.1.1)
    | @region _ r' rs' c' n' hfirst' hopen' hend' hrest' =>
      have hbegin : r.first = r'.first := hfirst.unique hfirst'
      rw [← hbegin] at hopen' hend'
      obtain ⟨rfl, rfl⟩ := hopen.unique hopen'
      have hstop : r.last = r'.last := hend.unique hend'
      rw [← hstop] at hrest'
      obtain rfl : r = r' := Region.ext hbegin hstop
      rw [ih hrest']

/-- There is one list of regions for some lines. -/
theorem existsUnique_fenced (lines : List Text) (start : Nat) : ∃! rs, Fenced lines start rs := by
  obtain ⟨rs, hrs⟩ := exists_fenced lines start
  exact ⟨rs, hrs, fun rs' hrs' => hrs'.unique hrs⟩

/-- The regions come one after another. -/
theorem Fenced.bounds (h : Fenced lines start rs) :
    rs.Pairwise (·.last < ·.first) ∧
      ∀ r ∈ rs, start ≤ r.first ∧ r.first ≤ r.last ∧ r.last < lines.length := by
  induction h with
  | done => exact ⟨List.Pairwise.nil, fun r hr => absurd hr (by simp)⟩
  | @region start r rs c n hfirst hopen hend _ ih =>
    have hr := hend.bounds hopen.lt
    have hstart : start ≤ r.first := hfirst.1.1
    refine ⟨List.pairwise_cons.mpr ⟨fun r' hr' => (ih.2 r' hr').1, ih.1⟩, fun r' hr' => ?_⟩
    rcases List.mem_cons.mp hr' with rfl | hr'
    · exact ⟨hstart, hr⟩
    · have := ih.2 r' hr'
      omega

/-! ## Steps -/

theorem step_of_opens {line : Text} (h : Opens c n line) :
    ({} : Fence).step line = (true, ⟨true, some c, n⟩) := by
  unfold Fence.step tryOpen
  rw [if_neg (by simp), if_neg (by simp), opening?_eq_some_iff.mpr h]

theorem step_of_not_opens {line : Text} (h : ∀ c n, ¬ Opens c n line) :
    ({} : Fence).step line = (false, {}) := by
  refine Heading.step_of_opening? rfl ?_
  cases ho : opening? line with
  | none => rfl
  | some e => exact absurd (opening?_eq_some_iff.mp ho) (h e.1 e.2)

theorem step_of_inside (c : Char) (n : Nat) (line : Text) :
    (⟨true, some c, n⟩ : Fence).step line =
      (true, if closes c n line then {} else ⟨true, some c, n⟩) := by
  unfold Fence.step tryClose
  rw [if_pos rfl]
  simp only
  split <;> rfl

theorem afterLines_take_succ {fence : Fence} {line : Text} (hline : lines[k]? = some line) :
    fence.afterLines (lines.take (k + 1)) = ((fence.afterLines (lines.take k)).step line).2 := by
  rw [List.take_add_one, hline, afterLines_append]
  rfl

/-- A state that no line changes stays. -/
theorem afterLines_take_of_step {fence f : Fence} {a b : Nat} (hab : a ≤ b)
    (hstart : fence.afterLines (lines.take a) = f)
    (hstep : ∀ k line, a ≤ k → k < b → lines[k]? = some line → (f.step line).2 = f) :
    fence.afterLines (lines.take b) = f := by
  induction b, hab using Nat.le_induction with
  | base => exact hstart
  | succ b hab ih =>
    have hb := ih fun k line hk hkb => hstep k line hk (Nat.lt_succ_of_lt hkb)
    cases hline : lines[b]? with
    | none =>
      have hlength := List.getElem?_eq_none_iff.mp hline
      rw [List.take_of_length_le (by omega)]
      rwa [List.take_of_length_le hlength] at hb
    | some line =>
      rw [afterLines_take_succ hline, hb]
      exact hstep b line hab (Nat.lt_succ_self b) hline

/-- Between two regions the scan is outside of code. -/
theorem afterLines_take_of_not_opens {a b : Nat} (hab : a ≤ b)
    (hstart : ({} : Fence).afterLines (lines.take a) = {})
    (hnone : ∀ c n k, a ≤ k → k < b → ¬ OpensAt lines c n k) :
    ({} : Fence).afterLines (lines.take b) = {} := by
  refine afterLines_take_of_step hab hstart fun k line hk hkb hline => ?_
  rw [step_of_not_opens fun c n hopens => hnone c n k hk hkb ⟨line, hline, hopens⟩]

/-- From the line after the first one to the last one the scan is inside of the region. -/
theorem afterLines_take_of_region {first last : Nat}
    (hfirst : ({} : Fence).afterLines (lines.take first) = {}) (hopen : OpensAt lines c n first)
    (hend : EndsAt lines c n first last) (hk : first < k) (hlast : k ≤ last) :
    ({} : Fence).afterLines (lines.take k) = ⟨true, some c, n⟩ := by
  obtain ⟨line, hline, hopens⟩ := hopen
  have hbegin : ({} : Fence).afterLines (lines.take (first + 1)) = ⟨true, some c, n⟩ := by
    rw [afterLines_take_succ hline, hfirst, step_of_opens hopens]
  refine afterLines_take_of_step hk hbegin fun j line hj hjk hline => ?_
  have hopen' : ¬ ClosesAt lines c n j := by
    rcases hend with hleast | ⟨hnone, -⟩
    · intro hcloses
      have : last ≤ j := hleast.2 ⟨hj, hcloses⟩
      omega
    · exact hnone j hj
  have hcloses : closes c n line ≠ true := fun hcloses =>
    hopen' ⟨line, hline, (closes_iff hopens.1 (by have := hopens.2.1; omega)).mp hcloses⟩
  rw [step_of_inside, if_neg hcloses]

/-- After a fence that closes a region the scan is outside of code. -/
theorem afterLines_take_of_closesAt (hc : IsMark c) (hn : 1 ≤ n)
    (hinside : ({} : Fence).afterLines (lines.take k) = ⟨true, some c, n⟩)
    (hcloses : ClosesAt lines c n k) : ({} : Fence).afterLines (lines.take (k + 1)) = {} := by
  obtain ⟨line, hline, hclosing⟩ := hcloses
  rw [afterLines_take_succ hline, hinside, step_of_inside, if_pos ((closes_iff hc hn).mpr hclosing)]

/-- The scan takes a line for code iff it is in one of the regions. -/
theorem Fenced.code_iff (h : Fenced lines start rs)
    (hstart : ({} : Fence).afterLines (lines.take start) = {}) {line : Text} (hk : start ≤ k)
    (hline : lines[k]? = some line) :
    ((({} : Fence).afterLines (lines.take k)).step line).1 = true ↔ ∃ r ∈ rs, r.Covers k := by
  induction h with
  | @done start hnone =>
    have hstate := afterLines_take_of_not_opens hk hstart fun c n j hj _ => hnone c n j hj
    rw [hstate, step_of_not_opens fun c n hopens => hnone c n k hk ⟨line, hline, hopens⟩]
    simp
  | @region start r rs c n hfirst hopen hend hrest ih =>
    have hbefore : ∀ c n j, start ≤ j → j < r.first → ¬ OpensAt lines c n j := by
      intro c n j hj hlt hopen
      have : r.first ≤ j := hfirst.2 ⟨hj, c, n, hopen⟩
      omega
    have hstate := afterLines_take_of_not_opens hfirst.1.1 hstart hbefore
    rcases Nat.lt_or_ge k r.first with hlt | hge
    · -- before the region
      have hout : ¬ ∃ r' ∈ r :: rs, r'.Covers k := by
        rintro ⟨r', hr', hcovers⟩
        have := hcovers.1
        rcases List.mem_cons.mp hr' with rfl | hr'
        · omega
        · have := hrest.bounds.2 r' hr'
          have := hend.bounds hopen.lt
          omega
      have houtside := afterLines_take_of_not_opens hk hstart fun c n j hj hjk =>
        hbefore c n j hj (by omega)
      rw [houtside, step_of_not_opens fun c n hopens => hbefore c n k hk hlt ⟨line, hline, hopens⟩]
      simpa using hout
    rcases Nat.lt_or_ge r.last k with hgt | hle
    · -- after the region
      have hafter : ({} : Fence).afterLines (lines.take (r.last + 1)) = {} := by
        rcases hend with hleast | ⟨-, hlength⟩
        · have ⟨_, _, hc, hn, _⟩ := hopen
          exact afterLines_take_of_closesAt hc (by omega)
            (afterLines_take_of_region hstate hopen (.inl hleast) hleast.1.1 (Nat.le_refl _))
            hleast.1.2
        · have := (List.getElem?_eq_some_iff.mp hline).1
          omega
      rw [ih hafter hgt, List.exists_mem_cons_iff]
      exact ⟨.inr, fun h => h.resolve_left fun hcovers => absurd hcovers.2 (by omega)⟩
    · -- in the region
      have hin : ∃ r' ∈ r :: rs, r'.Covers k := ⟨r, List.mem_cons_self, hge, hle⟩
      refine iff_of_true ?_ hin
      rcases Nat.eq_or_lt_of_le hge with rfl | hlt
      · obtain ⟨opener, hopener, hopens⟩ := hopen
        obtain rfl : opener = line := Option.some.inj (hopener.symm.trans hline)
        rw [hstate, step_of_opens hopens]
      · rw [afterLines_take_of_region hstate hopen hend hlt hle, step_of_inside]

/-- The state of a scan is the one outside of code, or that of a region. -/
theorem afterLines_cases (lines : List Text) :
    ({} : Fence).afterLines lines = ⟨false, none, 0⟩ ∨
      ∃ c n, IsMark c ∧ 3 ≤ n ∧ ({} : Fence).afterLines lines = ⟨true, some c, n⟩ := by
  have hsound : (({} : Fence).afterLines lines).Sound := Sound.afterLines (fun _ => rfl) lines
  have hgenuine := genuine_initial.afterLines lines
  generalize ({} : Fence).afterLines lines = f at hsound hgenuine
  obtain ⟨inside, marker, length⟩ := f
  cases inside with
  | false => exact .inl (hsound rfl)
  | true =>
    obtain ⟨c, rfl, hc, hn⟩ := hgenuine rfl
    exact .inr ⟨c, length, hc, hn, rfl⟩

end Fence

namespace Heading

/-- Each line is read in the state that the lines before it lead to. -/
theorem ofLines_eq_filterMap (fence : Fence) (front rest : List Text) :
    ofLines (fence.afterLines front) front.length rest =
      (rest.zipIdx front.length).filterMap fun e =>
        read? (fence.afterLines ((front ++ rest).take e.2)) e.2 e.1 := by
  induction rest generalizing front with
  | nil => rfl
  | cons line rest ih =>
    have hnext := ih (front ++ [line])
    rw [List.length_append, List.length_singleton, List.append_assoc, List.singleton_append,
      Fence.afterLines_append] at hnext
    have htake : (front ++ line :: rest).take front.length = front := List.take_left' rfl
    rw [ofLines_cons, List.zipIdx_cons, List.filterMap_cons]
    simp only
    rw [htake, ← hnext, Int.natCast_succ]
    cases read? (fence.afterLines front) front.length line with
    | none => rfl
    | some h => rfl

/-- The code regions of a text are found from its lines, one after another, and its headings are
those on the lines outside of them. Between two lines the scan remembers either nothing or the fence
that opened a region. -/
theorem ofText_outside_regions (t : Text) :
    ∃ rs, (∀ rs', Fence.Fenced (Line.contents t) 0 rs' ↔ rs' = rs) ∧
      rs.Pairwise (·.last < ·.first) ∧
      (∀ r ∈ rs, r.first ≤ r.last ∧ r.last < (Line.contents t).length) ∧
      ofText t = ((Line.contents t).zipIdx.filter fun e => ∀ r ∈ rs, ¬ r.Covers e.2).filterMap
        (fun e => ofLine? e.1 e.2) ∧
      (ofText t).Pairwise (·.line < ·.line) ∧
      ∀ k, ({} : Fence).afterLines ((Line.contents t).take k) = ⟨false, none, 0⟩ ∨
        ∃ c n, Fence.IsMark c ∧ 3 ≤ n ∧
          ({} : Fence).afterLines ((Line.contents t).take k) = ⟨true, some c, n⟩ := by
  obtain ⟨rs, hrs, hunique⟩ := Fence.existsUnique_fenced (Line.contents t) 0
  obtain ⟨hpairwise, hbounds⟩ := hrs.bounds
  refine ⟨rs, fun rs' => ⟨hunique rs', fun h => h ▸ hrs⟩, hpairwise, fun r hr => (hbounds r hr).2,
    ?_, ofText_pairwise_line t, fun k => Fence.afterLines_cases _⟩
  have hscan : ofText t = (Line.contents t).zipIdx.filterMap fun e =>
      read? (({} : Fence).afterLines ((Line.contents t).take e.2)) e.2 e.1 :=
    ofLines_eq_filterMap {} [] (Line.contents t)
  rw [hscan, List.filterMap_filter]
  refine List.filterMap_congr fun e he => ?_
  have hcode := hrs.code_iff rfl (Nat.zero_le e.2) (List.mem_zipIdx_iff_getElem?.mp he)
  rw [read?]
  by_cases hin : ∃ r ∈ rs, r.Covers e.2
  · rw [if_pos (hcode.mpr hin), if_neg (by simpa using hin)]
  · rw [if_neg (mt hcode.mp hin), if_pos (by simpa using hin)]

end Heading

end TaggedOutline
