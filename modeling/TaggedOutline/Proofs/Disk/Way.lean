import TaggedOutline.Proofs.Disk.Written
import TaggedOutline.Proofs.Except

/-!
# Ways without links

If none of the names of an absolute path leads to a link, the path stands for itself, be there
anything or not (`realPath_of_direct`), and the document at it is known by it (`uriOf_of_direct`).
-/

namespace TaggedOutline

namespace Disk

variable {d : Disk} {aim : Aim} {place q : Place} {e : Entry} {names still : List Text} {t : Text}
  {p : Path}

/-! ## What a path leads to -/

theorem entry?_of_advance (h : d.advance aim place names = .found q e) : d.entry? q = some e := by
  induction names generalizing place with
  | nil =>
    rw [advance] at h
    split at h
    · next e' he =>
      obtain ⟨rfl, rfl⟩ := Stop.found.inj h
      exact he
    · exact absurd h (by simp)
  | cons name names ih =>
    rw [advance] at h
    split at h
    · exact absurd h (by simp)
    · split at h
      · exact ih h
      · split at h
        · exact ih h
        · split at h
          · exact absurd h (by simp)
          · split at h
            · exact absurd h (by simp)
            · split at h
              · next target hlink =>
                split at h
                · obtain ⟨rfl, rfl⟩ := Stop.found.inj h
                  exact hlink
                · exact absurd h (by simp)
              · exact ih h
              · split at h
                · exact absurd h (by simp)
                · exact absurd h (by simp)

theorem entry?_of_seek {links : Nat} (h : d.seek aim links place names = .ok (.entry q e)) :
    d.entry? q = some e := by
  induction links generalizing place names with
  | zero =>
    unfold seek at h
    split at h
    · next hfound =>
      obtain ⟨rfl, rfl⟩ := Target.entry.inj (Except.ok.inj h)
      exact entry?_of_advance hfound
    · exact absurd h (by simp)
    · exact absurd h (by simp)
    · exact absurd h (by simp)
  | succ links ih =>
    unfold seek at h
    split at h
    · next hfound =>
      obtain ⟨rfl, rfl⟩ := Target.entry.inj (Except.ok.inj h)
      exact entry?_of_advance hfound
    · exact absurd h (by simp)
    · exact absurd h (by simp)
    · exact ih h

/-- A path that leads to an entry is gone along from its start. -/
theorem seek_of_lookup {follow : Bool} (h : d.lookup follow t = .ok (q, e)) :
    d.seek (if follow then .behind else .itself) linkLimit (d.start t) (written t) =
      .ok (.entry q e) := by
  unfold lookup at h
  obtain ⟨found, htarget, h⟩ := exists_of_bind_eq_ok h
  cases found with
  | entry q' e' =>
    obtain ⟨rfl, rfl⟩ := Prod.mk.inj (Except.ok.inj h)
    unfold target at htarget
    split at htarget
    · cases htarget
    · split at htarget
      · cases htarget
      · exact htarget
  | vacant q' => cases h

/-- A path leads to an entry of the disk, if it leads anywhere. -/
theorem entry?_of_lookup {follow : Bool} (h : d.lookup follow t = .ok (q, e)) :
    d.entry? q = some e :=
  entry?_of_seek (seek_of_lookup h)

/-- A path that leads anywhere starts in a directory. -/
theorem start_of_lookup {follow : Bool} (h : d.lookup follow t = .ok (q, e)) :
    d.entry? (d.start t) = some .directory := by
  obtain ⟨name, rest, hsplit⟩ :=
    List.exists_cons_of_ne_nil (Text.splitWhere_ne_nil (· == '/') t)
  have hseek := seek_of_lookup h
  by_contra hstart
  rw [written, hsplit] at hseek
  unfold seek at hseek
  rw [advance, if_pos hstart] at hseek
  cases hseek

/-! ## Names that stay -/

theorem advance_stays (h : d.entry? place = some .directory)
    (hstill : ∀ name ∈ still, staysAt name = true) (aim : Aim) (names : List Text) :
    d.advance aim place (still ++ names) = d.advance aim place names := by
  induction still with
  | nil => rfl
  | cons name still ih =>
    obtain ⟨hname, hstill⟩ := List.forall_mem_cons.mp hstill
    rw [List.cons_append, advance, if_neg (fun hne => hne h), if_pos hname, ih hstill]

theorem goAlong_stays (hstill : ∀ name ∈ still, staysAt name = true) (place : Place)
    (names : List Text) : goAlong place (still ++ names) = goAlong place names := by
  induction still with
  | nil => rfl
  | cons name still ih =>
    obtain ⟨hname, hstill⟩ := List.forall_mem_cons.mp hstill
    rw [List.cons_append, goAlong, if_pos hname, ih hstill]

theorem goAlong_append (place : Place) (names names' : List Text) :
    goAlong place (names ++ names') = goAlong (goAlong place names) names' := by
  induction names generalizing place with
  | nil => rfl
  | cons name names ih =>
    rw [List.cons_append, goAlong, goAlong]
    split
    · exact ih place
    · split
      · exact ih place.dropLast
      · exact ih (place ++ [name])

theorem resolveAlong_stays (hstill : ∀ name ∈ still, staysAt name = true)
    (visit : LinksMet → Path → Path → Text → LinksMet × WayEnd) (met : LinksMet) (p : Path)
    (names : List Text) :
    d.resolveAlong visit met p (still ++ names) = d.resolveAlong visit met p names := by
  induction still with
  | nil => rfl
  | cons name still ih =>
    obtain ⟨hname, hstill⟩ := List.forall_mem_cons.mp hstill
    rw [List.cons_append, resolveAlong, if_pos hname, ih hstill]

/-- A path is gone along by its names. -/
theorem advance_written (hp : p.IsProper) (h : d.entry? place = some .directory) (aim : Aim) :
    d.advance aim place (written p.text) = d.advance aim place p.names := by
  obtain ⟨still, hstill, hwritten⟩ := hp.exists_written
  rw [hwritten, advance_stays h hstill]

theorem goAlong_written (hp : p.IsProper) (place : Place) :
    goAlong place (written p.text) = goAlong place p.names := by
  obtain ⟨still, hstill, hwritten⟩ := hp.exists_written
  rw [hwritten, goAlong_stays hstill]

/-! ## Absolute paths -/

theorem start_absolute (d : Disk) (names : List Text) :
    d.start (Path.absolute names).text = [] := by
  rw [start, Path.text_absolute]
  rfl

theorem goAlong_names (place : Place) (hnames : ∀ name ∈ names, IsFileName name) :
    goAlong place names = place ++ names := by
  induction names generalizing place with
  | nil => exact (List.append_nil place).symm
  | cons name names ih =>
    obtain ⟨hname, hnames⟩ := List.forall_mem_cons.mp hnames
    rw [goAlong, if_neg (by simp [hname.not_stays]), if_neg hname.not_up, ih _ hnames,
      List.append_assoc, List.singleton_append]

/-- A path from the top on goes along its names from there. -/
theorem absolutePath_of_anchor (d : Disk) (hp : p.IsProper) (hanchor : p.anchor = ['/']) :
    d.absolutePath p.text = .absolute (goAlong [] p.names) := by
  have hhead : p.text.head? = some '/' := hp.head?_text.mpr (by simp [hanchor])
  have hfull (base : Text) : joinWritten base p.text = p.text := if_pos (.inl hhead)
  have hread : Path.anchorOf p.text = ['/'] := (congrArg Path.anchor hp.ofText_text).trans hanchor
  unfold absolutePath
  simp only
  rw [hfull, hread, goAlong_written hp]
  rfl

/-- An absolute path without links is the one that it writes. -/
theorem absolutePath_absolute (d : Disk) (hnames : ∀ name ∈ names, IsFileName name) :
    d.absolutePath (Path.absolute names).text = Path.absolute names := by
  rw [absolutePath_of_anchor d (Path.isProper_absolute hnames) rfl]
  exact congrArg Path.absolute (goAlong_names [] hnames)

/-! ## Relative paths -/

/-- A relative text is put behind another one with a slash between them. -/
theorem exists_joinWritten {base : Text} (hbase : base ≠ []) (ht : t.head? ≠ some '/') :
    ∃ front, (front = base ∨ front ++ ['/'] = base) ∧ joinWritten base t = front ++ '/' :: t := by
  unfold joinWritten
  rw [if_neg (not_or.mpr ⟨ht, hbase⟩)]
  split
  · next hends =>
    obtain ⟨front, hfront⟩ := Option.isSome_iff_exists.mp hends
    have hsplit := Text.before?_eq_some_iff.mp hfront
    exact ⟨front, .inr hsplit.symm, by rw [hsplit, List.append_assoc, List.singleton_append]⟩
  · exact ⟨base, .inl rfl, rfl⟩

theorem anchorOf_append (hnames : ∀ name ∈ names, IsFileName name) (hne : names ≠ []) (t : Text) :
    Path.anchorOf ((Path.absolute names).text ++ t) = ['/'] := by
  have hhead := Path.head?_joinWith_ne_slash fun name hname => (hnames name hname).isWayName
  have hjoin : Text.joinWith ['/'] names ≠ [] := by
    intro hnil
    have hwritten := written_joinWith (fun name hname => (hnames name hname).no_slash) hne
    rw [hnil] at hwritten
    exact (hnames [] (by rw [← hwritten]; decide)).ne_nil rfl
  rw [Path.text_absolute, List.cons_append]
  refine Path.anchorOf_cons ?_
  rwa [List.head?_append_of_ne_nil _ hjoin]

/-- A relative path goes along its names from the base. -/
theorem absolutePath_of_relative (hdirectory : ∀ name ∈ d.base, IsFileName name) (hp : p.IsProper)
    (hanchor : p.anchor = []) : d.absolutePath p.text = .absolute (goAlong d.base p.names) := by
  have hhead : p.text.head? ≠ some '/' := fun h => hp.head?_text.mp h hanchor
  have hproper := Path.isProper_absolute hdirectory
  obtain ⟨front, hfront, hfull⟩ := exists_joinWritten hproper.text_ne_nil hhead
  have hbase : goAlong [] (written (Path.absolute d.base).text) = d.base := by
    rw [goAlong_written hproper]
    exact goAlong_names [] hdirectory
  have hsplit (b r : Text) : written (b ++ '/' :: r) = written b ++ written r :=
    Text.splitWhere_append_cons (by decide) b r
  have hgo : goAlong [] (written (front ++ '/' :: p.text)) = goAlong d.base p.names := by
    have hhere : goAlong [] (written front) = d.base := by
      rcases hfront with rfl | hfront
      · exact hbase
      · rw [← hfront, hsplit, goAlong_append] at hbase
        exact hbase
    rw [hsplit, goAlong_append, hhere, goAlong_written hp]
  have hread : Path.anchorOf (front ++ '/' :: p.text) = ['/'] := by
    by_cases hne : d.base = []
    · have htop : joinWritten (Path.absolute []).text p.text = '/' :: p.text := by
        unfold joinWritten
        rw [if_neg (not_or.mpr ⟨hhead, by decide⟩), if_pos (by decide)]
        rfl
      rw [← hfull, hne, htop]
      exact Path.anchorOf_cons hhead
    · rcases hfront with rfl | hfront
      · exact anchorOf_append hdirectory hne _
      · rw [List.append_cons, hfront]
        exact anchorOf_append hdirectory hne _
  unfold absolutePath
  simp only
  rw [hfull, hread, hgo]
  rfl

/-! ## Resolving -/

/-- If no link is met along the names of a path, it stands for what they lead to. -/
theorem realPath_of_resolveAlong (hp : p.IsProper) {r : Path}
    (h : ∀ visit, d.resolveAlong visit []
      (if p.anchor = [] then ⟨[], []⟩ else .absolute []) p.names = ([], .reached r)) :
    d.realPath p.text = d.absolutePath r.text := by
  obtain ⟨still, hstill, hwritten⟩ := hp.exists_written
  have hstart : (if p.text.head? = some '/' then Path.absolute [] else ⟨[], []⟩) =
      if p.anchor = [] then ⟨[], []⟩ else .absolute [] := by
    by_cases hanchor : p.anchor = []
    · rw [if_pos hanchor, if_neg fun hhead => hp.head?_text.mp hhead hanchor]
    · rw [if_neg hanchor, if_pos (hp.head?_text.mpr hanchor)]
  unfold realPath resolveDepth
  simp only
  rw [hstart, hwritten, resolveFrom, resolveAlong_stays hstill, h]

/-- A document is known by the path that its path stands for, unless a user is named. -/
theorem uriOf_of_realPath (hp : p.IsProper) (htilde : ¬p.HasTilde) {r : Path}
    (hreal : d.realPath p.text = r) (hloop : d.lookup true r.text ≠ .error .tooManyLinks) :
    d.uriOf p = .ok r.text := by
  have hexpand : d.expandHome p = .ok p := by
    unfold expandHome
    split
    · next hanchor hnames => exact absurd ⟨hanchor, by rw [hnames]; rfl⟩ htilde
    · rfl
  have hresolve : d.resolve p = .ok r := by
    unfold resolve
    rw [hp.not_contains_null, hreal]
    simp only [Bool.false_eq_true, if_false]
  unfold uriOf
  rw [hexpand]
  show (d.resolve p).map Path.text = _
  rw [hresolve]
  rfl

/-- A document that was read is known by the name for its path. -/
theorem uriOf_of_load {limit : Option Int} {document : Document}
    (h : d.load p limit = .ok document) : d.uriOf p = .ok document.uri := by
  unfold load at h
  obtain ⟨file, -, h⟩ := exists_of_bind_eq_ok h
  obtain ⟨uri, huri, h⟩ := exists_of_bind_eq_ok h
  obtain ⟨text, -, h⟩ := exists_of_bind_eq_ok h
  rw [huri, ← Except.ok.inj h]

/-- None of the names on the way along an absolute path leads to a link. -/
def Direct (d : Disk) (names : List Text) : Prop :=
  ∀ before, before <+: names → ∀ q target,
    d.lookup false (Path.absolute before).text ≠ .ok (q, .link target)

theorem resolveAlong_of_direct (visit : LinksMet → Path → Path → Text → LinksMet × WayEnd)
    (met : LinksMet) (before : List Text) (hdirect : d.Direct (before ++ names))
    (hnames : ∀ name ∈ names, IsFileName name) :
    d.resolveAlong visit met (Path.absolute before) names =
      (met, .reached (Path.absolute (before ++ names))) := by
  induction names generalizing before with
  | nil => rw [resolveAlong, List.append_nil]
  | cons name names ih =>
    obtain ⟨hname, hnames⟩ := List.forall_mem_cons.mp hnames
    have happend : before ++ name :: names = (before ++ [name]) ++ names := by
      rw [List.append_assoc, List.singleton_append]
    rw [happend] at hdirect ⊢
    rw [resolveAlong, if_neg (by simp [hname.not_stays]), if_neg hname.not_up]
    simp only
    split
    · next target hlink => exact absurd hlink (hdirect _ (List.prefix_append _ _) _ target)
    · exact ih _ hdirect hnames

/-- An absolute path without links on its way stands for itself. -/
theorem realPath_of_direct (hdirect : d.Direct names) (hnames : ∀ name ∈ names, IsFileName name) :
    d.realPath (Path.absolute names).text = Path.absolute names := by
  have hreal := realPath_of_resolveAlong (Path.isProper_absolute hnames) fun visit =>
    resolveAlong_of_direct visit [] [] hdirect hnames
  rw [hreal]
  exact absolutePath_absolute d hnames

/-- The document at an absolute path without links on its way is known by the path. -/
theorem uriOf_of_direct (hdirect : d.Direct names) (hnames : ∀ name ∈ names, IsFileName name)
    (hloop : d.lookup true (Path.absolute names).text ≠ .error .tooManyLinks) :
    d.uriOf (Path.absolute names) = .ok (Path.absolute names).text :=
  uriOf_of_realPath (Path.isProper_absolute hnames) (fun h => absurd h.1 (List.cons_ne_nil _ _))
    (realPath_of_direct hdirect hnames) hloop

end Disk

end TaggedOutline
