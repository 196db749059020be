import TaggedOutline.Proofs.Index.Basic
import TaggedOutline.Proofs.Outline.Breadcrumb

/-!
# What an index answers

An index that agrees with a list of documents answers every query with what the documents of the
list have: all headings of a tag (`Agrees.under_eq`), the headings and tags of one document
(`Agrees.headingsIn_eq`, `Agrees.tagsOf_eq`), breadcrumbs and names.
-/

namespace TaggedOutline.Index

/-! ## Entries -/

/-- Each heading of a document has a breadcrumb. -/
theorem get?_breadcrumbs {d : Document} {h : Heading} (hh : h ∈ Heading.ofDocument d) :
    (breadcrumbs (Heading.ofDocument d)).get? h.line = some (entry d h).breadcrumb := by
  have hopened : h ∈ (openedBy Heading.level [] (Heading.ofDocument d)).map Prod.fst := by
    rwa [map_fst_openedBy]
  obtain ⟨⟨g, above⟩, hmem, hg⟩ := List.mem_map.mp hopened
  obtain rfl : g = h := hg
  have hsome : (breadcrumbs (Heading.ofDocument d)).get? g.line = _ :=
    get?_breadcrumbs_of_mem (Heading.nodup_map_line (Heading.ofText_pairwise_line d.text)) hmem
  rw [entry, hsome]
  rfl

theorem id_entry (d : Document) (h : Heading) :
    (entry d h).id = d.uri ++ ':' :: Text.ofInt h.line :=
  rfl

/-- The headings of a document have distinct ids. -/
theorem eq_of_id_eq {d : Document} {h g : Heading} (hh : h ∈ Heading.ofDocument d)
    (hg : g ∈ Heading.ofDocument d) (hid : (entry d h).id = (entry d g).id) : h = g := by
  rw [id_entry, id_entry] at hid
  have hline := Text.ofInt_injective (Heading.line_of_mem_ofLines hh).1
    (Heading.line_of_mem_ofLines hg).1 (List.cons.inj (List.append_cancel_left hid)).2
  exact Heading.eq_of_line_eq (Heading.ofText_pairwise_line d.text) hh hg hline

/-- The entries of headings of a document are in line order. -/
theorem pairwise_line_entries (d : Document) (p : Heading → Bool) :
    (((Heading.ofDocument d).filter p).map (entry d)).Pairwise (·.line < ·.line) :=
  List.pairwise_map.mpr ((Heading.ofText_pairwise_line d.text).filter p)

/-- The tags of a document are those under its name once it is indexed. -/
theorem mem_tagsOf_add (i : Index) {d : Document} {h : Heading} {tag : Text}
    (hh : h ∈ Heading.ofDocument d) (htag : tag ∈ h.tags) : tag ∈ (i.add d).tagsOf d.uri := by
  have hentry : entry d h ∈ carrying d tag := mem_carrying.mpr ⟨h, hh, htag, rfl⟩
  have hget := get?_addHeadings (i.remove d.uri).tagged d tag
  rw [if_neg (List.ne_nil_of_mem hentry)] at hget
  refine List.mem_mergeSort.mpr (List.mem_map.mpr ⟨_, List.mem_filter.mpr
    ⟨Table.mem_of_get? hget, List.any_eq_true.mpr ⟨entry d h, ?_, decide_eq_true rfl⟩⟩, rfl⟩)
  exact List.mem_append_right _ hentry

/-! ## Distinct ids -/

theorem nodup_distinctIds (l : List TaggedHeading) : (distinctIds l).Nodup := by
  induction l with
  | nil => exact List.nodup_nil
  | cons e l ih => exact List.nodup_cons.mpr ⟨by simp, ih.filter _⟩

theorem mem_distinctIds {l : List TaggedHeading}
    (hids : ∀ e ∈ l, ∀ e' ∈ l, e.id = e'.id → e = e') {e : TaggedHeading} :
    e ∈ distinctIds l ↔ e ∈ l := by
  induction l with
  | nil => rfl
  | cons first l ih =>
    have hrest := ih fun e he e' he' =>
      hids e (List.mem_cons_of_mem first he) e' (List.mem_cons_of_mem first he')
    rw [distinctIds, List.mem_cons, List.mem_cons, List.mem_filter, hrest, decide_eq_true_eq]
    constructor
    · rintro (rfl | ⟨he, -⟩)
      · exact .inl rfl
      · exact .inr he
    · rintro (rfl | he)
      · exact .inl rfl
      · by_cases hid : e.id = first.id
        · exact .inl (hids e (List.mem_cons_of_mem first he) first List.mem_cons_self hid)
        · exact .inr ⟨he, hid⟩

/-- Entries in any order, each as often as there may be, are listed once and by line. -/
theorem mergeSort_distinctIds {l expected : List TaggedHeading}
    (hmem : ∀ e, e ∈ l ↔ e ∈ expected)
    (hids : ∀ e ∈ expected, ∀ e' ∈ expected, e.id = e'.id → e = e')
    (hlines : expected.Pairwise (·.line < ·.line)) :
    (distinctIds l).mergeSort (fun a b => a.line ≤ b.line) = expected := by
  have hsame (e : TaggedHeading) : e ∈ distinctIds l ↔ e ∈ expected := by
    rw [← hmem]
    exact mem_distinctIds fun e he e' he' => hids e ((hmem e).mp he) e' ((hmem e').mp he')
  have hnodup : expected.Nodup := hlines.imp fun hlt he => by rw [he] at hlt; omega
  have hperm := (List.perm_ext_iff_of_nodup (nodup_distinctIds l) hnodup).mpr hsame
  have hsort := List.mergeSort_perm (distinctIds l) fun a b => decide (a.line ≤ b.line)
  refine List.Perm.eq_of_pairwise (fun a b ha hb hab hba => ?_)
    (Heading.pairwise_mergeSort_line TaggedHeading.line (distinctIds l))
    (hlines.imp Int.le_of_lt) (hsort.trans hperm)
  exact Heading.eq_of_line_eq hlines ((hsort.trans hperm).mem_iff.mp ha) hb (by omega)

/-! ## Queries -/

/-- The heading has a tag, or any tag where none is given. -/
def Wanted (tag : Option Text) (h : Heading) : Prop :=
  match tag with
  | some tag => tag ∈ h.tags
  | none => h.tags ≠ []

instance (tag : Option Text) (h : Heading) : Decidable (Wanted tag h) :=
  match tag with
  | some tag => inferInstanceAs (Decidable (tag ∈ h.tags))
  | none => inferInstanceAs (Decidable (h.tags ≠ []))

theorem mem_occurrences {ds : List Document} {tag : Text} {e : TaggedHeading} :
    e ∈ occurrences ds tag ↔
      ∃ d ∈ ds, ∃ h ∈ Heading.ofDocument d, tag ∈ h.tags ∧ e = entry d h := by
  rw [occurrences, List.mem_flatMap]
  simp only [mem_carrying]

/-- There is at most one document of a name. -/
theorem filter_uri_cases {ds : List Document} (h : (ds.map Document.uri).Nodup) (uri : Text) :
    (ds.filter (·.uri = uri) = [] ∧ ∀ d ∈ ds, d.uri ≠ uri) ∨
      ∃ d ∈ ds, d.uri = uri ∧ ds.filter (·.uri = uri) = [d] := by
  by_cases hsome : ∃ d ∈ ds, d.uri = uri
  · obtain ⟨d, hd, rfl⟩ := hsome
    refine .inr ⟨d, hd, rfl, ?_⟩
    obtain ⟨front, later, rfl⟩ := List.append_of_mem hd
    rw [List.map_append, List.map_cons] at h
    obtain ⟨-, hlater, hfront⟩ := List.nodup_append.mp h
    have hlater := (List.nodup_cons.mp hlater).1
    rw [List.filter_append, List.filter_cons_of_pos (by simp), List.filter_eq_nil_iff.mpr,
      List.filter_eq_nil_iff.mpr, List.nil_append]
    · intro e he hu
      exact hlater (by rw [← of_decide_eq_true hu]; exact List.mem_map_of_mem he)
    · intro e he hu
      exact hfront e.uri (List.mem_map_of_mem he) d.uri List.mem_cons_self (of_decide_eq_true hu)
  · have hnone : ∀ d ∈ ds, d.uri ≠ uri := fun d hd hu => hsome ⟨d, hd, hu⟩
    refine .inl ⟨List.filter_eq_nil_iff.mpr fun d hd hu => ?_, hnone⟩
    exact hnone d hd (of_decide_eq_true hu)

namespace Agrees

variable {i : Index} {ds : List Document} (H : Agrees i ds)

include H

theorem get?_tagged_iff {tag : Text} {es : List TaggedHeading} :
    i.tagged.get? tag = some es ↔ es = occurrences ds tag ∧ es ≠ [] := by
  rw [H.tagged, unlessEmpty]
  split
  · next h => exact ⟨fun hn => absurd hn (by simp), fun ⟨he, hne⟩ => absurd (he.trans h) hne⟩
  · next h =>
    rw [Option.some.injEq]
    exact ⟨fun he => ⟨he.symm, by rwa [← he]⟩, fun ⟨he, _⟩ => he.symm⟩

theorem mem_tagged_iff {tag : Text} {es : List TaggedHeading} :
    (tag, es) ∈ i.tagged ↔ es = occurrences ds tag ∧ es ≠ [] := by
  rw [Table.mem_iff_get? H.keys, H.get?_tagged_iff]

/-- Under a tag are the headings of all documents that carry it. -/
theorem under_eq (tag : Text) : i.under tag = occurrences ds tag := by
  rw [under, H.tagged, unlessEmpty]
  split
  · next h => rw [h]; rfl
  · rfl

/-- A tag is kept iff a heading carries it. -/
theorem mem_tags_iff {tag : Text} :
    tag ∈ i.tags ↔ ∃ d ∈ ds, ∃ h ∈ Heading.ofDocument d, tag ∈ h.tags := by
  have hkeys : tag ∈ i.tags ↔ ∃ es, (tag, es) ∈ i.tagged := by
    rw [tags, Table.keys, List.mem_map]
    constructor
    · rintro ⟨e, he, rfl⟩
      exact ⟨e.2, he⟩
    · rintro ⟨es, he⟩
      exact ⟨_, he, rfl⟩
  rw [hkeys]
  constructor
  · rintro ⟨es, he⟩
    obtain ⟨rfl, hne⟩ := H.mem_tagged_iff.mp he
    obtain ⟨e, he⟩ := List.exists_mem_of_ne_nil _ hne
    obtain ⟨d, hd, h, hh, ht, -⟩ := mem_occurrences.mp he
    exact ⟨d, hd, h, hh, ht⟩
  · rintro ⟨d, hd, h, hh, ht⟩
    exact ⟨_, H.mem_tagged_iff.mpr ⟨rfl, List.ne_nil_of_mem
      (mem_occurrences.mpr ⟨d, hd, h, hh, ht, rfl⟩)⟩⟩

theorem mem_values_flatten_iff {e : TaggedHeading} :
    e ∈ i.tagged.values.flatten ↔
      ∃ d ∈ ds, ∃ h ∈ Heading.ofDocument d, h.tags ≠ [] ∧ e = entry d h := by
  rw [Table.values, List.mem_flatten]
  constructor
  · rintro ⟨es, hes, he⟩
    obtain ⟨⟨tag, es⟩, hmem, rfl⟩ := List.mem_map.mp hes
    obtain ⟨rfl, -⟩ := H.mem_tagged_iff.mp hmem
    obtain ⟨d, hd, h, hh, ht, rfl⟩ := mem_occurrences.mp he
    exact ⟨d, hd, h, hh, List.ne_nil_of_mem ht, rfl⟩
  · rintro ⟨d, hd, h, hh, hne, rfl⟩
    obtain ⟨tag, ht⟩ := List.exists_mem_of_ne_nil _ hne
    have he : entry d h ∈ occurrences ds tag := mem_occurrences.mpr ⟨d, hd, h, hh, ht, rfl⟩
    exact ⟨_, List.mem_map.mpr ⟨(tag, _),
      H.mem_tagged_iff.mpr ⟨rfl, List.ne_nil_of_mem he⟩, rfl⟩, he⟩

/-- The headings of a document are listed once and by line. -/
theorem headingsIn_eq (uri : Text) (tag : Option Text) :
    i.headingsIn uri tag = (ds.filter (·.uri = uri)).flatMap fun d =>
      ((Heading.ofDocument d).filter (Wanted tag)).map (entry d) := by
  have hcandidates (e : TaggedHeading) :
      e ∈ (match tag with
        | some tag => i.under tag
        | none => i.tagged.values.flatten) ↔
      ∃ d ∈ ds, ∃ h ∈ Heading.ofDocument d, Wanted tag h ∧ e = entry d h := by
    cases tag with
    | some tag =>
      simp only
      rw [H.under_eq]
      exact mem_occurrences
    | none => exact H.mem_values_flatten_iff
  unfold headingsIn
  rcases filter_uri_cases H.uris uri with ⟨hnil, hnone⟩ | ⟨d, hd, rfl, hone⟩
  · rw [hnil]
    refine mergeSort_distinctIds (fun e => ?_) (by simp) List.Pairwise.nil
    refine List.mem_filter.trans ((and_congr_left fun _ => hcandidates e).trans ?_)
    constructor
    · rintro ⟨⟨d, hd, h, -, -, rfl⟩, hu⟩
      exact absurd (of_decide_eq_true hu) (hnone d hd)
    · exact fun he => absurd he (by simp)
  · rw [hone, List.flatMap_singleton]
    refine mergeSort_distinctIds (fun e => ?_) (fun e he e' he' hid => ?_)
      (pairwise_line_entries d _)
    · refine List.mem_filter.trans ((and_congr_left fun _ => hcandidates e).trans ?_)
      rw [List.mem_map]
      constructor
      · rintro ⟨⟨d', hd', h, hh, hw, rfl⟩, hu⟩
        have hmem : d' ∈ ds.filter (·.uri = d.uri) := List.mem_filter.mpr ⟨hd', hu⟩
        rw [hone, List.mem_singleton] at hmem
        subst hmem
        exact ⟨h, List.mem_filter.mpr ⟨hh, decide_eq_true hw⟩, rfl⟩
      · rintro ⟨h, hh, rfl⟩
        obtain ⟨hh, hw⟩ := List.mem_filter.mp hh
        exact ⟨⟨d, hd, h, hh, of_decide_eq_true hw, rfl⟩, decide_eq_true rfl⟩
    · obtain ⟨h, hh, rfl⟩ := List.mem_map.mp he
      obtain ⟨g, hg, rfl⟩ := List.mem_map.mp he'
      rw [eq_of_id_eq (List.mem_filter.mp hh).1 (List.mem_filter.mp hg).1 hid]

/-- The tags of a document are sorted and distinct. -/
theorem tagsOf_eq (uri : Text) :
    i.tagsOf uri = Text.sort ((ds.filter (·.uri = uri)).flatMap fun d =>
      (Heading.ofDocument d).flatMap Heading.tags).eraseDups := by
  rw [← Text.distinct_eq_eraseDups]
  refine Text.sort_eq_of_mem_iff (H.keys.sublist (List.filter_sublist.map _))
    (Text.nodup_distinct _) fun tag => ?_
  rw [Text.mem_distinct, Table.keys, List.mem_map, List.mem_flatMap]
  constructor
  · rintro ⟨⟨tag, es⟩, hmem, rfl⟩
    obtain ⟨hmem, hany⟩ := List.mem_filter.mp hmem
    obtain ⟨rfl, -⟩ := H.mem_tagged_iff.mp hmem
    obtain ⟨e, he, hu⟩ := List.any_eq_true.mp hany
    obtain ⟨d, hd, h, hh, ht, rfl⟩ := mem_occurrences.mp he
    exact ⟨d, List.mem_filter.mpr ⟨hd, hu⟩, List.mem_flatMap.mpr ⟨h, hh, ht⟩⟩
  · rintro ⟨d, hd, htag⟩
    obtain ⟨hd, hu⟩ := List.mem_filter.mp hd
    obtain ⟨h, hh, ht⟩ := List.mem_flatMap.mp htag
    have he : entry d h ∈ occurrences ds tag := mem_occurrences.mpr ⟨d, hd, h, hh, ht, rfl⟩
    refine ⟨(tag, occurrences ds tag), List.mem_filter.mpr ⟨?_, ?_⟩, rfl⟩
    · exact H.mem_tagged_iff.mpr ⟨rfl, List.ne_nil_of_mem he⟩
    · exact List.any_eq_true.mpr ⟨_, he, hu⟩

theorem breadcrumb?_eq (uri : Text) (line : Int) :
    i.breadcrumb? uri line = (ds.find? (·.uri = uri)).bind fun d =>
      (breadcrumbs (Heading.ofDocument d)).get? line := by
  rw [breadcrumb?, H.crumbs, Table.get?_map ds Document.uri, Option.bind_map]
  rfl

theorem uris_eq : i.uris = Text.sort (ds.map Document.uri) := by
  rw [Index.uris, H.crumbs, Table.keys, List.map_map]
  rfl

end Agrees

end TaggedOutline.Index
