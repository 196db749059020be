import TaggedOutline.Index.Basic
import TaggedOutline.Proofs.Heading.Scan
import TaggedOutline.Proofs.Outline.Ancestors
import TaggedOutline.Proofs.Outline.Block
import TaggedOutline.Proofs.Table
import TaggedOutline.Proofs.Text.Names

/-!
# The index of a list of documents

An index agrees with a list of documents if it has under each tag what the documents have there, in
the order of the list, and the breadcrumbs of each document (`Agrees`). Indexing a document moves it
to the end of the list (`Agrees.add`), removing it drops it there (`Agrees.remove`).
-/

namespace TaggedOutline

/-! ## Nodes -/

/-- The nodes of the headings of a document that carry a tag. -/
def carriers (d : Document) (tag : Text) : List Node :=
  (((Heading.ofDocument d).zip (Outline.ofDocument d).ordered).filter fun e => tag ∈ e.1.tags).map
    Prod.snd

theorem mem_carriers {d : Document} {tag : Text} {n : Node} : n ∈ carriers d tag ↔
    ∃ h, (h, n) ∈ (Heading.ofDocument d).zip (Outline.ofDocument d).ordered ∧ tag ∈ h.tags := by
  rw [carriers, List.mem_map]
  constructor
  · rintro ⟨⟨h, m⟩, hmem, rfl⟩
    obtain ⟨hzip, htag⟩ := List.mem_filter.mp hmem
    exact ⟨h, hzip, of_decide_eq_true htag⟩
  · rintro ⟨h, hzip, htag⟩
    exact ⟨(h, n), List.mem_filter.mpr ⟨hzip, decide_eq_true htag⟩, rfl⟩

namespace Index

/-! ## Entries -/

/-- The entry of a heading of a document. -/
def entry (d : Document) (h : Heading) : TaggedHeading :=
  ⟨h, d.uri, ((breadcrumbs (Heading.ofDocument d)).get? h.line).getD []⟩

/-- The entries of the headings of a document that carry a tag, in line order. -/
def carrying (d : Document) (tag : Text) : List TaggedHeading :=
  ((Heading.ofDocument d).filter fun h => tag ∈ h.tags).map (entry d)

/-- The entries of all headings of some documents that carry a tag. -/
def occurrences (ds : List Document) (tag : Text) : List TaggedHeading :=
  ds.flatMap fun d => carrying d tag

/-- The list of indexed documents with one more, or with what one of them is now. -/
def reindex (ds : List Document) (d : Document) : List Document :=
  ds.filter (·.uri ≠ d.uri) ++ [d]

/-- The list of indexed documents without one. -/
def without (ds : List Document) (uri : Text) : List Document := ds.filter (·.uri ≠ uri)

/-- A list, unless it is empty. -/
def unlessEmpty (l : List TaggedHeading) : Option (List TaggedHeading) :=
  if l = [] then none else some l

/-- The index has what the documents of a list have, and nothing else. -/
structure Agrees (i : Index) (ds : List Document) : Prop where
  uris : (ds.map Document.uri).Nodup
  crumbs : i.crumbs = ds.map fun d => (d.uri, breadcrumbs (Heading.ofDocument d))
  keys : (Table.keys i.tagged).Nodup
  tagged : ∀ tag, i.tagged.get? tag = unlessEmpty (occurrences ds tag)

theorem agrees_empty : Agrees {} [] := ⟨List.nodup_nil, rfl, List.nodup_nil, fun _ => rfl⟩

theorem mem_carrying {d : Document} {tag : Text} {e : TaggedHeading} :
    e ∈ carrying d tag ↔ ∃ h ∈ Heading.ofDocument d, tag ∈ h.tags ∧ e = entry d h := by
  simp only [carrying, List.mem_map, List.mem_filter, decide_eq_true_eq]
  constructor
  · rintro ⟨h, ⟨hh, htag⟩, rfl⟩
    exact ⟨h, hh, htag, rfl⟩
  · rintro ⟨h, hh, htag, rfl⟩
    exact ⟨h, ⟨hh, htag⟩, rfl⟩

theorem uri_of_mem_carrying {d : Document} {tag : Text} {e : TaggedHeading}
    (h : e ∈ carrying d tag) : e.uri = d.uri := by
  obtain ⟨g, -, -, rfl⟩ := mem_carrying.mp h
  rfl

/-- Dropping the entries of a document is dropping it from the list. -/
theorem filter_occurrences (ds : List Document) (uri tag : Text) :
    (occurrences ds tag).filter (·.uri ≠ uri) = occurrences (without ds uri) tag := by
  unfold occurrences without
  induction ds with
  | nil => rfl
  | cons d ds ih =>
    rw [List.flatMap_cons, List.filter_append, ih]
    by_cases h : d.uri = uri
    · have hnone : (carrying d tag).filter (·.uri ≠ uri) = [] := by
        rw [List.filter_eq_nil_iff]
        intro e he
        simp [uri_of_mem_carrying he, h]
      rw [hnone, List.filter_cons_of_neg (by simp [h]), List.nil_append]
    · have hall : (carrying d tag).filter (·.uri ≠ uri) = carrying d tag := by
        rw [List.filter_eq_self]
        intro e he
        simp [uri_of_mem_carrying he, h]
      rw [hall, List.filter_cons_of_pos (by simp [h]), List.flatMap_cons]

/-! ## Removing a document -/

theorem mem_dropFrom {t : Table Text (List TaggedHeading)} {uri tag : Text}
    {es : List TaggedHeading} :
    (tag, es) ∈ dropFrom t uri ↔
      ∃ all, (tag, all) ∈ t ∧ unlessEmpty (all.filter (·.uri ≠ uri)) = some es := by
  unfold dropFrom unlessEmpty
  rw [List.mem_filterMap]
  constructor
  · rintro ⟨⟨tag', all⟩, hmem, hkept⟩
    simp only at hkept
    split at hkept
    · exact absurd hkept (by simp)
    · next hne =>
      obtain ⟨rfl, rfl⟩ := Prod.mk.inj (Option.some.inj hkept)
      exact ⟨all, hmem, if_neg hne⟩
  · rintro ⟨all, hmem, hkept⟩
    refine ⟨(tag, all), hmem, ?_⟩
    split at hkept
    · exact absurd hkept (by simp)
    · next hne =>
      simp only
      rw [Option.some.inj hkept]

theorem keys_dropFrom_sublist (t : Table Text (List TaggedHeading)) (uri : Text) :
    (Table.keys (dropFrom t uri)).Sublist (Table.keys t) := by
  induction t with
  | nil => exact List.Sublist.refl _
  | cons e t ih =>
    unfold dropFrom at ih ⊢
    rw [List.filterMap_cons]
    split
    · exact ih.cons e.1
    · next e' he =>
      simp only at he
      split at he
      · exact absurd he (by simp)
      · rw [← Option.some.inj he]
        exact ih.cons_cons e.1

theorem get?_dropFrom {t : Table Text (List TaggedHeading)} (hkeys : t.keys.Nodup)
    (uri tag : Text) :
    (dropFrom t uri).get? tag =
      (t.get? tag).bind fun es => unlessEmpty (es.filter (·.uri ≠ uri)) := by
  have hkeys' := hkeys.sublist (keys_dropFrom_sublist t uri)
  refine Option.ext fun es => ?_
  rw [← Table.mem_iff_get? hkeys', mem_dropFrom, Option.bind_eq_some_iff]
  exact exists_congr fun all => and_congr_left fun _ => Table.mem_iff_get? hkeys

theorem Agrees.remove {i : Index} {ds : List Document} (h : Agrees i ds) (uri : Text) :
    Agrees (i.remove uri) (without ds uri) := by
  refine ⟨h.uris.sublist (List.filter_sublist.map _), ?_,
    h.keys.sublist (keys_dropFrom_sublist _ uri), fun tag => ?_⟩
  · show i.crumbs.filter _ = _
    rw [h.crumbs, List.filter_map]
    rfl
  · show (dropFrom i.tagged uri).get? tag = _
    rw [get?_dropFrom h.keys, h.tagged, ← filter_occurrences]
    unfold unlessEmpty
    by_cases hempty : occurrences ds tag = []
    · rw [if_pos hempty, hempty]
      rfl
    · rw [if_neg hempty]
      rfl

/-! ## Adding a document -/

theorem nodup_keys_addUnder {t : Table Text (List TaggedHeading)} (hkeys : t.keys.Nodup)
    (hs : List TaggedHeading) (tags : List Text) :
    (Table.keys (tags.foldl (addUnder hs) t)).Nodup := by
  induction tags generalizing t with
  | nil => exact hkeys
  | cons tag tags ih => exact ih (Table.nodup_keys_put hkeys _ _)

/-- Headings are put once under each of some distinct tags. -/
theorem get?_foldl_addUnder {t : Table Text (List TaggedHeading)} (hs : List TaggedHeading)
    {tags : List Text} (htags : tags.Nodup) (tag : Text) :
    (tags.foldl (addUnder hs) t).get? tag =
      if tag ∈ tags then
        some ((t.get? tag).getD [] ++ hs.filter fun h => Text.isIn tag h.heading.tags)
      else t.get? tag := by
  induction tags generalizing t with
  | nil => rfl
  | cons first tags ih =>
    obtain ⟨hfirst, hrest⟩ := List.nodup_cons.mp htags
    rw [List.foldl_cons, ih hrest, addUnder, Table.get?_put]
    by_cases heq : first = tag
    · subst heq
      rw [if_neg hfirst, if_pos rfl, if_pos List.mem_cons_self]
    · rw [if_neg heq]
      have hmem : tag ∈ first :: tags ↔ tag ∈ tags := by
        rw [List.mem_cons]
        exact ⟨fun h => h.resolve_left fun e => heq e.symm, .inr⟩
      simp only [hmem]

theorem filter_headingsOf (d : Document) (tag : Text) :
    (headingsOf d).filter (fun h => Text.isIn tag h.heading.tags) = carrying d tag := by
  rw [carrying, headingsOf, List.filter_map]
  refine congrArg (List.map _) (List.filter_congr fun h _ => ?_)
  show Text.isIn tag h.tags = decide (tag ∈ h.tags)
  rw [Bool.eq_iff_iff, Text.isIn_iff, decide_eq_true_eq]

theorem mem_tagsOf_headingsOf {d : Document} {tag : Text} :
    tag ∈ Text.distinct ((headingsOf d).flatMap (·.heading.tags)) ↔ carrying d tag ≠ [] := by
  rw [Text.mem_distinct, ← filter_headingsOf, Ne, List.filter_eq_nil_iff, List.mem_flatMap]
  simp [Text.isIn_iff]

theorem get?_addHeadings (t : Table Text (List TaggedHeading)) (d : Document) (tag : Text) :
    (addHeadings t (headingsOf d)).get? tag =
      if carrying d tag = [] then t.get? tag
      else some ((t.get? tag).getD [] ++ carrying d tag) := by
  rw [addHeadings, get?_foldl_addUnder _ (Text.nodup_distinct _), filter_headingsOf]
  by_cases h : carrying d tag = []
  · rw [if_pos h, if_neg fun hm => mem_tagsOf_headingsOf.mp hm h]
  · rw [if_neg h, if_pos (mem_tagsOf_headingsOf.mpr h)]

theorem uri_notMem_without (ds : List Document) (uri : Text) :
    uri ∉ (without ds uri).map Document.uri := by
  intro hm
  obtain ⟨d, hd, hu⟩ := List.mem_map.mp hm
  have := (List.mem_filter.mp hd).2
  simp [hu] at this

theorem Agrees.add {i : Index} {ds : List Document} (h : Agrees i ds) (d : Document) :
    Agrees (i.add d) (reindex ds d) := by
  have hrest := h.remove d.uri
  have hnew := uri_notMem_without ds d.uri
  refine ⟨?_, ?_, nodup_keys_addUnder hrest.keys _ _, fun tag => ?_⟩
  · rw [reindex, List.map_append]
    refine List.nodup_append.mpr ⟨hrest.uris, List.nodup_singleton _, fun u hu v hv huv => hnew ?_⟩
    have hv : v = d.uri := by simpa using hv
    rw [huv.trans hv] at hu
    exact hu
  · show (i.remove d.uri).crumbs.put d.uri _ = _
    rw [hrest.crumbs, Table.put_of_notMem, reindex, List.map_append]
    · rfl
    · rw [Table.keys, List.map_map]
      exact hnew
  · show (addHeadings (i.remove d.uri).tagged (headingsOf d)).get? tag = _
    have hsplit : occurrences (reindex ds d) tag =
        occurrences (without ds d.uri) tag ++ carrying d tag := by
      rw [occurrences, reindex, List.flatMap_append, List.flatMap_singleton]
      rfl
    rw [get?_addHeadings, hrest.tagged, hsplit]
    unfold unlessEmpty
    by_cases hd : carrying d tag = []
    · rw [if_pos hd, hd, List.append_nil]
    · rw [if_neg hd, if_neg (List.append_ne_nil_of_right_ne_nil _ hd)]
      by_cases hempty : occurrences (without ds d.uri) tag = []
      · rw [if_pos hempty, hempty]
        rfl
      · rw [if_neg hempty]
        rfl

end Index

end TaggedOutline
