import KeyTree.Proofs.FileSystem.Removal
import KeyTree.Proofs.Key.Segments

/-!
# Markers in their places

A marker is its directory's key with a text without separators at the end. So it lies below exactly
the directories that its directory lies below, it follows its directory in the order of the keys,
and it is named in the directory above by the last segment and the suffix, from which the suffix can
be cut again. This does not depend on what the suffix begins or ends with, on whether it repeats a
part of itself, or on whether it comes before the separator in the order of characters: a marker
need not come after the keys below its directory, but it is never among them.

## Main definitions

* `FileSystem.ListsMarkersBelow` — the keys below a directory, as far as markers are concerned.
* `FileSystem.NamesMarker` — the pages of a directory, as far as one marker is concerned.

## Main results

* `Key.childPrefix_prefix_marker_iff` — what a marker lies below.
* `FileSystem.listsMarkersBelow_keysUnder`, `FileSystem.namesMarker_pages` — both kinds of listings.
* `FileSystem.markers_beside` — what is got of markers, whichever requests are refused.
-/

namespace KeyTree

open Key Listing

namespace Key

variable {suffix p q : Key}

/-- A marker lies below the directories that its own directory lies below. -/
theorem childPrefix_prefix_marker_iff (hs : separator ∉ suffix) (hq : q ≠ []) :
    childPrefix q <+: marker suffix p ↔ childPrefix q <+: p :=
  ⟨childPrefix_prefix_of_marker hs hq, fun h => h.trans (List.prefix_append ..)⟩

/-- A marker follows the key of its directory. -/
theorem lt_marker (hs : suffix ≠ []) (p : Key) : p < marker suffix p :=
  Status.lt_append_of_ne_nil p hs

end Key

namespace FileSystem

/-- Keys *list the markers below* a directory when they hold the stored markers of the directories
that descend from it, no marker of another directory, and in particular not its own. -/
structure ListsMarkersBelow (suffix : List Char) (objects : Objects) (q : Key) (keys : List Key) :
    Prop where
  mem_iff : ∀ r, IsNormal r →
    (marker suffix r ∈ keys ↔ marker suffix r ∈ objects ∧ Descends q r)
  own_notMem : marker suffix q ∉ keys

/-- Pages of a directory *name the marker* of a child when the marker is among their objects if it
is stored, and shows the last segment of the child as a directory and nothing else. -/
structure NamesMarker (suffix : List Char) (objects : Objects) (parent p : Key)
    (found : List Page) : Prop where
  listed_iff : (∃ summary ∈ found.flatMap Page.objects, summary.key = marker suffix p) ↔
    marker suffix p ∈ objects
  shows : ∀ summary ∈ found.flatMap Page.objects, summary.key = marker suffix p →
    Status.ofSummary suffix (childPrefix parent) false summary = [.directory (lastSegment p)]

variable {suffix : List Char} {objects : Objects} {p q parent name : Key}

/-- The keys below a directory list the markers below it. -/
theorem listsMarkersBelow_keysUnder (hseparator : separator ∉ suffix) (hq : q ≠ []) :
    ListsMarkersBelow suffix objects q (objects.keysUnder (childPrefix q)) := by
  refine ⟨fun r _ => ?_, fun hmem => ?_⟩
  · rw [Objects.mem_keysUnder_iff, childPrefix_prefix_marker_iff hseparator hq,
      childPrefix_prefix_iff_descends hq]
  · exact not_childPrefix_prefix_marker hseparator hq (Objects.mem_keysUnder_iff.mp hmem).2

/-- An object on the pages of one level is shown by its own key. -/
theorem summary?_itemOf {under k : Key} {o : Object} {summary : Summary}
    (h : (itemOf under (delimiterOf false) k o).summary? = some summary) :
    summary = ⟨k, o.body.length, some o.modified⟩ := by
  rw [itemOf] at h
  split at h
  · cases h
  · exact (Option.some.inj h).symm

/-- The pages of one level show a key without further separators if it is stored, with its size and
its time. -/
theorem mem_objects_pages_iff {under rest : Key} (hleaf : separator ∉ rest) {size : Nat}
    (hsize : 0 < size) {summary : Summary} :
    summary ∈ (pages size (items objects under (delimiterOf false))).flatMap Page.objects ∧
        summary.key = under ++ rest ↔
      ∃ o, objects[under ++ rest]? = some o ∧
        summary = ⟨under ++ rest, o.body.length, some o.modified⟩ := by
  rw [flatMap_objects_pages hsize, List.mem_filterMap]
  constructor
  · rintro ⟨⟨item, hitem, hsummary⟩, hkey⟩
    obtain ⟨k, o, ho, -, rfl⟩ := mem_items_iff.mp hitem
    obtain rfl := summary?_itemOf hsummary
    obtain rfl : k = under ++ rest := hkey
    exact ⟨o, ho, rfl⟩
  · rintro ⟨o, ho, rfl⟩
    have hitem := mem_items_iff.mpr
      ⟨under ++ rest, o, ho, List.prefix_append .., itemOf_leaf under hleaf o⟩
    exact ⟨⟨_, hitem, rfl⟩, rfl⟩

/-- The pages of one level name the markers of the children. -/
theorem namesMarker_pages (hseparator : separator ∉ suffix) (hname : IsName name) {size : Nat}
    (hsize : 0 < size) :
    NamesMarker suffix objects parent (childPrefix parent ++ name)
      (pages size (items objects (childPrefix parent) (delimiterOf false))) := by
  have hmarker : marker suffix (childPrefix parent ++ name) =
      childPrefix parent ++ (name ++ suffix) := List.append_assoc ..
  have hleaf : separator ∉ name ++ suffix := by
    rw [List.mem_append, not_or]
    exact ⟨hname.separator_notMem, hseparator⟩
  constructor
  · simp only [hmarker, mem_objects_pages_iff hleaf hsize]
    constructor
    · rintro ⟨-, o, ho, -⟩
      exact Objects.mem_of_getElem? ho
    · intro hstored
      obtain ⟨o, ho⟩ := Objects.exists_getElem?_of_mem hstored
      exact ⟨_, o, ho, rfl⟩
  · intro summary hsummary hkey
    rw [hmarker] at hkey
    obtain ⟨o, -, rfl⟩ := (mem_objects_pages_iff hleaf hsize).mp ⟨hsummary, hkey⟩
    rw [lastSegment_childPrefix_append hname.separator_notMem]
    exact (Status.ofItem_marker hseparator hname.separator_notMem o).trans (if_neg hname.ne_nil)

variable {fs : FileSystem} {plan : Plan} {world : World}

/-- Markers are found beside their directories and never in them. The marker of `p` lies below `q`
exactly if `p` does, and it follows `p` in order. Whichever requests are refused, the keys below `q`
are listed with the markers of the directories that descend from `q`, without any other marker, and
a listing of the directory of `p` names `p` where it shows its marker, unless a request for a page
fails. -/
theorem markers_beside (hr : plan.Refuses) (hm : fs.Mounted world.store) (hp : IsNormal p)
    (hq : IsNormal q) :
    (childPrefix q <+: marker fs.config.suffix p ↔ childPrefix q <+: p) ∧
      p < marker fs.config.suffix p ∧
      ((fs.subtreeKeys q).Returns plan world fun reply after =>
        match reply with
        | some keys => ListsMarkersBelow fs.config.suffix world.store.objects q keys
        | none => ∃ query, plan.Fails world.requests after.requests (.list query)) ∧
      ∃ parent, parent? p = some parent ∧
        (fs.allPages parent false).Returns plan world fun reply after =>
          match reply with
          | some found => NamesMarker fs.config.suffix world.store.objects parent p found
          | none => ∃ query, plan.Fails world.requests after.requests (.list query) := by
  have hseparator := fs.config.separator_notMem_suffix
  obtain ⟨parent, name, hname, rfl, hchild⟩ := hp.exists_name
  refine ⟨childPrefix_prefix_marker_iff hseparator hq.1, lt_marker fs.config.suffix_ne_nil _,
    (returns_subtreeKeys hr hm q).mono ?_, parent, hchild.parent?_eq,
    (returns_allPages hr hm false).mono ?_⟩
  · rintro (_ | keys) after ⟨-, -, hreply⟩
    · exact hreply
    · obtain ⟨rfl, -⟩ := hreply
      exact listsMarkersBelow_keysUnder hseparator hq.1
  · rintro (_ | found) after ⟨-, -, hreply⟩
    · exact hreply
    · obtain ⟨rfl, -⟩ := hreply
      exact namesMarker_pages hseparator hname fs.config.pageSize_pos

/-- A bucket whose markers end with two equal characters that come before the separator. -/
def doubledSuffix : FileSystem :=
  { narrowBucket with
    config := { narrowBucket.config with
      suffix := ['$', '$']
      suffix_ne_nil := by decide
      separator_notMem_suffix := by decide } }

/-- A marked directory with a marked child, which ends like a part of the suffix, and a marked
namesake. -/
def markedChild : World :=
  { store := .holding ['b'] [("d$$".toList, []), ("d/x$$$".toList, []), ("d/y".toList, [1]),
      ("dd$$".toList, [])] }

/-- The marker of a child that ends like a part of the suffix is listed below the directory, without
the directory's own marker, and names the child. -/
theorem markers_beside_doubledSuffix :
    IsNormal "d/x$".toList ∧ IsNormal ['d'] ∧
      ((doubledSuffix.subtreeKeys ['d']).Returns .quiet markedChild fun reply _ =>
        ∃ keys, reply = some keys ∧ keys = ["d/x$$$".toList, "d/y".toList] ∧
          ListsMarkersBelow ['$', '$'] markedChild.store.objects ['d'] keys) ∧
      (doubledSuffix.allPages ['d'] false).Returns .quiet markedChild fun reply _ =>
        ∃ found, reply = some found ∧
          (found.flatMap Page.objects).map Summary.key = ["d/x$$$".toList, "d/y".toList] ∧
          NamesMarker ['$', '$'] markedChild.store.objects ['d'] "d/x$".toList found ∧
          lastSegment "d/x$".toList = "x$".toList := by
  have hm : doubledSuffix.Mounted markedChild.store := ⟨rfl, 'b', by decide, by decide⟩
  have hp : IsNormal "d/x$".toList := by decide +kernel
  have hq : IsNormal ['d'] := by decide +kernel
  have hkeys : ((doubledSuffix.subtreeKeys ['d']).exec .quiet markedChild).1 =
      .ok (some ["d/x$$$".toList, "d/y".toList]) := by
    decide +kernel
  have hpages : (((doubledSuffix.allPages ['d'] false).exec .quiet markedChild).1.map
      (Option.map fun found => (found.flatMap Page.objects).map Summary.key)) =
      .ok (some ["d/x$$$".toList, "d/y".toList]) := by
    decide +kernel
  obtain ⟨-, -, ⟨keys, after, hrun, hlists⟩, parent, hparent, found, after', hrun', hnames⟩ :=
    markers_beside Plan.refuses_quiet hm hp hq
  obtain rfl : ['d'] = parent := Option.some.inj hparent
  rw [hrun] at hkeys
  obtain rfl := Except.ok.inj hkeys
  refine ⟨hp, hq, ⟨_, after, hrun, _, rfl, rfl, hlists⟩, found, after', hrun', ?_⟩
  rw [hrun'] at hpages
  obtain ⟨pages, rfl, hshown⟩ := Option.map_eq_some_iff.mp (Except.ok.inj hpages)
  exact ⟨pages, rfl, hshown, hnames, by decide +kernel⟩

end FileSystem

end KeyTree
