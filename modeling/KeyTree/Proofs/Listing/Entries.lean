import KeyTree.FileSystem.Status
import KeyTree.Proofs.Contents
import KeyTree.Proofs.Listing.Pages

/-!
# The entries of a directory

What a listing of one level shows is read as entries: an object is a file unless its key ends the
way markers do, a marker or a group of keys is a directory, and the first entry of a name counts.
The entries do not depend on where the pages were cut: a key stands before the groups and the
markers that continue it, so a file is never hidden by a directory of its name.

## Main definitions

* `Status.Reads` — which entries the contents of a bucket give a directory.
* `Status.IsListing` — lists of exactly these entries, in the order of the names.

## Main results

* `Status.isListing_ofPages` — the pages of a listing give exactly the entries of the directory.
-/

namespace KeyTree.Status

open Key Listing

/-- The entries that the contents of a bucket give below a text: a file for each name that is stored
and does not end the way markers do, and a directory for each other name with a marker or with keys
below it. -/
inductive Reads (suffix : List Char) (objects : Objects) (under : Key) : Status → Prop
  | file {name : Key} {object : Object} (hname : IsName name) (hsuffix : ¬ suffix <:+ name)
      (hstored : objects[under ++ name]? = some object) :
      Reads suffix objects under
        { name, isDirectory := false, length := object.body.length,
          modified := some object.modified }
  | directory {name : Key} (hname : IsName name)
      (hfile : ¬ (under ++ name ∈ objects ∧ ¬ suffix <:+ name))
      (hshown : under ++ (name ++ suffix) ∈ objects ∨
        ∃ k ∈ objects, under ++ (name ++ [separator]) <+: k) :
      Reads suffix objects under (directory name)

/-- The entries of a directory, once each and in the order of their names. -/
structure IsListing (suffix : List Char) (objects : Objects) (under : Key)
    (entries : List Status) : Prop where
  sorted : entries.Pairwise fun a b => a.name < b.name
  mem_iff : ∀ entry, entry ∈ entries ↔ Reads suffix objects under entry

theorem Reads.isName {suffix : List Char} {objects : Objects} {under : Key} {entry : Status}
    (h : Reads suffix objects under entry) : IsName entry.name := by
  cases h with
  | file hname => exact hname
  | directory hname => exact hname

/-- A name that is shown to be a file has an object of the shown size and time. -/
theorem Reads.exists_object {suffix : List Char} {objects : Objects} {under : Key} {entry : Status}
    (h : Reads suffix objects under entry) (hfile : entry.isDirectory = false) :
    ¬ suffix <:+ entry.name ∧ ∃ object, objects[under ++ entry.name]? = some object ∧
      entry.length = object.body.length ∧ entry.modified = some object.modified := by
  cases h with
  | file _ hplain hstored => exact ⟨hplain, _, hstored, rfl, rfl⟩
  | directory => exact Bool.noConfusion hfile

/-- A name that is shown to be a directory is one. -/
theorem Reads.isDirectory_append {suffix : List Char} {objects : Objects} {under : Key}
    {entry : Status} (h : Reads suffix objects under entry) (hdir : entry.isDirectory = true) :
    objects.IsDirectory suffix (under ++ entry.name) := by
  cases h with
  | file => exact Bool.noConfusion hdir
  | @directory name hname _ hshown =>
    rw [← List.append_assoc] at hshown
    rcases hshown with hmarker | ⟨k, hk, hbelow⟩
    · exact Or.inr (Or.inl hmarker)
    · have hprefix : childPrefix (under ++ name) = under ++ name ++ [separator] :=
        childPrefix_of_ne_nil (List.append_ne_nil_of_right_ne_nil _ hname.ne_nil)
      refine Or.inr (Or.inr ⟨k, hk, ?_⟩)
      rwa [Status.directory, hprefix, List.append_assoc]

/-- The entries depend only on what is stored below the text. -/
theorem Reads.congr {suffix : List Char} {objects objects' : Objects} {under : Key} {entry : Status}
    (h : Reads suffix objects under entry)
    (hsame : ∀ k, under <+: k → objects'[k]? = objects[k]?) :
    Reads suffix objects' under entry := by
  cases h with
  | file hname hplain hstored =>
    exact .file hname hplain ((hsame _ (List.prefix_append ..)).trans hstored)
  | directory hname hfile hshown =>
    have hmem : ∀ k, under <+: k → (k ∈ objects' ↔ k ∈ objects) :=
      fun k hk => Objects.mem_congr (hsame k hk)
    refine .directory hname ?_ ?_
    · rwa [hmem _ (List.prefix_append ..)]
    · rcases hshown with hmarker | ⟨k, hk, hp⟩
      · exact Or.inl ((hmem _ (List.prefix_append ..)).mpr hmarker)
      · exact Or.inr ⟨k, (hmem k ((List.prefix_append ..).trans hp)).mpr hk, hp⟩

theorem IsListing.congr {suffix : List Char} {objects objects' : Objects} {under : Key}
    {entries : List Status} (h : IsListing suffix objects under entries)
    (hsame : ∀ k, under <+: k → objects'[k]? = objects[k]?) :
    IsListing suffix objects' under entries :=
  ⟨h.sorted, fun entry => (h.mem_iff entry).trans
    ⟨fun hreads => hreads.congr hsame,
      fun hreads => hreads.congr fun k hk => (hsame k hk).symm⟩⟩

/-! ### The first entry of a name -/

/-- Filling a map of entries keeps what is known and adds the first entry of each other name. -/
theorem getElem?_foldl_insertIfNew (entries : List Status) (known : Std.ExtTreeMap Key Status)
    (n : Key) :
    (entries.foldl (fun known entry => known.insertIfNew entry.name entry) known)[n]? =
      known[n]?.or (entries.find? fun entry => entry.name = n) := by
  induction entries generalizing known with
  | nil => simp
  | cons entry entries ih =>
    rw [List.foldl_cons, ih, Std.ExtTreeMap.getElem?_insertIfNew, List.find?_cons]
    by_cases hn : entry.name = n
    · subst hn
      by_cases hknown : entry.name ∈ known
      · simp [hknown]
      · simp [hknown]
    · simp [hn]

/-- The first entry of a name is found by looking through the entries in order. -/
theorem getElem?_firstOfName (entries : List Status) (n : Key) :
    (firstOfName entries)[n]? = entries.find? fun entry => entry.name = n := by
  rw [firstOfName, getElem?_foldl_insertIfNew]
  simp

/-- The entries that pages show are those that come first under their names. -/
theorem mem_ofPages_iff {suffix : List Char} {under : Key} {recursive : Bool} {pages : List Page}
    {entry : Status} :
    entry ∈ ofPages suffix under recursive pages ↔
      (pages.flatMap (ofPage suffix under recursive)).find? (fun e => e.name = entry.name) =
        some entry := by
  rw [ofPages, List.mem_map]
  constructor
  · rintro ⟨⟨n, e⟩, hmem, rfl⟩
    rw [Std.ExtTreeMap.mem_toList_iff_getElem?_eq_some, getElem?_firstOfName] at hmem
    have hn : e.name = n := by simpa using List.find?_some hmem
    dsimp only
    rw [hn]
    exact hmem
  · intro h
    exact ⟨(entry.name, entry), Std.ExtTreeMap.mem_toList_iff_getElem?_eq_some.mpr
      ((getElem?_firstOfName _ _).trans h), rfl⟩

theorem ofPages_sorted (suffix : List Char) (under : Key) (recursive : Bool) (pages : List Page) :
    (ofPages suffix under recursive pages).Pairwise fun a b => a.name < b.name := by
  rw [ofPages, List.pairwise_map]
  refine (sorted_toList _).imp_of_mem ?_
  rintro ⟨n, a⟩ ⟨m, b⟩ ha hb h
  rw [Std.ExtTreeMap.mem_toList_iff_getElem?_eq_some, getElem?_firstOfName] at ha hb
  have hn : a.name = n := by simpa using List.find?_some ha
  have hm : b.name = m := by simpa using List.find?_some hb
  dsimp only
  rw [hn, hm]
  exact h

/-! ### Entries and items -/

/-- The entries that an item shows. -/
def ofItem (suffix : List Char) (under : Key) (recursive : Bool) : Item → List Status
  | .object key o => ofSummary suffix under recursive ⟨key, o.body.length, some o.modified⟩
  | .group name => ofGroup under recursive name

variable {suffix : List Char} {under : Key} {recursive : Bool}

theorem ofPage_pageOfItems (shown remaining : List Item) :
    ofPage suffix under recursive (pageOfItems shown remaining) =
      (shown.filterMap Item.summary?).flatMap (ofSummary suffix under recursive) ++
        (shown.filterMap Item.group?).flatMap (ofGroup under recursive) := rfl

theorem mem_ofPage_iff {shown remaining : List Item} {entry : Status} :
    entry ∈ ofPage suffix under recursive (pageOfItems shown remaining) ↔
      ∃ item ∈ shown, entry ∈ ofItem suffix under recursive item := by
  rw [ofPage_pageOfItems, List.mem_append, List.mem_flatMap, List.mem_flatMap]
  constructor
  · rintro (⟨summary, hsummary, hentry⟩ | ⟨group, hgroup, hentry⟩)
    · obtain ⟨item, hitem, heq⟩ := List.mem_filterMap.mp hsummary
      cases item with
      | object key o =>
        obtain rfl := Option.some.inj heq
        exact ⟨_, hitem, hentry⟩
      | group name => simp [Item.summary?] at heq
    · obtain ⟨item, hitem, heq⟩ := List.mem_filterMap.mp hgroup
      cases item with
      | object key o => simp [Item.group?] at heq
      | group name =>
        obtain rfl := Option.some.inj heq
        exact ⟨_, hitem, hentry⟩
  · rintro ⟨item, hitem, hentry⟩
    cases item with
    | object key o => exact Or.inl ⟨_, List.mem_filterMap.mpr ⟨_, hitem, rfl⟩, hentry⟩
    | group name => exact Or.inr ⟨_, List.mem_filterMap.mpr ⟨_, hitem, rfl⟩, hentry⟩

/-- The pages of a listing show the entries of all its items. -/
theorem mem_flatMap_ofPage_iff {size : Nat} (hsize : 0 < size) {entry : Status}
    (items : List Item) :
    entry ∈ (pages size items).flatMap (ofPage suffix under recursive) ↔
      ∃ item ∈ items, entry ∈ ofItem suffix under recursive item := by
  by_cases hlast : items.drop size = []
  · rw [pages_of_drop_eq_nil hlast, List.flatMap_cons, List.flatMap_nil, List.append_nil,
      mem_ofPage_iff, List.take_of_length_le (List.drop_eq_nil_iff.mp hlast)]
  · have hshorter : size < items.length := by simpa using hlast
    have ih := @mem_flatMap_ofPage_iff size hsize entry (items.drop size)
    rw [pages_of_drop_ne_nil hsize hlast, List.flatMap_cons, List.mem_append, mem_ofPage_iff, ih]
    conv_rhs => rw [← List.take_append_drop size items]
    simp only [List.mem_append, or_and_right, exists_or]
termination_by items.length

/-! ### One level -/

/-- How a listed key ends is decided behind the listed text. -/
theorem suffix_childPrefix_append_iff {suffix : Key} (hseparator : separator ∉ suffix)
    (key rest : Key) : suffix <:+ childPrefix key ++ rest ↔ suffix <:+ rest := by
  by_cases hkey : key = []
  · simp [hkey]
  · rw [childPrefix_of_ne_nil hkey, List.append_assoc, List.singleton_append]
    constructor
    · exact suffix_of_suffix_append_separator hseparator
    · exact fun h => h.trans ⟨key ++ [separator], by simp⟩

variable {key : Key} (hs : suffix ≠ []) (hseparator : separator ∉ suffix)

include hseparator in
/-- A marker shows the directory that it flags. -/
theorem ofItem_marker {name : Key} (hname : separator ∉ name) (object : Object) :
    ofItem suffix (childPrefix key) false (.object (childPrefix key ++ (name ++ suffix)) object) =
      if name = [] then [] else [directory name] := by
  have hrest : separator ∉ name ++ suffix := by simp [hname, hseparator]
  have hchild : childName (childPrefix key ++ (name ++ suffix)) (childPrefix key) =
      name ++ suffix := childName_append hrest _
  have hcut : trimEnd ((name ++ suffix).take ((name ++ suffix).length - suffix.length)) = name := by
    rw [List.length_append, Nat.add_sub_cancel, List.take_left, trimEnd_of_notMem hname]
  have hends : suffix <:+ childPrefix key ++ (name ++ suffix) := by
    rw [suffix_childPrefix_append_iff hseparator]
    exact List.suffix_append name suffix
  simp only [ofItem, ofSummary, hchild, hcut, hends, if_true, directoriesOf, Bool.false_eq_true,
    if_false]

include hseparator in
/-- An object whose key does not end the way markers do is a file. -/
theorem ofItem_file {name : Key} (hname : IsName name) (hsuffix : ¬ suffix <:+ name)
    (object : Object) :
    ofItem suffix (childPrefix key) false (.object (childPrefix key ++ name) object) =
      [{ name, isDirectory := false, length := object.body.length,
         modified := some object.modified }] := by
  have hchild : childName (childPrefix key ++ name) (childPrefix key) = name :=
    childName_append hname.separator_notMem _
  have hends : ¬ suffix <:+ childPrefix key ++ name := by
    rwa [suffix_childPrefix_append_iff hseparator]
  have hslash : ¬ [separator] <:+ childPrefix key ++ name := by
    rintro ⟨front, hfront⟩
    obtain ⟨init, last, rfl⟩ := List.eq_nil_or_concat name |>.resolve_left hname.ne_nil
    have hlast : separator = last := by
      have := congrArg List.getLast? hfront
      simpa [← List.append_assoc] using this
    exact hname.separator_notMem (by simp [hlast])
  simp only [ofItem, ofSummary, hchild, hends, hslash, hname.ne_nil, if_false, Bool.false_eq_true,
    false_and, List.nil_append, file]

include hs hseparator in
/-- The key of the listed text itself shows nothing. -/
theorem ofItem_self (object : Object) :
    ofItem suffix (childPrefix key) false (.object (childPrefix key) object) = [] := by
  have hchild : childName (childPrefix key) (childPrefix key) = [] := by
    simp [childName, trim, trimStart, trimEnd]
  have hends : ¬ suffix <:+ childPrefix key := by
    have h := suffix_childPrefix_append_iff hseparator key []
    rw [List.append_nil] at h
    rw [h, List.suffix_nil]
    exact hs
  simp [ofItem, ofSummary, hchild, hends]

/-- A group shows the directory that its keys lie in. -/
theorem ofItem_group {name : Key} (hname : separator ∉ name) :
    ofItem suffix (childPrefix key) false (.group (childPrefix key ++ (name ++ [separator]))) =
      if name = [] then [] else [directory name] := by
  have hchild : childName (childPrefix key ++ (name ++ [separator])) (childPrefix key) = name := by
    rw [childName, List.drop_left, trim_append_separator hname]
  simp only [ofItem, ofGroup, hchild, directoriesOf, Bool.false_eq_true, if_false]

variable {objects : Objects}

include hs hseparator in
/-- What an item of a listing of one level shows: a file, a directory by its marker or by the keys
in it, or nothing. -/
theorem ofItem_cases {item : Item}
    (hitem : item ∈ items objects (childPrefix key) (delimiterOf false)) :
    (∃ name object, IsName name ∧ ¬ suffix <:+ name ∧
        objects[childPrefix key ++ name]? = some object ∧ item.name = childPrefix key ++ name ∧
        ofItem suffix (childPrefix key) false item =
          [{ name, isDirectory := false, length := object.body.length,
             modified := some object.modified }]) ∨
      (∃ name tail, IsName name ∧ tail ≠ [] ∧
        (childPrefix key ++ (name ++ suffix) ∈ objects ∨
          ∃ k ∈ objects, childPrefix key ++ (name ++ [separator]) <+: k) ∧
        item.name = childPrefix key ++ (name ++ tail) ∧
        ofItem suffix (childPrefix key) false item = [directory name]) ∨
      ofItem suffix (childPrefix key) false item = [] := by
  obtain ⟨k, o, hk, ⟨rest, rfl⟩, rfl⟩ := mem_items_iff.mp hitem
  rcases separator_cases rest with hrest | ⟨name, rest, hname, rfl⟩
  · rw [itemOf_leaf _ hrest]
    by_cases hsuffix : suffix <:+ rest
    · obtain ⟨name, rfl⟩ := hsuffix
      have hname : separator ∉ name := fun h => hrest (List.mem_append_left _ h)
      rw [ofItem_marker hseparator hname]
      by_cases hnil : name = []
      · exact Or.inr (Or.inr (if_pos hnil))
      · exact Or.inr (Or.inl ⟨name, suffix, ⟨hnil, hname⟩, hs, Or.inl (Objects.mem_of_getElem? hk),
          rfl, if_neg hnil⟩)
    · by_cases hnil : rest = []
      · subst hnil
        rw [List.append_nil, ofItem_self hs hseparator]
        exact Or.inr (Or.inr rfl)
      · exact Or.inl ⟨rest, o, ⟨hnil, hrest⟩, hsuffix, hk, rfl,
          ofItem_file hseparator ⟨hnil, hrest⟩ hsuffix o⟩
  · rw [itemOf_group _ hname, ofItem_group hname]
    by_cases hnil : name = []
    · exact Or.inr (Or.inr (if_pos hnil))
    · exact Or.inr (Or.inl ⟨name, [separator], ⟨hnil, hname⟩, by simp,
        Or.inr ⟨_, Objects.mem_of_getElem? hk, rest, by simp⟩, rfl, if_neg hnil⟩)

include hs hseparator in
/-- What the items of a listing of one level show together. -/
theorem exists_mem_ofItem_iff {entry : Status} :
    (∃ item ∈ items objects (childPrefix key) (delimiterOf false),
        entry ∈ ofItem suffix (childPrefix key) false item) ↔
      (∃ name object, IsName name ∧ ¬ suffix <:+ name ∧
        objects[childPrefix key ++ name]? = some object ∧
        entry = { name, isDirectory := false, length := object.body.length,
                  modified := some object.modified }) ∨
      (∃ name, IsName name ∧
        (childPrefix key ++ (name ++ suffix) ∈ objects ∨
          ∃ k ∈ objects, childPrefix key ++ (name ++ [separator]) <+: k) ∧
        entry = directory name) := by
  constructor
  · rintro ⟨item, hitem, hentry⟩
    rcases ofItem_cases hs hseparator hitem with ⟨name, o, hname, hsuffix, ho, -, heq⟩ |
      ⟨name, tail, hname, -, hshown, -, heq⟩ | heq
    · exact Or.inl ⟨name, o, hname, hsuffix, ho, by simpa [heq] using hentry⟩
    · exact Or.inr ⟨name, hname, hshown, by simpa [heq] using hentry⟩
    · simp [heq] at hentry
  · rintro (⟨name, o, hname, hsuffix, ho, rfl⟩ | ⟨name, hname, hmarker | ⟨k, hk, rest, rfl⟩, rfl⟩)
    · refine ⟨_, mem_items_iff.mpr ⟨_, o, ho, List.prefix_append .., rfl⟩, ?_⟩
      rw [itemOf_leaf _ hname.separator_notMem, ofItem_file hseparator hname hsuffix]
      simp
    · obtain ⟨o, ho⟩ := Objects.exists_getElem?_of_mem hmarker
      refine ⟨_, mem_items_iff.mpr ⟨_, o, ho, List.prefix_append .., rfl⟩, ?_⟩
      rw [itemOf_leaf _ (by simp [hname.separator_notMem, hseparator]),
        ofItem_marker hseparator hname.separator_notMem, if_neg hname.ne_nil]
      simp
    · obtain ⟨o, ho⟩ := Objects.exists_getElem?_of_mem hk
      have hform : childPrefix key ++ (name ++ [separator]) ++ rest =
          childPrefix key ++ (name ++ separator :: rest) := by simp
      rw [hform] at ho
      refine ⟨_, mem_items_iff.mpr ⟨_, o, ho, List.prefix_append .., rfl⟩, ?_⟩
      rw [itemOf_group _ hname.separator_notMem, ofItem_group hname.separator_notMem,
        if_neg hname.ne_nil]
      simp

/-! ### The order of the entries -/

/-- A text comes before its continuations. -/
theorem lt_append_of_ne_nil (text : List Char) {tail : List Char} (h : tail ≠ []) :
    text < text ++ tail := by
  induction text with
  | nil =>
    obtain ⟨c, rest, rfl⟩ := List.exists_cons_of_ne_nil h
    exact List.nil_lt_cons c rest
  | cons c text ih => exact List.cons_lt_cons_self.mpr ih

/-- A directory does not stand before a file of its name. -/
def NotHiding (a b : Status) : Prop :=
  ¬ (a.isDirectory = true ∧ b.isDirectory = false ∧ a.name = b.name)

include hs hseparator in
/-- An item shows no directory that would hide a file of a later item. -/
theorem notHiding_of_lt {x y : Item} (hx : x ∈ items objects (childPrefix key) (delimiterOf false))
    (hy : y ∈ items objects (childPrefix key) (delimiterOf false)) (hlt : x.name < y.name)
    {a b : Status} (ha : a ∈ ofItem suffix (childPrefix key) false x)
    (hb : b ∈ ofItem suffix (childPrefix key) false y) : NotHiding a b := by
  rintro ⟨hdir, hfile, hname⟩
  rcases ofItem_cases hs hseparator hx with
    ⟨n, o, -, -, -, -, heq⟩ | ⟨n, tail, -, htail, -, hxn, heq⟩ | heq
  · simp_all
  · rcases ofItem_cases hs hseparator hy with
      ⟨m, o, -, -, -, hym, heq'⟩ | ⟨m, _, -, -, -, -, heq'⟩ | heq'
    · rw [heq, List.mem_singleton] at ha
      rw [heq', List.mem_singleton] at hb
      subst ha hb
      obtain rfl : n = m := hname
      rw [hxn, hym, ← List.append_assoc] at hlt
      exact List.lt_asymm hlt (lt_append_of_ne_nil _ htail)
    · rw [heq', List.mem_singleton] at hb
      simp [hb, directory] at hfile
    · simp [heq'] at hb
  · simp [heq] at ha

theorem isDirectory_of_mem_ofGroup {group : Key} {entry : Status}
    (h : entry ∈ ofGroup under false group) : entry.isDirectory = true := by
  rw [ofGroup] at h
  split at h
  · simp at h
  · simp only [directoriesOf, Bool.false_eq_true, if_false, List.mem_singleton] at h
    simp [h, directory]

/-- The objects of a page show entries in the order of the items. -/
private theorem pairwise_objects {R : Status → Status → Prop} : (shown : List Item) →
    (∀ item ∈ shown, (ofItem suffix under recursive item).Pairwise R) →
    (shown.Pairwise fun x y => ∀ a ∈ ofItem suffix under recursive x,
      ∀ b ∈ ofItem suffix under recursive y, R a b) →
    ((shown.filterMap Item.summary?).flatMap (ofSummary suffix under recursive)).Pairwise R
  | [], _, _ => List.Pairwise.nil
  | .group _ :: shown, heach, hcross =>
      pairwise_objects shown (fun item hitem => heach item (List.mem_cons_of_mem _ hitem))
        (List.pairwise_cons.mp hcross).2
  | .object key o :: shown, heach, hcross => by
      obtain ⟨hfirst, hrest⟩ := List.pairwise_cons.mp hcross
      have ih := pairwise_objects shown
        (fun item hitem => heach item (List.mem_cons_of_mem _ hitem)) hrest
      refine List.pairwise_append.mpr ⟨heach _ List.mem_cons_self, ih, fun a ha b hb => ?_⟩
      obtain ⟨summary, hsummary, hb⟩ := List.mem_flatMap.mp hb
      obtain ⟨item, hitem, heq⟩ := List.mem_filterMap.mp hsummary
      cases item with
      | object key' o' =>
        obtain rfl := Option.some.inj heq
        exact hfirst _ hitem a ha b hb
      | group name => simp [Item.summary?] at heq

include hs hseparator in
/-- In the pages of a listing no directory stands before a file of its name. -/
theorem pairwise_notHiding {size : Nat} (hsize : 0 < size) (block : List Item)
    (hblock : ∀ item ∈ block, item ∈ items objects (childPrefix key) (delimiterOf false))
    (hsorted : block.Pairwise fun a b => a.name < b.name) :
    ((pages size block).flatMap (ofPage suffix (childPrefix key) false)).Pairwise NotHiding := by
  have hgroups : ∀ a (groups : List Key), ∀ b ∈ groups.flatMap (ofGroup (childPrefix key) false),
      NotHiding a b := by
    rintro a groups b hb ⟨-, hfile, -⟩
    obtain ⟨group, -, hb⟩ := List.mem_flatMap.mp hb
    rw [isDirectory_of_mem_ofGroup hb] at hfile
    exact Bool.noConfusion hfile
  have hpage : ∀ (shown remaining : List Item), shown.Sublist block →
      (ofPage suffix (childPrefix key) false (pageOfItems shown remaining)).Pairwise NotHiding := by
    intro shown remaining hshown
    rw [ofPage_pageOfItems, List.pairwise_append]
    refine ⟨pairwise_objects shown (fun item hitem => ?_) ?_,
      List.pairwise_of_forall_mem_list fun a _ b hb => hgroups a _ b hb,
      fun a _ b hb => hgroups a _ b hb⟩
    · rcases ofItem_cases hs hseparator (hblock item (hshown.subset hitem)) with
        ⟨_, _, -, -, -, -, heq⟩ | ⟨_, _, -, -, -, -, heq⟩ | heq <;> simp [heq]
    · exact (hsorted.sublist hshown).imp_of_mem fun hx hy hlt a ha b hb =>
        notHiding_of_lt hs hseparator (hblock _ (hshown.subset hx)) (hblock _ (hshown.subset hy))
          hlt ha hb
  by_cases hlast : block.drop size = []
  · rw [pages_of_drop_eq_nil hlast, List.flatMap_cons, List.flatMap_nil, List.append_nil]
    exact hpage _ _ (List.take_sublist _ _)
  · have hshorter : size < block.length := by simpa using hlast
    have ih := pairwise_notHiding hsize (block.drop size)
      (fun item hitem => hblock item (List.drop_subset _ _ hitem))
      (hsorted.sublist (List.drop_sublist _ _))
    rw [pages_of_drop_ne_nil hsize hlast, List.flatMap_cons]
    refine List.pairwise_append.mpr ⟨hpage _ _ (List.take_sublist _ _), ih, fun a ha b hb => ?_⟩
    obtain ⟨x, hx, ha⟩ := mem_ofPage_iff.mp ha
    obtain ⟨y, hy, hb⟩ := (mem_flatMap_ofPage_iff hsize _).mp hb
    have hlt : x.name < y.name := by
      rw [← List.take_append_drop size block, List.pairwise_append] at hsorted
      exact hsorted.2.2 x hx y hy
    exact notHiding_of_lt hs hseparator (hblock x (List.take_subset _ _ hx))
      (hblock y (List.drop_subset _ _ hy)) hlt ha hb
termination_by block.length

/-- What a search finds first is what is searched for, or stands before it. -/
private theorem eq_or_rel_of_find? {R : Status → Status → Prop} {p : Status → Bool}
    {l : List Status} {e f : Status} (hl : l.Pairwise R) (he : l.find? p = some e) (hf : f ∈ l)
    (hp : p f = true) : e = f ∨ R e f := by
  obtain ⟨-, before, behind, rfl, hbefore⟩ := List.find?_eq_some_iff_append.mp he
  rcases List.mem_append.mp hf with hf | hf
  · simpa [hp] using hbefore f hf
  · rcases List.mem_cons.mp hf with rfl | hf
    · exact Or.inl rfl
    · exact Or.inr ((List.pairwise_cons.mp (List.pairwise_append.mp hl).2.1).1 f hf)

variable {entry : Status} {shown : List Status}
  (hshown : ∀ e, e ∈ shown ↔ ∃ item ∈ items objects (childPrefix key) (delimiterOf false),
    e ∈ ofItem suffix (childPrefix key) false item)
  (horder : shown.Pairwise NotHiding)

include hs hseparator hshown horder in
/-- The first entry of a name is one that the contents give the directory. -/
theorem reads_of_find? (hfind : shown.find? (fun e => e.name = entry.name) = some entry) :
    Reads suffix objects (childPrefix key) entry := by
  have hall := fun e => (hshown e).trans (exists_mem_ofItem_iff hs hseparator)
  rcases (hall entry).mp (List.mem_of_find?_eq_some hfind) with
    ⟨name, o, hname, hsuffix, ho, rfl⟩ | ⟨name, hname, hbelow, rfl⟩
  · exact .file hname hsuffix ho
  · refine .directory hname ?_ hbelow
    rintro ⟨hstored, hsuffix⟩
    obtain ⟨o, ho⟩ := Objects.exists_getElem?_of_mem hstored
    have hfile := (hall _).mpr (Or.inl ⟨name, o, hname, hsuffix, ho, rfl⟩)
    rcases eq_or_rel_of_find? horder hfind hfile (by simp [directory]) with heq | hrel
    · simp [directory] at heq
    · exact hrel ⟨rfl, rfl, rfl⟩

include hs hseparator hshown horder in
/-- An entry that the contents give the directory is the first of its name. -/
theorem find?_of_reads (hreads : Reads suffix objects (childPrefix key) entry) :
    shown.find? (fun e => e.name = entry.name) = some entry := by
  have hall := fun e => (hshown e).trans (exists_mem_ofItem_iff hs hseparator)
  have hmem : entry ∈ shown := by
    refine (hall entry).mpr ?_
    cases hreads with
    | file hname hsuffix ho => exact Or.inl ⟨_, _, hname, hsuffix, ho, rfl⟩
    | directory hname _ hbelow => exact Or.inr ⟨_, hname, hbelow, rfl⟩
  obtain ⟨e, he⟩ : ∃ e, shown.find? (fun e => e.name = entry.name) = some e :=
    Option.isSome_iff_exists.mp (List.find?_isSome.mpr ⟨entry, hmem, by simp⟩)
  have hname : e.name = entry.name := by simpa using List.find?_some he
  rcases eq_or_rel_of_find? horder he hmem (by simp) with rfl | hrel
  · exact he
  · rcases (hall e).mp (List.mem_of_find?_eq_some he) with
      ⟨n, o, -, hsuffix, ho, rfl⟩ | ⟨n, -, -, rfl⟩
    · cases hreads with
      | file _ _ ho' =>
        obtain rfl : n = _ := hname
        obtain rfl := Option.some.inj (ho.symm.trans ho')
        exact he
      | directory _ hfile _ =>
        obtain rfl : n = _ := hname
        exact absurd ⟨Objects.mem_of_getElem? ho, hsuffix⟩ hfile
    · cases hreads with
      | file => exact absurd ⟨rfl, rfl, hname⟩ hrel
      | directory =>
        obtain rfl : n = _ := hname
        exact he

omit hshown horder in
include hs hseparator in
/-- The pages of a listing of one level give exactly the entries of the directory, wherever they are
cut. -/
theorem isListing_ofPages {size : Nat} (hsize : 0 < size) :
    IsListing suffix objects (childPrefix key)
      (ofPages suffix (childPrefix key) false
        (pages size (items objects (childPrefix key) (delimiterOf false)))) := by
  refine ⟨ofPages_sorted .., fun entry => ?_⟩
  have hshown := fun e => @mem_flatMap_ofPage_iff suffix (childPrefix key) false size hsize e
    (items objects (childPrefix key) (delimiterOf false))
  have horder := pairwise_notHiding hs hseparator hsize _ (fun _ h => h)
    (items_sorted objects (childPrefix key) false)
  rw [mem_ofPages_iff]
  exact ⟨reads_of_find? hs hseparator hshown horder, find?_of_reads hs hseparator hshown horder⟩

end KeyTree.Status
