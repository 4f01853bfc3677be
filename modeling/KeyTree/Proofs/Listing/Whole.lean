import KeyTree.Proofs.Listing.Entries
import KeyTree.Proofs.Listing.Names

/-!
# Listings as a whole

What a listing shows is a function of the contents of the bucket: it does not matter how many names
a page holds. In a listing of one level the entries are determined by the contents; in a listing of
the subtree no page has groups, so the pages show their objects in the order of the keys. The
entries, up to their times, depend only on the objects below the listed directory, up to their
times.

## Main definitions

* `Status.entriesOf` — the entries that contents give a directory, or its subtree.
* `Object.seen`, `Status.seen` — objects and entries with their times viewed in some way.
* `Objects.Agree` — contents that hold objects of the same look under keys of some kind.

## Main results

* `Status.ofPages_pages` — pages of any size show the same entries.
* `Status.entriesOf_agree`, `Objects.Agree.keysUnder_eq` — entries and keys of contents that agree.
-/

namespace KeyTree

open Key Listing

/-- Lists in the order of some names are equal if they have the same members. -/
theorem Listing.eq_of_sorted {α : Type} (name : α → Key) {l l' : List α}
    (h : l.Pairwise fun a b => name a < name b) (h' : l'.Pairwise fun a b => name a < name b)
    (hmem : ∀ a, a ∈ l ↔ a ∈ l') : l = l' := by
  have : Std.Antisymm fun a b => name a < name b :=
    ⟨fun a b hab hba => absurd hba (List.lt_asymm hab)⟩
  have : Std.Irrefl fun a b => name a < name b := ⟨fun a => List.lt_irrefl (name a)⟩
  exact h.eq_of_mem_iff h' hmem

namespace Status

/-! ### Page sizes -/

variable {suffix : List Char} {under key : Key} {recursive : Bool}

/-- The entries that contents give a directory, or its subtree. -/
def entriesOf (suffix : List Char) (objects : Objects) (key : Key) (recursive : Bool) :
    List Status :=
  ofPages suffix (childPrefix key) recursive
    [pageOfItems (items objects (childPrefix key) (delimiterOf recursive)) []]

/-- The entries depend only on the entries that the pages show one after another. -/
theorem ofPages_congr {pages pages' : List Page}
    (h : pages.flatMap (ofPage suffix under recursive) =
      pages'.flatMap (ofPage suffix under recursive)) :
    ofPages suffix under recursive pages = ofPages suffix under recursive pages' := by
  rw [ofPages, h, ofPages]

/-- The items of a listing of the subtree are objects. -/
def Item.IsObject (item : Item) : Prop :=
  ∃ key object, item = .object key object

theorem isObject_of_mem_items {objects : Objects} {item : Item}
    (h : item ∈ items objects under (delimiterOf true)) : Item.IsObject item := by
  obtain ⟨k, o, -, -, rfl⟩ := mem_items_iff.mp h
  exact ⟨k, o, rfl⟩

/-- A page of objects shows their entries in order. -/
theorem ofPage_of_isObject {shown remaining : List Item}
    (h : ∀ item ∈ shown, Item.IsObject item) :
    ofPage suffix under recursive (pageOfItems shown remaining) =
      shown.flatMap (ofItem suffix under recursive) := by
  rw [ofPage_pageOfItems]
  induction shown with
  | nil => rfl
  | cons item shown ih =>
    obtain ⟨k, o, rfl⟩ := h item List.mem_cons_self
    have hrest := ih fun item hitem => h item (List.mem_cons_of_mem _ hitem)
    simp only [List.filterMap_cons, Item.summary?, Item.group?, List.flatMap_cons,
      List.append_assoc, hrest, ofItem]

/-- Pages of objects show their entries in order, wherever they are cut. -/
theorem flatMap_ofPage_of_isObject {size : Nat} (hsize : 0 < size) (block : List Item)
    (h : ∀ item ∈ block, Item.IsObject item) :
    (pages size block).flatMap (ofPage suffix under recursive) =
      block.flatMap (ofItem suffix under recursive) := by
  have hshown : ∀ item ∈ block.take size, Item.IsObject item :=
    fun item hitem => h item (List.take_subset _ _ hitem)
  by_cases hlast : block.drop size = []
  · rw [pages_of_drop_eq_nil hlast, List.flatMap_cons, List.flatMap_nil, List.append_nil,
      ofPage_of_isObject hshown, List.take_of_length_le (List.drop_eq_nil_iff.mp hlast)]
  · have hshorter : size < block.length := by simpa using hlast
    have ih := flatMap_ofPage_of_isObject hsize (block.drop size)
      fun item hitem => h item (List.drop_subset _ _ hitem)
    rw [pages_of_drop_ne_nil hsize hlast, List.flatMap_cons, ofPage_of_isObject hshown, ih,
      ← List.flatMap_append, List.take_append_drop]
termination_by block.length

variable (hs : suffix ≠ []) (hseparator : separator ∉ suffix) {objects objects' : Objects}

include hs hseparator in
/-- The entries of a listing of one level are those of the directory. -/
theorem isListing_entriesOf :
    IsListing suffix objects (childPrefix key) (entriesOf suffix objects key false) := by
  have hone : pages ((items objects (childPrefix key) (delimiterOf false)).length + 1)
      (items objects (childPrefix key) (delimiterOf false)) =
        [pageOfItems (items objects (childPrefix key) (delimiterOf false)) []] := by
    rw [pages_of_drop_eq_nil (by simp), List.take_of_length_le (by omega),
      List.drop_eq_nil_iff.mpr (by omega)]
  rw [entriesOf, ← hone]
  exact isListing_ofPages hs hseparator (Nat.succ_pos _)

/-- A directory has one listing. -/
theorem IsListing.unique {entries entries' : List Status}
    (h : IsListing suffix objects under entries) (h' : IsListing suffix objects under entries') :
    entries = entries' :=
  eq_of_sorted Status.name h.sorted h'.sorted fun entry =>
    (h.mem_iff entry).trans (h'.mem_iff entry).symm

include hs hseparator in
/-- Pages of any size show the same entries. -/
theorem ofPages_pages {size : Nat} (hsize : 0 < size) :
    ofPages suffix (childPrefix key) recursive
      (pages size (items objects (childPrefix key) (delimiterOf recursive))) =
        entriesOf suffix objects key recursive := by
  cases recursive with
  | false =>
    exact (isListing_ofPages hs hseparator hsize).unique (isListing_entriesOf hs hseparator)
  | true =>
    have hobjects := fun item (h : item ∈ items objects (childPrefix key) (delimiterOf true)) =>
      isObject_of_mem_items h
    refine ofPages_congr ?_
    rw [flatMap_ofPage_of_isObject hsize _ hobjects, List.flatMap_cons, List.flatMap_nil,
      List.append_nil, ofPage_of_isObject hobjects]

/-- The entries of a listing of the subtree are read off its items in order. -/
theorem entriesOf_recursive :
    entriesOf suffix objects key true =
      (firstOfName ((items objects (childPrefix key) (delimiterOf true)).flatMap
        (ofItem suffix (childPrefix key) true))).toList.map Prod.snd := by
  rw [entriesOf, ofPages, List.flatMap_cons, List.flatMap_nil, List.append_nil,
    ofPage_of_isObject fun item h => isObject_of_mem_items h]

end Status

/-! ### Contents of the same look -/

/-- An object with its time viewed in some way. -/
def Object.seen (view : Instant → Instant) (object : Object) : Object :=
  { object with modified := view object.modified }

theorem Object.body_eq_of_seen {view : Instant → Instant} {o o' : Object}
    (h : o.seen view = o'.seen view) : o.body = o'.body :=
  (Object.mk.inj h).1

theorem Object.seen_injective {view : Instant → Instant} (hview : Function.Injective view) :
    Function.Injective (Object.seen view) := by
  rintro ⟨body, modified⟩ ⟨body', modified'⟩ h
  simp only [Object.seen, Object.mk.injEq] at h
  rw [h.1, hview h.2]

/-- An entry with its time viewed in some way. -/
def Status.seen (view : Instant → Instant) (entry : Status) : Status :=
  { entry with modified := entry.modified.map view }

@[simp] theorem Status.seen_id : Status.seen id = id := by
  funext entry
  simp [Status.seen]

/-- Contents *agree* on keys of some kind when they hold objects of the same look there. -/
def Objects.Agree (view : Instant → Instant) (kind : Key → Prop) (objects objects' : Objects) :
    Prop :=
  ∀ k, kind k → objects[k]?.map (Object.seen view) = objects'[k]?.map (Object.seen view)

variable {view : Instant → Instant} {kind kind' : Key → Prop} {objects objects' : Objects}
  {suffix : List Char} {under key : Key} {recursive : Bool}

namespace Objects

theorem Agree.symm (h : Agree view kind objects objects') : Agree view kind objects' objects :=
  fun k hk => (h k hk).symm

theorem Agree.anti (h : Agree view kind objects objects') (hsub : ∀ k, kind' k → kind k) :
    Agree view kind' objects objects' :=
  fun k hk => h k (hsub k hk)

theorem Agree.mem_iff (h : Agree view kind objects objects') {k : Key} (hk : kind k) :
    k ∈ objects ↔ k ∈ objects' := by
  have := congrArg Option.isSome (h k hk)
  rw [Option.isSome_map, Option.isSome_map] at this
  rw [Std.ExtTreeMap.mem_iff_isSome_getElem?, Std.ExtTreeMap.mem_iff_isSome_getElem?, this]

theorem Agree.body?_eq (h : Agree view kind objects objects') {k : Key} (hk : kind k) :
    objects.body? k = objects'.body? k := by
  have := congrArg (Option.map Object.body) (h k hk)
  rwa [Option.map_map, Option.map_map] at this

/-- The object on the other side of an agreement. -/
theorem Agree.exists_getElem? (h : Agree view kind objects objects') {k : Key} (hk : kind k)
    {o : Object} (ho : objects[k]? = some o) :
    ∃ o', objects'[k]? = some o' ∧ o.seen view = o'.seen view := by
  have := h k hk
  rw [ho, Option.map_some] at this
  obtain ⟨o', ho', heq⟩ := Option.map_eq_some_iff.mp this.symm
  exact ⟨o', ho', heq.symm⟩

theorem Agree.hasBelow_iff (h : Agree view kind objects objects')
    (hkind : ∀ k, childPrefix key <+: k → kind k) :
    objects.HasBelow key ↔ objects'.HasBelow key := by
  constructor
  · rintro ⟨k, hk, hbelow⟩
    exact ⟨k, (h.mem_iff (hkind k hbelow)).mp hk, hbelow⟩
  · rintro ⟨k, hk, hbelow⟩
    exact ⟨k, (h.mem_iff (hkind k hbelow)).mpr hk, hbelow⟩

/-- The same keys lie under a text. -/
theorem Agree.keysUnder_eq (h : Agree view (under <+: ·) objects objects') :
    objects.keysUnder under = objects'.keysUnder under := by
  refine (objects.keysUnder_sorted under).eq_of_mem_iff (objects'.keysUnder_sorted under) ?_
  intro k
  rw [mem_keysUnder_iff, mem_keysUnder_iff]
  exact and_congr_left h.mem_iff

end Objects

/-! ### Listings of contents that agree -/

/-- An item with its time viewed in some way. -/
def Listing.Item.seen (view : Instant → Instant) : Item → Item
  | .object key o => .object key (o.seen view)
  | .group name => .group name

@[simp] theorem Listing.Item.name_seen (item : Item) : (item.seen view).name = item.name := by
  cases item <;> rfl

@[simp] theorem Status.name_seen (entry : Status) : (entry.seen view).name = entry.name := rfl

theorem Listing.seen_itemOf (under key : Key) (object : Object) :
    (itemOf under (delimiterOf recursive) key object).seen view =
      itemOf under (delimiterOf recursive) key (object.seen view) := by
  rw [itemOf, itemOf]
  split <;> rfl

/-- An item is shown up to its time exactly if some key is shown as it up to its time. -/
theorem Listing.mem_map_seen_items_iff {item : Item} :
    item ∈ (items objects under (delimiterOf recursive)).map (Item.seen view) ↔
      ∃ k o, under <+: k ∧ objects[k]?.map (Object.seen view) = some o ∧
        itemOf under (delimiterOf recursive) k o = item := by
  rw [List.mem_map]
  constructor
  · rintro ⟨_, hitem, rfl⟩
    obtain ⟨k, o, ho, hunder, rfl⟩ := mem_items_iff.mp hitem
    exact ⟨k, o.seen view, hunder, by rw [ho, Option.map_some], (seen_itemOf under k o).symm⟩
  · rintro ⟨k, _, hunder, hk, rfl⟩
    obtain ⟨o, ho, rfl⟩ := Option.map_eq_some_iff.mp hk
    exact ⟨_, mem_items_iff.mpr ⟨k, o, ho, hunder, rfl⟩, seen_itemOf under k o⟩

/-- Contents that agree under a text have the same items there, up to their times. -/
theorem Objects.Agree.map_seen_items (h : Agree view (under <+: ·) objects objects') :
    (items objects under (delimiterOf recursive)).map (Item.seen view) =
      (items objects' under (delimiterOf recursive)).map (Item.seen view) := by
  have hsorted : ∀ objects : Objects,
      ((items objects under (delimiterOf recursive)).map (Item.seen view)).Pairwise
        fun a b => a.name < b.name := by
    intro objects
    rw [List.pairwise_map]
    simpa only [Item.name_seen] using items_sorted objects under recursive
  refine eq_of_sorted Item.name (hsorted objects) (hsorted objects') fun item => ?_
  rw [mem_map_seen_items_iff, mem_map_seen_items_iff]
  constructor
  · rintro ⟨k, o, hunder, ho, hitem⟩
    exact ⟨k, o, hunder, (h k hunder).symm.trans ho, hitem⟩
  · rintro ⟨k, o, hunder, ho, hitem⟩
    exact ⟨k, o, hunder, (h k hunder).trans ho, hitem⟩

namespace Status

theorem seen_directory (name : Key) : (directory name).seen view = directory name := rfl

theorem map_seen_directoriesOf (name : Key) :
    (directoriesOf recursive name).map (seen view) = directoriesOf recursive name := by
  rw [directoriesOf, List.map_cons, seen_directory]
  split
  · rw [List.map_map]
    rfl
  · rfl

theorem map_seen_ofItem (item : Item) :
    (ofItem suffix under recursive item).map (seen view) =
      ofItem suffix under recursive (item.seen view) := by
  cases item with
  | object key o =>
    simp only [ofItem, Item.seen, ofSummary]
    split
    · split
      · rfl
      · exact map_seen_directoriesOf _
    · split
      · rfl
      · split
        · exact map_seen_directoriesOf _
        · rw [List.map_append]
          split
          · rw [map_seen_directoriesOf]
            rfl
          · rfl
  | group name =>
    simp only [ofItem, Item.seen, ofGroup]
    split
    · rfl
    · exact map_seen_directoriesOf _

/-- The entries that a page shows, up to their times. -/
theorem map_seen_ofPage (shown : List Item) :
    (ofPage suffix under recursive (pageOfItems shown [])).map (seen view) =
      ofPage suffix under recursive (pageOfItems (shown.map (Item.seen view)) []) := by
  rw [ofPage_pageOfItems, ofPage_pageOfItems, List.map_append]
  congr 1
  · induction shown with
    | nil => rfl
    | cons item shown ih =>
      cases item with
      | group name => exact ih
      | object k o =>
        have hfirst := @map_seen_ofItem view suffix under recursive (.object k o)
        simp only [List.filterMap_cons, List.map_cons, Item.summary?, List.flatMap_cons,
          List.map_append, ih]
        exact congrArg (· ++ _) hfirst
  · induction shown with
    | nil => rfl
    | cons item shown ih =>
      cases item with
      | object k o => exact ih
      | group name =>
        have hfirst := @map_seen_ofItem view suffix under recursive (.group name)
        simp only [List.filterMap_cons, List.map_cons, Item.group?, List.flatMap_cons,
          List.map_append, ih]
        exact congrArg (· ++ _) hfirst

/-- An entry comes first of its name up to its time exactly if it does so among the entries up to
their times. -/
theorem mem_map_seen_ofPages_iff {pages : List Page} {entry : Status} :
    entry ∈ (ofPages suffix under recursive pages).map (seen view) ↔
      ((pages.flatMap (ofPage suffix under recursive)).map (seen view)).find?
        (fun e => e.name = entry.name) = some entry := by
  rw [List.mem_map, List.find?_map]
  have hnames : (fun e : Status => decide (e.name = entry.name)) ∘ seen view =
      fun e => decide (e.name = entry.name) := rfl
  rw [hnames]
  constructor
  · rintro ⟨e, he, rfl⟩
    rw [name_seen, mem_ofPages_iff.mp he, Option.map_some]
  · intro h
    obtain ⟨e, he, rfl⟩ := Option.map_eq_some_iff.mp h
    exact ⟨e, mem_ofPages_iff.mpr he, rfl⟩

/-- Contents that agree below a directory give it the same entries, up to their times. -/
theorem entriesOf_agree (h : Objects.Agree view (childPrefix key <+: ·) objects objects') :
    (entriesOf suffix objects key recursive).map (seen view) =
      (entriesOf suffix objects' key recursive).map (seen view) := by
  have hsorted : ∀ objects : Objects,
      ((entriesOf suffix objects key recursive).map (seen view)).Pairwise
        fun a b => a.name < b.name := by
    intro objects
    rw [List.pairwise_map]
    exact ofPages_sorted ..
  refine eq_of_sorted Status.name (hsorted objects) (hsorted objects') fun entry => ?_
  simp only [entriesOf, mem_map_seen_ofPages_iff, List.flatMap_cons, List.flatMap_nil,
    List.append_nil, map_seen_ofPage, h.map_seen_items]

/-- The names of entries of a directory. -/
theorem isName_of_mem_entriesOf (hs : suffix ≠ []) (hseparator : separator ∉ suffix)
    {entry : Status} (h : entry ∈ entriesOf suffix objects key false) : IsName entry.name :=
  (((isListing_entriesOf hs hseparator).mem_iff entry).mp h).isName

end Status

end KeyTree
