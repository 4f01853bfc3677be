import KeyTree.Proofs.Contents
import KeyTree.Proofs.Listing.Pages
import Mathlib.Data.List.Sort

/-!
# The names on the pages of a listing

A listing shows names: keys, and in a listing of one level the groups of the keys that hold a
further separator. This file says which names there are without the map that the store fills, and
puts the names of a page, which come in two lists, into one order again.

## Main definitions

* `Listing.Shows` — which names a listing shows.
* `Listing.names` — the names of a listing, in order.
* `Objects.keysUnder` — the keys under a text, in order.
* `Page.names` — the names on a page, in order.

## Main results

* `Listing.names_sorted`, `Listing.mem_names_iff` — the names ascend, and they are those shown.
* `Listing.names_recursive` — a listing of the subtree shows the keys.
* `Listing.names_pageOfItems` — the names on a page are those of the items that it shows.
-/

namespace KeyTree

open Key

/-- The keys under a text, in order. -/
def Objects.keysUnder (objects : Objects) (under : Key) : List Key :=
  objects.keys.filter (under <+: ·)

theorem Objects.mem_keysUnder_iff {objects : Objects} {under k : Key} :
    k ∈ objects.keysUnder under ↔ k ∈ objects ∧ under <+: k := by
  rw [keysUnder, List.mem_filter, Std.ExtTreeMap.mem_keys, decide_eq_true_iff]

theorem Objects.keysUnder_sorted (objects : Objects) (under : Key) :
    (objects.keysUnder under).Pairwise (· < ·) :=
  (Std.ExtTreeMap.ordered_keys.imp fun h => Key.compare_eq_lt.mp h).filter _

namespace Listing

/-! ### The names of a listing -/

/-- Which names a listing of the subtree under a text, or of one level of it, shows. -/
inductive Shows (objects : Objects) (under : Key) : Bool → Key → Prop
  /-- A stored key, in a listing of one level only if it holds no further separator. -/
  | key {recursive : Bool} {rest : Key} (hstored : under ++ rest ∈ objects)
      (hleaf : recursive = false → separator ∉ rest) : Shows objects under recursive (under ++ rest)
  /-- The part that some stored keys have in common up to their next separator. -/
  | group {name rest : Key} (hname : separator ∉ name)
      (hstored : under ++ (name ++ separator :: rest) ∈ objects) :
      Shows objects under false (under ++ (name ++ [separator]))

/-- The names of a listing, in order. -/
def names (objects : Objects) (under : Key) (recursive : Bool) : List Key :=
  (items objects under (delimiterOf recursive)).map Item.name

variable {objects : Objects} {under : Key} {recursive : Bool} {name : Key}

theorem names_sorted (objects : Objects) (under : Key) (recursive : Bool) :
    (names objects under recursive).Pairwise (· < ·) :=
  List.pairwise_map.mpr (items_sorted objects under recursive)

theorem mem_names_iff :
    name ∈ names objects under recursive ↔ Shows objects under recursive name := by
  rw [names, List.mem_map]
  constructor
  · rintro ⟨item, hitem, rfl⟩
    obtain ⟨_, o, ho, ⟨rest, rfl⟩, rfl⟩ := mem_items_iff.mp hitem
    have hstored := Objects.mem_of_getElem? ho
    cases recursive with
    | true => exact .key hstored fun h => Bool.noConfusion h
    | false =>
      rcases separator_cases rest with hrest | ⟨name, rest, hname, rfl⟩
      · rw [itemOf_leaf under hrest]
        exact .key hstored fun _ => hrest
      · rw [itemOf_group under hname]
        exact .group hname hstored
  · intro h
    cases h with
    | @key _ rest hstored hleaf =>
      obtain ⟨o, ho⟩ := Objects.exists_getElem?_of_mem hstored
      refine ⟨_, mem_items_iff.mpr ⟨_, o, ho, List.prefix_append .., rfl⟩, ?_⟩
      cases recursive with
      | true => rfl
      | false =>
        rw [itemOf_leaf under (hleaf rfl)]
        rfl
    | group hname hstored =>
      obtain ⟨o, ho⟩ := Objects.exists_getElem?_of_mem hstored
      refine ⟨_, mem_items_iff.mpr ⟨_, o, ho, List.prefix_append .., rfl⟩, ?_⟩
      rw [itemOf_group under hname]
      rfl

/-- A listing of the subtree shows the keys. -/
theorem names_recursive (objects : Objects) (under : Key) :
    names objects under true = objects.keysUnder under := by
  refine (names_sorted objects under true).eq_of_mem_iff (objects.keysUnder_sorted under) ?_
  intro k
  rw [mem_names_iff, Objects.mem_keysUnder_iff]
  constructor
  · rintro ⟨hstored, -⟩
    exact ⟨hstored, List.prefix_append ..⟩
  · rintro ⟨hstored, rest, rfl⟩
    exact .key hstored fun h => Bool.noConfusion h

/-- All items of a listing of the subtree are objects. -/
theorem filterMap_summary?_recursive (objects : Objects) (under : Key) :
    ((items objects under (delimiterOf true)).filterMap Item.summary?).map Summary.key =
      objects.keysUnder under := by
  rw [← names_recursive, names, List.map_filterMap, ← List.filterMap_eq_map]
  refine List.filterMap_congr fun item hitem => ?_
  obtain ⟨k, o, -, -, rfl⟩ := mem_items_iff.mp hitem
  rfl

end Listing

/-! ### The names on a page -/

/-- The names on a page, objects and groups in one order. -/
def Page.names (page : Page) : List Key :=
  (page.objects.map Summary.key).merge page.groups fun a b => ¬ b < a

namespace Listing

/-- The names of the objects and those of the groups among items are the names of the items. -/
theorem perm_names (shown : List Item) :
    ((shown.filterMap Item.summary?).map Summary.key ++ shown.filterMap Item.group?).Perm
      (shown.map Item.name) := by
  induction shown with
  | nil => exact .refl _
  | cons item shown ih =>
    cases item with
    | object key o => exact ih.cons key
    | group name => exact List.perm_middle.trans (ih.cons name)

/-- The names of some of the items ascend as those of all. -/
theorem pairwise_filterMap_name {shown : List Item} {f : Item → Option Key}
    (hf : ∀ item, ∀ name ∈ f item, name = item.name)
    (hsorted : shown.Pairwise fun a b => a.name < b.name) :
    (shown.filterMap f).Pairwise fun a b => ¬ b < a := by
  rw [List.pairwise_filterMap]
  refine hsorted.imp fun {a b} h name hname other hother => ?_
  rw [hf a name hname, hf b other hother]
  exact List.lt_asymm h

/-- The names on a page are those of the items that it shows. -/
theorem names_pageOfItems {shown : List Item} (remaining : List Item)
    (hsorted : shown.Pairwise fun a b => a.name < b.name) :
    (pageOfItems shown remaining).names = shown.map Item.name := by
  have hobjects : ((shown.filterMap Item.summary?).map Summary.key).Pairwise fun a b => ¬ b < a := by
    rw [List.map_filterMap]
    refine pairwise_filterMap_name (fun item name hname => ?_) hsorted
    cases item <;> cases hname
    rfl
  have hgroups : (shown.filterMap Item.group?).Pairwise fun a b => ¬ b < a := by
    refine pairwise_filterMap_name (fun item name hname => ?_) hsorted
    cases item <;> cases hname
    rfl
  have htrans : ∀ a b c : Key, ¬ b < a → ¬ c < b → ¬ c < a := fun _ _ _ => List.le_trans
  have htotal : ∀ a b : Key, ¬ b < a ∨ ¬ a < b := List.le_total
  have hmerged := @List.pairwise_merge Key (fun a b => decide (¬ b < a))
    (by simpa only [decide_eq_true_iff] using htrans)
    (by simpa only [Bool.or_eq_true, decide_eq_true_iff] using htotal)
    _ _ (hobjects.imp decide_eq_true) (hgroups.imp decide_eq_true)
  exact List.Perm.eq_of_pairwise (fun _ _ _ _ => List.le_antisymm)
    (hmerged.imp of_decide_eq_true) (List.pairwise_map.mpr (hsorted.imp List.lt_asymm))
    ((List.merge_perm_append _).trans (perm_names shown))

end Listing

end KeyTree
