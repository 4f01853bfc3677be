import KeyTree.Proofs.Key.Normal
import KeyTree.Store.Listing

/-!
# The names of a listing

A listing of all keys under a text shows each key as itself. A listing of one level shows a key as
itself when no separator follows the text, and else as the group of keys up to that separator. The
names are shown once each, in ascending order.

## Main definitions

* `Listing.delimiterOf` — the delimiter of a listing of the subtree or of one level.
* `Listing.items` — what a listing shows, in order.

## Main results

* `Listing.items_sorted` — the names ascend.
* `Listing.mem_items_iff` — an item is shown exactly when some key is shown as it.
-/

namespace KeyTree.Listing

/-- The delimiter of a listing of the whole subtree, or of one level. -/
def delimiterOf (recursive : Bool) : Option (List Char) :=
  if recursive then none else some [separator]

/-- What a listing shows, in the order of the names. -/
def items (objects : Objects) (under : Key) (delimiter : Option (List Char)) : List Item :=
  (itemsUnder objects under delimiter).toList.map Prod.snd

/-- The pairs of a map are in the order of the keys. -/
theorem sorted_toList {α : Type} (m : Std.ExtTreeMap Key α) :
    m.toList.Pairwise fun a b => a.1 < b.1 :=
  m.ordered_keys_toList.imp fun h => Key.compare_eq_lt.mp h

/-! ### What a key is shown as -/

theorem throughDelimiter?_of_notMem {text : List Char} (h : separator ∉ text) :
    throughDelimiter? [separator] text = none := by
  induction text with
  | nil => rfl
  | cons c rest ih =>
    obtain ⟨hc, hrest⟩ : c ≠ separator ∧ separator ∉ rest := by simpa [eq_comm] using h
    rw [throughDelimiter?, ih hrest]
    simp [Ne.symm hc]

theorem throughDelimiter?_append {text : List Char} (h : separator ∉ text) (rest : List Char) :
    throughDelimiter? [separator] (text ++ separator :: rest) = some (text ++ [separator]) := by
  induction text with
  | nil => simp [throughDelimiter?]
  | cons c text ih =>
    obtain ⟨hc, htext⟩ : c ≠ separator ∧ separator ∉ text := by simpa [eq_comm] using h
    rw [List.cons_append, throughDelimiter?, ih htext]
    simp [Ne.symm hc]

/-- A key with a further separator is shown as a group. -/
theorem itemOf_group (under : Key) {name : Key} (hname : separator ∉ name) (rest : Key)
    (object : Object) :
    itemOf under (delimiterOf false) (under ++ (name ++ separator :: rest)) object =
      .group (under ++ (name ++ [separator])) := by
  simp [itemOf, delimiterOf, throughDelimiter?_append hname rest]

/-- A key without a further separator is shown as itself. -/
theorem itemOf_leaf (under : Key) {name : Key} (hname : separator ∉ name) (object : Object) :
    itemOf under (delimiterOf false) (under ++ name) object = .object (under ++ name) object := by
  simp [itemOf, delimiterOf, throughDelimiter?_of_notMem hname]

/-- A listing of the subtree shows every key as itself. -/
@[simp] theorem itemOf_recursive (under key : Key) (object : Object) :
    itemOf under (delimiterOf true) key object = .object key object := rfl

/-- A text has no separator, or is cut by its first one. -/
theorem separator_cases (text : List Char) :
    separator ∉ text ∨ ∃ name rest, separator ∉ name ∧ text = name ++ separator :: rest := by
  by_cases h : separator ∈ text
  · obtain ⟨name, rest, htext, hname⟩ := List.eq_append_cons_of_mem h
    exact Or.inr ⟨name, rest, hname, htext⟩
  · exact Or.inl h

/-- Keys that are shown under one name are shown as the same item. -/
theorem itemOf_eq_of_name_eq {objects : Objects} {under : Key} {recursive : Bool} {k k' : Key}
    {o o' : Object} (hk : objects[k]? = some o) (hk' : objects[k']? = some o') (hu : under <+: k)
    (hu' : under <+: k')
    (hname : (itemOf under (delimiterOf recursive) k o).name =
      (itemOf under (delimiterOf recursive) k' o').name) :
    itemOf under (delimiterOf recursive) k o = itemOf under (delimiterOf recursive) k' o' := by
  have hsame : k = k' → itemOf under (delimiterOf recursive) k o =
      itemOf under (delimiterOf recursive) k' o' := by
    rintro rfl
    rw [Option.some.inj (hk.symm.trans hk')]
  cases recursive with
  | true => exact hsame hname
  | false =>
    obtain ⟨text, rfl⟩ := hu
    obtain ⟨text', rfl⟩ := hu'
    rcases separator_cases text with h | ⟨name, rest, h, rfl⟩ <;>
      rcases separator_cases text' with h' | ⟨name', rest', h', rfl⟩
    · rw [itemOf_leaf under h, itemOf_leaf under h'] at hname
      exact hsame hname
    · rw [itemOf_leaf under h, itemOf_group under h'] at hname
      have htext : text = name' ++ [separator] := by simpa [Item.name] using hname
      simp [htext] at h
    · rw [itemOf_group under h, itemOf_leaf under h'] at hname
      have htext : name ++ [separator] = text' := by simpa [Item.name] using hname
      simp [← htext] at h'
    · rw [itemOf_group under h, itemOf_group under h'] at hname ⊢
      exact congrArg Item.group hname

/-! ### The items of a listing -/

/-- Filling a map by name: what is found was there before or has been filled in. -/
theorem getElem?_foldl_insert {α : Type} (f : α → Item) {n : Key} {item : Item} (l : List α)
    (acc : Std.ExtTreeMap Key Item)
    (h : (l.foldl (fun items e => items.insert (f e).name (f e)) acc)[n]? = some item) :
    acc[n]? = some item ∨ ∃ e ∈ l, f e = item ∧ item.name = n := by
  induction l generalizing acc with
  | nil => exact Or.inl h
  | cons e l ih =>
    rcases ih _ h with h | ⟨e', he', hitem⟩
    · rw [Std.ExtTreeMap.getElem?_insert] at h
      split at h
      · have hn : (f e).name = n := Std.LawfulEqCmp.eq_of_compare ‹_›
        have hitem : f e = item := Option.some.inj h
        exact Or.inr ⟨e, by simp, hitem, by rw [← hitem, hn]⟩
      · exact Or.inl h
    · exact Or.inr ⟨e', by simp [he'], hitem⟩

/-- Filling a map by name: every name is found. -/
theorem mem_foldl_insert {α : Type} (f : α → Item) {n : Key} (l : List α)
    (acc : Std.ExtTreeMap Key Item) (h : n ∈ acc ∨ ∃ e ∈ l, (f e).name = n) :
    n ∈ l.foldl (fun items e => items.insert (f e).name (f e)) acc := by
  induction l generalizing acc with
  | nil => simpa using h
  | cons e l ih =>
    refine ih _ ?_
    rcases h with h | ⟨e', he', hn⟩
    · exact Or.inl (by simp [Std.ExtTreeMap.mem_insert, h])
    · rcases List.mem_cons.mp he' with rfl | he'
      · exact Or.inl (by simp [Std.ExtTreeMap.mem_insert, hn])
      · exact Or.inr ⟨e', he', hn⟩

/-- Filling a map by name: it grows by at most one item for each element. -/
theorem size_foldl_insert_le {α : Type} (f : α → Item) (l : List α)
    (acc : Std.ExtTreeMap Key Item) :
    (l.foldl (fun items e => items.insert (f e).name (f e)) acc).size ≤ acc.size + l.length := by
  induction l generalizing acc with
  | nil => simp
  | cons e l ih =>
    have hinsert : (acc.insert (f e).name (f e)).size ≤ acc.size + 1 :=
      Std.ExtTreeMap.size_insert_le
    have hrest := ih (acc.insert (f e).name (f e))
    rw [List.foldl_cons, List.length_cons]
    omega

theorem getElem?_itemsUnder {objects : Objects} {under : Key} {recursive : Bool} {n : Key}
    {item : Item} :
    (itemsUnder objects under (delimiterOf recursive))[n]? = some item ↔
      item.name = n ∧ ∃ k o, objects[k]? = some o ∧ under <+: k ∧
        itemOf under (delimiterOf recursive) k o = item := by
  have hmem : ∀ {e : Key × Object}, e ∈ objects.toList.filter (fun entry => under <+: entry.1) ↔
      objects[e.1]? = some e.2 ∧ under <+: e.1 := by
    rintro ⟨k, o⟩
    rw [List.mem_filter, Std.ExtTreeMap.mem_toList_iff_getElem?_eq_some, decide_eq_true_iff]
  constructor
  · intro h
    rcases getElem?_foldl_insert
      (fun e : Key × Object => itemOf under (delimiterOf recursive) e.1 e.2) _ _ h
      with h | ⟨e, he, hitem, hn⟩
    · simp at h
    · exact ⟨hn, e.1, e.2, (hmem.mp he).1, (hmem.mp he).2, hitem⟩
  · rintro ⟨rfl, k, o, hk, hu, rfl⟩
    have hin := mem_foldl_insert
      (fun e : Key × Object => itemOf under (delimiterOf recursive) e.1 e.2)
      (objects.toList.filter fun entry => under <+: entry.1) ∅
      (Or.inr ⟨(k, o), hmem.mpr ⟨hk, hu⟩, rfl⟩)
    rw [Std.ExtTreeMap.mem_iff_isSome_getElem?, Option.isSome_iff_exists] at hin
    obtain ⟨item', hitem'⟩ := hin
    rcases getElem?_foldl_insert
      (fun e : Key × Object => itemOf under (delimiterOf recursive) e.1 e.2) _ _ hitem'
      with h | ⟨e, he, rfl, hn⟩
    · simp at h
    · have heq := itemOf_eq_of_name_eq (hmem.mp he).1 hk (hmem.mp he).2 hu hn
      rw [heq] at hitem'
      exact hitem'

/-- An item is shown exactly when some key is shown as it. -/
theorem mem_items_iff {objects : Objects} {under : Key} {recursive : Bool} {item : Item} :
    item ∈ items objects under (delimiterOf recursive) ↔
      ∃ k o, objects[k]? = some o ∧ under <+: k ∧
        itemOf under (delimiterOf recursive) k o = item := by
  rw [items, List.mem_map]
  constructor
  · rintro ⟨⟨n, item'⟩, hin, rfl⟩
    exact (getElem?_itemsUnder.mp (Std.ExtTreeMap.mem_toList_iff_getElem?_eq_some.mp hin)).2
  · intro h
    exact ⟨(item.name, item), Std.ExtTreeMap.mem_toList_iff_getElem?_eq_some.mpr
      (getElem?_itemsUnder.mpr ⟨rfl, h⟩), rfl⟩

/-- The names of the items ascend. -/
theorem items_sorted (objects : Objects) (under : Key) (recursive : Bool) :
    (items objects under (delimiterOf recursive)).Pairwise fun a b => a.name < b.name := by
  rw [items, List.pairwise_map]
  refine (sorted_toList _).imp_of_mem ?_
  rintro ⟨n, a⟩ ⟨m, b⟩ ha hb h
  rw [Std.ExtTreeMap.mem_toList_iff_getElem?_eq_some, getElem?_itemsUnder] at ha hb
  rw [ha.1, hb.1]
  exact h

/-- There are no more items than objects. -/
theorem length_items_le (objects : Objects) (under : Key) (delimiter : Option (List Char)) :
    (items objects under delimiter).length ≤ objects.size := by
  rw [items, List.length_map, Std.ExtTreeMap.length_toList]
  refine (size_foldl_insert_le (fun e : Key × Object => itemOf under delimiter e.1 e.2) _ _).trans ?_
  rw [Std.ExtTreeMap.size_empty, Nat.zero_add, ← Std.ExtTreeMap.length_toList]
  exact List.length_filter_le _ _

end KeyTree.Listing
