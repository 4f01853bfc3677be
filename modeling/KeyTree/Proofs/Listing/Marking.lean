import KeyTree.Proofs.Key.Ancestry
import KeyTree.Proofs.Listing.Whole

/-!
# Markers in listings

The marker of a directory that has keys below it adds nothing to a listing. In a listing of one
level it shows a directory that the keys below show too. In a listing of the subtree it shows the
directory and those above it, and so does every key below the directory. But the first entry of a
name counts, and the marker may come before these keys: then what comes between them begins with
the key of the directory, so the files among it have longer names than what the marker shows.

## Main definitions

* `Key.AtOrBelow` — a key and what lies below it.

## Main results

* `Status.directory_mem_ofItem`, `Status.eq_directory_of_mem_ofItem` — what keys below a directory
  show.
* `Status.reads_put_marker_iff`, `Status.find?_put_marker` — one level, and the subtree.
* `Status.entriesOf_put_marker` — listings of both kinds.
-/

namespace KeyTree

open Key Listing

/-! ### Names below a directory -/

namespace Key

variable {r d n : Key}

/-- A key is *at or below* another one. -/
def AtOrBelow (r d : Key) : Prop :=
  d = r ∨ r ++ [separator] <+: d

/-- What is above a key is above all keys below it. -/
theorem AtOrBelow.mem_ancestors (h : AtOrBelow r d) (hn : n ∈ ancestors r) : n ∈ ancestors d := by
  rcases h with rfl | h
  · exact hn
  · rw [mem_ancestors_iff] at hn ⊢
    exact hn.trans ((List.prefix_append ..).trans h)

theorem IsNormal.ne_separator_of_mem_head? (h : IsNormal r) : ∀ c ∈ r.head?, c ≠ separator := by
  rintro c hc rfl
  obtain ⟨rest, rfl⟩ := List.head?_eq_some_iff.mp hc
  exact h.2 [] (by simp) rfl

/-- The rest of a normal key below a directory is normal. -/
theorem IsNormal.of_childPrefix_append {key : Key} (h : IsNormal (childPrefix key ++ r)) :
    IsNormal r := by
  by_cases hkey : key = []
  · rwa [hkey] at h
  have hpieces : ∀ piece ∈ pieces r, piece ≠ [] := by
    intro piece hpiece
    refine h.2 piece ?_
    rw [childPrefix_of_ne_nil hkey, List.append_assoc, List.singleton_append,
      pieces_append_separator]
    exact List.mem_append_right _ hpiece
  refine ⟨?_, hpieces⟩
  rintro rfl
  exact hpieces [] (by simp [pieces]) rfl

/-- Trimming a text that begins with a normal key leaves its beginning alone. -/
theorem IsNormal.trim_append (h : IsNormal r) (t : Key) : trim (r ++ t) = Key.trimEnd (r ++ t) := by
  rw [trim, trimStart_eq_self]
  intro c hc
  obtain ⟨d, rest, rfl⟩ := List.exists_cons_of_ne_nil h.1
  exact h.ne_separator_of_mem_head? c hc

/-- An entry that begins with a normal key is named by what is left of it after trimming its end. -/
theorem IsNormal.childName_append (h : IsNormal r) (under t : Key) :
    childName (under ++ (r ++ t)) under = Key.trimEnd (r ++ t) := by
  rw [childName, List.drop_left, h.trim_append]

/-- What is left of a key below a directory after trimming is the directory or lies below it. -/
theorem IsNormal.atOrBelow_trimEnd (h : IsNormal r) (rest : Key) :
    AtOrBelow r (Key.trimEnd (r ++ separator :: rest)) := by
  by_cases hrest : ∃ c ∈ rest, c ≠ separator
  · refine Or.inr ⟨Key.trimEnd rest, ?_⟩
    rw [← trimEnd_append_of_exists _ hrest, List.append_assoc, List.singleton_append]
  · refine Or.inl ?_
    rw [trimEnd_append_separators, h.trimEnd]
    intro c hc
    rcases List.mem_cons.mp hc with rfl | hc
    · rfl
    · by_contra hne
      exact hrest ⟨c, hc, hne⟩

theorem atOrBelow_beforeLast (r rest : Key) :
    AtOrBelow r (beforeLast (r ++ separator :: rest)) := by
  by_cases hrest : separator ∈ rest
  · obtain ⟨init, last, rfl, hlast⟩ := exists_last_piece hrest
    refine Or.inr ⟨init, ?_⟩
    rw [← List.cons_append, ← List.append_assoc, beforeLast_child hlast, List.append_assoc,
      List.singleton_append]
  · exact Or.inl (beforeLast_child hrest)

/-- What comes between two texts with a common beginning continues that beginning. -/
theorem exists_tail_of_lt_of_lt {m x y k : List Char} (h : m ++ x < k) (h' : k < m ++ y) :
    ∃ t, t ≠ [] ∧ k = m ++ t := by
  induction m generalizing k with
  | nil => exact ⟨k, by rintro rfl; exact List.not_lt_nil _ h, rfl⟩
  | cons c m ih =>
    cases k with
    | nil => exact absurd h (List.not_lt_nil _)
    | cons d k =>
      rw [List.cons_append, List.cons_lt_cons_iff] at h h'
      rcases h with hlt | ⟨rfl, h⟩ <;> rcases h' with hlt' | ⟨heq, h'⟩
      · exact absurd hlt' (Char.lt_asymm hlt)
      · exact absurd hlt (heq ▸ Char.lt_irrefl _)
      · exact absurd hlt' (Char.lt_irrefl _)
      · obtain ⟨t, ht, rfl⟩ := ih h h'
        exact ⟨t, ht, rfl⟩

end Key

/-! ### What keys show in a listing of the subtree -/

namespace Status

variable {suffix key r n : Key} {entry : Status} {o : Object}

/-- In a listing of the subtree a directory's name shows the directory and those above it. -/
theorem mem_directoriesOf_iff :
    entry ∈ directoriesOf true r ↔
      entry = directory entry.name ∧ (entry.name = r ∨ entry.name ∈ ancestors r) := by
  rw [directoriesOf, if_pos rfl, List.mem_cons, List.mem_map]
  constructor
  · rintro (rfl | ⟨a, ha, rfl⟩)
    · exact ⟨rfl, Or.inl rfl⟩
    · exact ⟨rfl, Or.inr ha⟩
  · rintro ⟨hentry, hname | hname⟩
    · exact Or.inl (hname ▸ hentry)
    · exact Or.inr ⟨entry.name, hname, hentry.symm⟩

/-- A listing of the subtree shows a directory and those above it wherever it shows one at or below
it. -/
theorem directory_mem_directoriesOf {d : Key} (h : AtOrBelow r d) (hn : n = r ∨ n ∈ ancestors r) :
    directory n ∈ directoriesOf true d := by
  refine mem_directoriesOf_iff.mpr ⟨rfl, ?_⟩
  rcases hn with rfl | hn
  · exact h.imp Eq.symm mem_ancestors_iff.mpr
  · exact Or.inr (h.mem_ancestors hn)

variable (hs : suffix ≠ []) (hseparator : separator ∉ suffix) (hr : IsNormal r)

include hseparator in
theorem not_separator_suffix_append (hs : suffix ≠ []) (text : Key) :
    ¬ [separator] <:+ text ++ suffix := by
  intro h
  have hlast := List.suffix_of_suffix_length_le h (List.suffix_append text suffix)
    (List.length_pos_iff.mpr hs)
  exact hseparator (hlast.subset List.mem_cons_self)

include hs hseparator hr in
/-- A marker shows the directory that it flags and those above it. -/
theorem ofItem_marker_recursive :
    ofItem suffix (childPrefix key) true (.object (childPrefix key ++ (r ++ suffix)) o) =
      directoriesOf true r := by
  have hname : childName (childPrefix key ++ (r ++ suffix)) (childPrefix key) = r ++ suffix := by
    rw [hr.childName_append,
      trimEnd_of_not_suffix (not_separator_suffix_append hseparator hs r)]
  have hcut : trimEnd ((r ++ suffix).take ((r ++ suffix).length - suffix.length)) = r := by
    rw [List.length_append, Nat.add_sub_cancel, List.take_left, hr.trimEnd]
  have hends : suffix <:+ childPrefix key ++ (r ++ suffix) := by
    rw [suffix_childPrefix_append_iff hseparator]
    exact List.suffix_append ..
  simp only [ofItem, ofSummary, hname, hcut, hends, hr.1, if_true, if_false]

include hs hseparator hr in
/-- A key below a directory shows the directory and those above it. -/
theorem directory_mem_ofItem (rest : Key) (hn : n = r ∨ n ∈ ancestors r) :
    directory n ∈ ofItem suffix (childPrefix key) true
      (.object (childPrefix key ++ (r ++ separator :: rest)) o) := by
  have hname : childName (childPrefix key ++ (r ++ separator :: rest)) (childPrefix key) =
      trimEnd (r ++ separator :: rest) := hr.childName_append _ _
  have hbelow := hr.atOrBelow_trimEnd rest
  have hne : ∀ {d : Key}, AtOrBelow r d → d ≠ [] := by
    rintro d (rfl | h) rfl
    · exact hr.1 rfl
    · simp at h
  simp only [ofItem, ofSummary, hname]
  by_cases hends : suffix <:+ childPrefix key ++ (r ++ separator :: rest)
  · rw [if_pos hends]
    obtain ⟨front, rfl⟩ : suffix <:+ rest := by
      rw [suffix_childPrefix_append_iff hseparator] at hends
      exact suffix_of_suffix_append_separator hseparator hends
    have hcut : (trimEnd (r ++ separator :: (front ++ suffix))).take
        ((trimEnd (r ++ separator :: (front ++ suffix))).length - suffix.length) =
          r ++ separator :: front := by
      rw [← List.cons_append, ← List.append_assoc,
        trimEnd_of_not_suffix (not_separator_suffix_append hseparator hs _), List.length_append,
        Nat.add_sub_cancel, List.take_left]
    rw [hcut, if_neg (hne (hr.atOrBelow_trimEnd front))]
    exact directory_mem_directoriesOf (hr.atOrBelow_trimEnd front) hn
  rw [if_neg hends, if_neg (hne hbelow)]
  by_cases hslash : [separator] <:+ childPrefix key ++ (r ++ separator :: rest)
  · rw [if_pos hslash]
    exact directory_mem_directoriesOf hbelow hn
  · have hself : trimEnd (r ++ separator :: rest) = r ++ separator :: rest :=
      trimEnd_of_not_suffix fun h => hslash (h.trans (List.suffix_append ..))
    rw [if_neg hslash, hself, if_pos ⟨trivial, by simp⟩, List.mem_append]
    exact Or.inl (directory_mem_directoriesOf (atOrBelow_beforeLast r rest) hn)

include hr in
/-- A key that continues that of a directory shows no file with the name of the directory or of one
above it. -/
theorem eq_directory_of_mem_ofItem {t : Key} (ht : t ≠ [])
    (hentry : entry ∈ ofItem suffix (childPrefix key) true
      (.object (childPrefix key ++ (r ++ t)) o))
    (hn : entry.name = r ∨ entry.name ∈ ancestors r) : entry = directory entry.name := by
  have hname : childName (childPrefix key ++ (r ++ t)) (childPrefix key) = trimEnd (r ++ t) :=
    hr.childName_append _ _
  simp only [ofItem, ofSummary, hname] at hentry
  split at hentry
  · split at hentry
    · cases hentry
    · exact (mem_directoriesOf_iff.mp hentry).1
  split at hentry
  · cases hentry
  split at hentry
  · exact (mem_directoriesOf_iff.mp hentry).1
  rename_i hslash
  rcases List.mem_append.mp hentry with hentry | hentry
  · split at hentry
    · exact (mem_directoriesOf_iff.mp hentry).1
    · cases hentry
  · have hself : trimEnd (r ++ t) = r ++ t :=
      trimEnd_of_not_suffix fun h => hslash (h.trans (List.suffix_append ..))
    rw [hself, List.mem_singleton] at hentry
    rw [hentry] at hn
    rcases hn with hn | hn
    · exact absurd (List.append_right_eq_self.mp hn) ht
    · have hlength := length_lt_of_mem_ancestors hn
      rw [file, List.length_append] at hlength
      omega

end Status

/-! ### The marker of a directory with keys below -/

/-- A block of a list that is shadowed by what comes before it, or foreseen by what comes after it,
takes no part in a search. -/
theorem find?_append_middle {α : Type} {p : α → Bool} {front middle back : List α}
    (h : ∀ x ∈ middle, p x → front.find? p = none → back.find? p = some x) :
    (front ++ (middle ++ back)).find? p = (front ++ back).find? p := by
  rw [List.find?_append, List.find?_append, List.find?_append]
  cases hfront : front.find? p with
  | some x => rfl
  | none =>
    cases hmiddle : middle.find? p with
    | none => rfl
    | some x =>
      have := h x (List.mem_of_find?_eq_some hmiddle) (List.find?_some hmiddle) hfront
      rw [this]
      rfl

/-- A search that can find only one thing in the first part of a list, and does, finds it. -/
theorem find?_append_of_mem {α : Type} {p : α → Bool} {a : α} {front : List α} (back : List α)
    (ha : a ∈ front) (hp : p a) (h : ∀ x ∈ front, p x → x = a) :
    (front ++ back).find? p = some a := by
  rw [List.find?_append]
  cases hfront : front.find? p with
  | none => exact absurd hp (List.find?_eq_none.mp hfront a ha)
  | some x =>
    rw [h x (List.mem_of_find?_eq_some hfront) (List.find?_some hfront)]
    rfl

/-- A new key comes in between the items of a listing of the subtree. -/
theorem exists_items_put {store : Store} {under k : Key} (body : Bytes) (hk : k ∉ store.objects)
    (hunder : under <+: k) :
    ∃ front back o, items store.objects under (delimiterOf true) = front ++ back ∧
      items (store.put k body).objects under (delimiterOf true) = front ++ .object k o :: back := by
  obtain ⟨o, ho⟩ := Objects.exists_getElem?_of_mem (Objects.mem_put_self store k body)
  have hmem : Item.object k o ∈ items (store.put k body).objects under (delimiterOf true) :=
    mem_items_iff.mpr ⟨k, o, ho, hunder, itemOf_recursive ..⟩
  obtain ⟨front, back, hafter⟩ := List.append_of_mem hmem
  have hsorted := items_sorted (store.put k body).objects under true
  rw [hafter] at hsorted
  refine ⟨front, back, o, eq_of_sorted Item.name (items_sorted ..) (hsorted.sublist ?_) ?_, hafter⟩
  · exact (List.sublist_cons_self ..).append_left front
  intro item
  have hother : item ∈ front ++ back ↔
      item ∈ items (store.put k body).objects under (delimiterOf true) ∧ item.name ≠ k := by
    rw [hafter, List.mem_append, List.mem_append, List.mem_cons]
    rw [List.pairwise_append, List.pairwise_cons] at hsorted
    constructor
    · rintro (hfront | hback)
      · have hlt := hsorted.2.2 item hfront _ List.mem_cons_self
        exact ⟨Or.inl hfront, fun h => List.lt_irrefl _ (h ▸ hlt)⟩
      · have hlt := hsorted.2.1.1 item hback
        exact ⟨Or.inr (Or.inr hback), fun h => List.lt_irrefl _ (h ▸ hlt)⟩
    · rintro ⟨hfront | rfl | hback, hname⟩
      · exact Or.inl hfront
      · exact absurd rfl hname
      · exact Or.inr hback
  rw [hother, mem_items_iff, mem_items_iff]
  constructor
  · rintro ⟨k', o', ho', hunder', rfl⟩
    have hne : k' ≠ k := fun h => hk (h ▸ Objects.mem_of_getElem? ho')
    exact ⟨⟨k', o', (Objects.getElem?_put_of_ne store body hne).trans ho', hunder', rfl⟩,
      by rwa [itemOf_recursive]⟩
  · rintro ⟨⟨k', o', ho', hunder', rfl⟩, hname⟩
    rw [itemOf_recursive] at hname
    exact ⟨k', o', (Objects.getElem?_put_of_ne store body hname).symm.trans ho', hunder', rfl⟩

/-- What comes between the marker of a directory and a key below it, that key included, continues
the key of the directory. -/
theorem exists_tail_of_mem_between {under r suffix rest : Key} {o o' : Object}
    {between after : List Item}
    (hsorted : (∀ item ∈ between ++ .object (under ++ (r ++ separator :: rest)) o' :: after,
        (Item.object (under ++ (r ++ suffix)) o).name < item.name) ∧
      (between ++ .object (under ++ (r ++ separator :: rest)) o' :: after).Pairwise
        fun a b => a.name < b.name)
    (hobjects : ∀ item ∈ between, Status.Item.IsObject item) :
    ∀ item ∈ between ++ [.object (under ++ (r ++ separator :: rest)) o'],
      ∃ t o, t ≠ [] ∧ item = .object (under ++ (r ++ t)) o := by
  intro item hitem
  rcases List.mem_append.mp hitem with hitem | hitem
  · obtain ⟨k, o, rfl⟩ := hobjects item hitem
    have hlater := hsorted.1 _ (List.mem_append_left _ hitem)
    have hearlier := (List.pairwise_append.mp hsorted.2).2.2 _ hitem _ List.mem_cons_self
    rw [Item.name, Item.name, ← List.append_assoc] at hlater hearlier
    obtain ⟨t, ht, rfl⟩ := exists_tail_of_lt_of_lt hlater hearlier
    exact ⟨t, o, ht, by rw [List.append_assoc]⟩
  · exact ⟨_, o', List.cons_ne_nil _ _, List.mem_singleton.mp hitem⟩

namespace Status

variable {suffix key m : Key} {recursive : Bool} {store : Store}
variable (hs : suffix ≠ []) (hseparator : separator ∉ suffix) (hm : IsNormal m)
  (hbelow : store.objects.HasBelow m)

include hseparator hbelow in
/-- The marker of a directory with keys below shows nothing new in a listing of one level. -/
theorem reads_put_marker_iff {entry : Status} :
    Reads suffix (store.put (marker suffix m) []).objects (childPrefix key) entry ↔
      Reads suffix store.objects (childPrefix key) entry := by
  have hplain : ∀ {name : Key}, ¬ suffix <:+ name →
      (store.put (marker suffix m) []).objects[childPrefix key ++ name]? =
        store.objects[childPrefix key ++ name]? := by
    intro name hname
    refine Objects.getElem?_put_of_ne store [] fun heq => hname ?_
    rw [← suffix_childPrefix_append_iff hseparator, heq]
    exact Objects.suffix_marker suffix m
  have hfile : ∀ {name : Key}, childPrefix key ++ name ∈ (store.put (marker suffix m) []).objects ∧
      ¬ suffix <:+ name ↔ childPrefix key ++ name ∈ store.objects ∧ ¬ suffix <:+ name :=
    and_congr_left fun hname => Objects.mem_congr (hplain hname)
  have hshown : ∀ {name : Key}, IsName name →
      ((childPrefix key ++ (name ++ suffix) ∈ (store.put (marker suffix m) []).objects ∨
        ∃ k ∈ (store.put (marker suffix m) []).objects,
          childPrefix key ++ (name ++ [separator]) <+: k) ↔
      (childPrefix key ++ (name ++ suffix) ∈ store.objects ∨
        ∃ k ∈ store.objects, childPrefix key ++ (name ++ [separator]) <+: k)) := by
    intro name hname
    have hne : childPrefix key ++ name ≠ [] := by simp [hname.ne_nil]
    simp only [← List.append_assoc, ← childPrefix_of_ne_nil hne]
    have hunder := Objects.hasBelow_put_marker_iff hseparator hbelow hne
    constructor
    · rintro (hmarker | hkeys)
      · rcases Objects.mem_put_iff.mp hmarker with heq | hmarker
        · exact Or.inr (marker_injective heq ▸ hbelow)
        · exact Or.inl hmarker
      · exact Or.inr (hunder.mp hkeys)
    · rintro (hmarker | hkeys)
      · exact Or.inl (Objects.mem_put hmarker)
      · exact Or.inr (hunder.mpr hkeys)
  constructor
  · rintro (⟨hname, hsuffix, hstored⟩ | ⟨hname, hno, hyes⟩)
    · exact .file hname hsuffix ((hplain hsuffix).symm.trans hstored)
    · exact .directory hname (hfile.not.mp hno) ((hshown hname).mp hyes)
  · rintro (⟨hname, hsuffix, hstored⟩ | ⟨hname, hno, hyes⟩)
    · exact .file hname hsuffix ((hplain hsuffix).trans hstored)
    · exact .directory hname (hfile.not.mpr hno) ((hshown hname).mpr hyes)

include hs hseparator in
/-- What comes after the marker of a directory with keys below shows the directory and those above
it as directories first. -/
theorem find?_after_marker {r rest n : Key} {o o' : Object} {later : List Item} (hr : IsNormal r)
    (hn : n = r ∨ n ∈ ancestors r)
    (hsorted : (∀ item ∈ later,
        (Item.object (childPrefix key ++ (r ++ suffix)) o).name < item.name) ∧
      later.Pairwise fun a b => a.name < b.name)
    (hobjects : ∀ item ∈ later, Item.IsObject item)
    (hitem : Item.object (childPrefix key ++ (r ++ separator :: rest)) o' ∈ later) :
    (later.flatMap (ofItem suffix (childPrefix key) true)).find? (fun e => e.name = n) =
      some (directory n) := by
  -- what comes up to the key below continues the key of the directory, so it shows no such file
  obtain ⟨between, after, rfl⟩ := List.append_of_mem hitem
  have hcontinues := exists_tail_of_mem_between hsorted fun item hitem =>
    hobjects item (List.mem_append_left _ hitem)
  rw [← List.singleton_append, ← List.append_assoc, List.flatMap_append]
  refine find?_append_of_mem _ ?_ (by simp [directory]) ?_
  · exact List.mem_flatMap.mpr ⟨_, List.mem_append_right _ List.mem_cons_self,
      directory_mem_ofItem hs hseparator hr rest hn⟩
  · intro e he hen
    obtain ⟨item, hitem, he⟩ := List.mem_flatMap.mp he
    obtain ⟨t, o, ht, rfl⟩ := hcontinues item hitem
    have hen : e.name = n := of_decide_eq_true hen
    rw [eq_directory_of_mem_ofItem hr ht he (hen ▸ hn), hen]

include hs hseparator in
/-- The marker of a directory with keys below shows nothing new in a listing of the subtree. -/
theorem find?_put_marker {r : Key} (hr : IsNormal r)
    (hmarker : childPrefix key ++ (r ++ suffix) ∉ store.objects)
    (hbelow : store.objects.HasBelow (childPrefix key ++ r)) (n : Key) :
    ((items (store.put (childPrefix key ++ (r ++ suffix)) []).objects (childPrefix key)
        (delimiterOf true)).flatMap (ofItem suffix (childPrefix key) true)).find?
          (fun e => e.name = n) =
      ((items store.objects (childPrefix key) (delimiterOf true)).flatMap
        (ofItem suffix (childPrefix key) true)).find? (fun e => e.name = n) := by
  obtain ⟨front, back, o, hbefore, hafter⟩ :=
    exists_items_put [] hmarker (List.prefix_append ..)
  have hsorted := items_sorted (store.put (childPrefix key ++ (r ++ suffix)) []).objects
    (childPrefix key) true
  rw [hafter, List.pairwise_append, List.pairwise_cons] at hsorted
  rw [hafter, hbefore, List.flatMap_append, List.flatMap_cons, List.flatMap_append]
  refine find?_append_middle fun x hx hn hfront => ?_
  rw [ofItem_marker_recursive hs hseparator hr] at hx
  obtain rfl : x.name = n := of_decide_eq_true hn
  obtain ⟨hdir, hname⟩ := mem_directoriesOf_iff.mp hx
  -- the key below comes after the marker, and it shows the directory too
  obtain ⟨k, hk, hprefix⟩ := hbelow
  have hne : childPrefix key ++ r ≠ [] := by simp [hr.1]
  rw [childPrefix_of_ne_nil hne] at hprefix
  obtain ⟨rest, rfl⟩ := hprefix
  simp only [List.append_assoc, List.singleton_append] at hk
  obtain ⟨o', ho'⟩ := Objects.exists_getElem?_of_mem hk
  have hshows : directory x.name ∈ ofItem suffix (childPrefix key) true
      (.object (childPrefix key ++ (r ++ separator :: rest)) o') :=
    directory_mem_ofItem hs hseparator hr rest hname
  have hitem : Item.object (childPrefix key ++ (r ++ separator :: rest)) o' ∈ front ++ back :=
    hbefore ▸ mem_items_iff.mpr ⟨_, o', ho', List.prefix_append .., itemOf_recursive ..⟩
  rcases List.mem_append.mp hitem with hitem | hitem
  · have := List.find?_eq_none.mp hfront _ (List.mem_flatMap.mpr ⟨_, hitem, hshows⟩)
    simp [directory] at this
  have hobjects : ∀ item ∈ back, Item.IsObject item := fun item hitem =>
    isObject_of_mem_items (hbefore ▸ List.mem_append_right front hitem)
  exact (find?_after_marker hs hseparator hr hname hsorted.2.1 hobjects hitem).trans
    (congrArg some hdir.symm)

include hs hseparator hm hbelow in
/-- The marker of a directory with keys below changes no listing. -/
theorem entriesOf_put_marker (hmarker : marker suffix m ∉ store.objects) :
    entriesOf suffix (store.put (marker suffix m) []).objects key recursive =
      entriesOf suffix store.objects key recursive := by
  cases recursive with
  | false =>
    refine (isListing_entriesOf hs hseparator).unique ⟨ofPages_sorted .., fun entry => ?_⟩
    rw [reads_put_marker_iff hseparator hbelow]
    exact (isListing_entriesOf hs hseparator).mem_iff entry
  | true =>
    by_cases hunder : childPrefix key <+: m
    · obtain ⟨r, rfl⟩ := hunder
      have hr := hm.of_childPrefix_append
      rw [marker, List.append_assoc] at hmarker ⊢
      rw [entriesOf_recursive, entriesOf_recursive]
      congr 2
      ext n : 1
      rw [getElem?_firstOfName, getElem?_firstOfName]
      exact find?_put_marker hs hseparator hr hmarker hbelow n
    · -- the marker is not below the directory
      have hagree : Objects.Agree id (childPrefix key <+: ·)
          (store.put (marker suffix m) []).objects store.objects := by
        intro k hk
        rw [Objects.getElem?_put_of_ne]
        rintro rfl
        by_cases hkey : key = []
        · exact hunder (hkey ▸ List.nil_prefix)
        · exact hunder (childPrefix_prefix_of_marker hseparator hkey hk)
      have hsame : (entriesOf suffix (store.put (marker suffix m) []).objects key true).map
          (Status.seen id) = (entriesOf suffix store.objects key true).map (Status.seen id) :=
        entriesOf_agree hagree
      simpa using hsame

end Status

end KeyTree
