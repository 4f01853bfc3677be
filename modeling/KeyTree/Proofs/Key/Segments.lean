import KeyTree.Proofs.Key.Ancestry
import KeyTree.Proofs.Key.Root
import Mathlib.Logic.Function.Iterate

/-!
# Keys as lists of segments

A normal key is the join of its segments, and cutting and joining undo each other. In terms of
segments a child has one more at the end than its directory, and a parent one less. So climbing from
a key visits the beginnings of its list of segments, each once, and ends at the root. That a key
looks like a URI is ruled out by its segments too: a URI of the store has an empty one.

## Main definitions

* `Key.Remains` — what is left of a path when the root is taken off.
* `Key.Descends` — keys that continue the segments of another key.
* `Key.above?` — the key some levels above a key.

## Main results

* `Key.join_append` — the join of two lists of segments.
* `Key.childPrefix_prefix_iff_descends` — what lies below a key continues its segments.
* `Key.normalize?_eq_some_iff` — the key of a path by the segments of what remains of it.
* `Key.above?_eq` — what is visited on the way up to the root.
* `Key.keys_consistent` — reading paths, going down and climbing fit together.
-/

namespace KeyTree.Key

variable {key name : Key}

/-! ### Cutting and joining -/

theorem join_cons (segment : Key) {segments : List Key} (h : segments ≠ []) :
    join (segment :: segments) = segment ++ separator :: join segments := by
  obtain ⟨next, more, rfl⟩ := List.exists_cons_of_ne_nil h
  rfl

/-- Keys are joined as the library joins lists. -/
theorem join_eq_intercalate (segments : List Key) :
    join segments = [separator].intercalate segments := by
  induction segments with
  | nil => rfl
  | cons segment segments ih =>
    by_cases hnil : segments = []
    · rw [hnil]
      exact (List.append_nil segment).symm
    · rw [join_cons segment hnil, ih, List.intercalate_cons_of_ne_nil hnil, List.append_assoc,
        List.singleton_append]

/-- Texts are cut as the library cuts lists. -/
theorem pieces_eq_splitOn (text : List Char) : pieces text = text.splitOn separator := by
  have hsplit := List.splitOn_intercalate separator (separator_notMem_of_mem_pieces text)
    (pieces_ne_nil text)
  rwa [← join_eq_intercalate, join_pieces, eq_comm] at hsplit

/-- Lists of segments are joined one after the other by one separator between them. -/
theorem join_append {segments segments' : List Key} (h : segments ≠ []) (h' : segments' ≠ []) :
    join (segments ++ segments') = join segments ++ separator :: join segments' := by
  induction segments with
  | nil => exact absurd rfl h
  | cons segment segments ih =>
    by_cases hnil : segments = []
    · rw [hnil]
      exact join_cons segment h'
    · rw [List.cons_append, join_cons segment (List.append_ne_nil_of_left_ne_nil hnil _), ih hnil,
        join_cons segment hnil, List.append_assoc, List.cons_append]

/-- The segments of a normal key are names. -/
theorem IsNormal.isName_of_mem_pieces (h : IsNormal key) : ∀ s ∈ pieces key, IsName s :=
  fun s hs => ⟨h.2 s hs, separator_notMem_of_mem_pieces key s hs⟩

/-- A key *descends* from another one when it continues its segments. -/
def Descends (top key : Key) : Prop :=
  ∃ more, more ≠ [] ∧ pieces key = pieces top ++ more

/-- What lies below a key continues its segments. -/
theorem childPrefix_prefix_iff_descends {top : Key} (htop : top ≠ []) :
    childPrefix top <+: key ↔ Descends top key := by
  rw [childPrefix_prefix_iff htop]
  constructor
  · rintro ⟨rest, rfl⟩
    exact ⟨pieces rest, pieces_ne_nil rest, pieces_append_separator top rest⟩
  · rintro ⟨more, hmore, hpieces⟩
    refine ⟨join more, ?_⟩
    rw [← join_pieces key, hpieces, join_append (pieces_ne_nil top) hmore, join_pieces]

/-! ### Reading paths -/

/-- What *remains* of a path when the root is taken off: nothing of the root, the separator and all
after it of a path that continues the root, and all of a path that is no URI. -/
inductive Remains (root : Path) : Path → Path → Prop
  | root : Remains root root []
  | below (rest : Path) : Remains root (root ++ separator :: rest) (separator :: rest)
  | relative {path : Path} (h : ¬ scheme <+: path) : Remains root path path

section

variable {bucket : List Char} {path : Path} (hne : bucket ≠ []) (hbucket : separator ∉ bucket)

include hne hbucket

/-- The key of a path is the join of the non-empty segments of what remains of it. -/
theorem normalize?_of_remains {rest : Path} (h : Remains (rootOf bucket) path rest) :
    normalize? (rootOf bucket) path = some (join (segments rest)) := by
  cases h with
  | root => exact normalize?_rootOf hne hbucket
  | below rest => rw [normalize?_uri hne hbucket, segments_separator_cons]
  | relative hscheme =>
    have hroot : rootOf bucket <+: path → scheme <+: path := (List.prefix_append ..).trans
    have hsame : below? (rootOf bucket) path = some path := by
      rw [below?, trimEnd_rootOf hne hbucket, if_neg, if_neg hscheme]
      rintro ⟨-, rfl | hbelow⟩
      · exact hscheme (hroot List.prefix_rfl)
      · exact hscheme (hroot ((List.prefix_append ..).trans hbelow))
    rw [normalize?, hsame, Option.map_some]

/-- Something remains of every path that is not outside. -/
theorem exists_remains (h : ¬ Outside (rootOf bucket) path) :
    ∃ rest, Remains (rootOf bucket) path rest := by
  by_contra hnone
  rw [not_exists] at hnone
  refine h ⟨?_, ?_, ?_⟩
  · by_contra hscheme
    exact hnone path (.relative hscheme)
  · rintro rfl
    exact hnone [] .root
  · rw [trimEnd_rootOf hne hbucket]
    rintro ⟨rest, rfl⟩
    rw [List.append_assoc, List.singleton_append] at hnone
    exact hnone _ (.below rest)

/-- The keys of paths are the joins of the non-empty segments of what remains of them. -/
theorem normalize?_eq_some_iff :
    normalize? (rootOf bucket) path = some key ↔
      ∃ rest, Remains (rootOf bucket) path rest ∧ key = join (segments rest) := by
  constructor
  · intro h
    have hinside : ¬ Outside (rootOf bucket) path := by
      rw [← normalize?_eq_none_iff (rootOf_ne_nil bucket), h]
      exact Option.some_ne_none key
    obtain ⟨rest, hrest⟩ := exists_remains hne hbucket hinside
    rw [normalize?_of_remains hne hbucket hrest] at h
    exact ⟨rest, hrest, (Option.some.inj h).symm⟩
  · rintro ⟨rest, hrest, rfl⟩
    exact normalize?_of_remains hne hbucket hrest

/-- The key of a path is its own key. -/
theorem normalize?_idempotent (h : normalize? (rootOf bucket) path = some key) :
    normalize? (rootOf bucket) key = some key := by
  have hnames : NamesBucket (rootOf bucket) := ⟨bucket, rfl, exists_ne_separator hne hbucket⟩
  rcases isNormal_of_normalize? h with rfl | hkey
  · exact normalize?_nil hnames
  · exact normalize?_of_isNormal hnames hkey

end

/-! ### Going down -/

/-- The key of a child of the root or of a normal key. -/
theorem concat_eq (hkey : key = [] ∨ IsNormal key) (hname : IsName name) :
    concat key name = childPrefix key ++ name := by
  rcases hkey with rfl | hkey
  · exact trim_of_notMem hname.separator_notMem
  · rw [hkey.concat hname, childPrefix_of_ne_nil hkey.1, List.append_assoc, List.singleton_append]

theorem isChild_concat (hkey : key = [] ∨ IsNormal key) (hname : IsName name) :
    IsChild key (concat key name) := by
  rcases hkey with rfl | hkey
  · rw [concat_eq (Or.inl rfl) hname]
    exact hname.isChild
  · rw [hkey.concat hname]
    exact hkey.isChild hname

/-! ### Climbing -/

/-- A list of names with one more at its end is a child of the list. -/
theorem isChild_join_concat {segments : List Key} {last : Key} (h : ∀ s ∈ segments, IsName s)
    (hlast : IsName last) : IsChild (join segments) (join (segments ++ [last])) := by
  by_cases hnil : segments = []
  · rw [hnil]
    exact hlast.isChild
  · rw [join_append hnil (List.cons_ne_nil last [])]
    have hnormal := isNormal_join hnil fun s hs => ⟨(h s hs).ne_nil, (h s hs).separator_notMem⟩
    exact hnormal.isChild hlast

/-- The parent of a beginning of a list of names is the beginning that is one shorter. -/
theorem parent?_join_take {segments : List Key} (h : ∀ s ∈ segments, IsName s) {n : Nat}
    (hn : n < segments.length) :
    parent? (join (segments.take (n + 1))) = some (join (segments.take n)) := by
  rw [← List.take_concat_get' segments n hn]
  exact (isChild_join_concat (fun s hs => h s (List.mem_of_mem_take hs))
    (h _ (List.getElem_mem hn))).parent?_eq

/-- The key that is some levels *above* a key, found by going from parent to parent. -/
def above? (n : Nat) (key : Key) : Option Key :=
  (Option.bind · parent?)^[n] (some key)

theorem above?_succ (n : Nat) (key : Key) : above? (n + 1) key = (above? n key).bind parent? :=
  Function.iterate_succ_apply' ..

/-- Going up from a normal key loses one segment at a time, down to the root, and ends there. -/
theorem above?_eq (h : IsNormal key) (n : Nat) :
    above? n key =
      if n ≤ (pieces key).length then
        some (join ((pieces key).take ((pieces key).length - n)))
      else none := by
  induction n with
  | zero => rw [if_pos (Nat.zero_le _), Nat.sub_zero, List.take_length, join_pieces, above?,
      Function.iterate_zero_apply]
  | succ n ih =>
    rw [above?_succ, ih]
    rcases Nat.lt_trichotomy n (pieces key).length with hlt | heq | hgt
    · have hlevel : (pieces key).length - n = (pieces key).length - (n + 1) + 1 := by omega
      rw [if_pos hlt.le, if_pos (Nat.succ_le_of_lt hlt), Option.bind_some, hlevel,
        parent?_join_take h.isName_of_mem_pieces (by omega)]
    · rw [if_pos heq.le, if_neg (by omega), heq, Nat.sub_self]
      rfl
    · rw [if_neg (by omega), if_neg (by omega), Option.bind_none]

/-! ### Consistency -/

/-- Reading paths, going down and climbing fit together. The paths without a key are the URIs that
neither spell the root nor continue it. All others have the join of the non-empty segments of what
remains of them, and that is its own key. A child is normal, has its directory as parent and its
name below it. Going up from a normal key visits the beginnings of its list of segments, the
shortest last, which is the root. -/
theorem keys_consistent {bucket : List Char} (hne : bucket ≠ []) (hbucket : separator ∉ bucket) :
    (∀ path, normalize? (rootOf bucket) path = none ↔
        scheme <+: path ∧ path ≠ rootOf bucket ∧ ¬ rootOf bucket ++ [separator] <+: path) ∧
      (∀ path key, normalize? (rootOf bucket) path = some key ↔
        ∃ rest, Remains (rootOf bucket) path rest ∧
          key = [separator].intercalate ((rest.splitOn separator).filter (· ≠ []))) ∧
      (∀ path key, normalize? (rootOf bucket) path = some key →
        normalize? (rootOf bucket) key = some key) ∧
      (∀ key name, key = [] ∨ IsNormal key → IsName name →
        IsNormal (concat key name) ∧ parent? (concat key name) = some key ∧
          childName (concat key name) (childPrefix key) = name) ∧
      ∀ key, IsNormal key → ∀ n, above? n key =
        if n ≤ (key.splitOn separator).length then
          some ([separator].intercalate
            ((key.splitOn separator).take ((key.splitOn separator).length - n)))
        else none := by
  refine ⟨fun path => ?_, fun path key => ?_,
    fun path key => normalize?_idempotent hne hbucket, fun key name hkey hname => ?_,
    fun key hkey n => ?_⟩
  · rw [normalize?_eq_none_iff (rootOf_ne_nil bucket)]
    constructor
    · intro h
      exact ⟨h.isUri, h.ne_root, trimEnd_rootOf hne hbucket ▸ h.not_below⟩
    · rintro ⟨hscheme, hroot, hbelow⟩
      exact ⟨hscheme, hroot, (trimEnd_rootOf hne hbucket).symm ▸ hbelow⟩
  · simp only [← pieces_eq_splitOn, ← join_eq_intercalate]
    exact normalize?_eq_some_iff hne hbucket
  · have hchild := isChild_concat hkey hname
    refine ⟨hchild.isNormal, hchild.parent?_eq, ?_⟩
    rw [concat_eq hkey hname, childName_append hname.separator_notMem]
  · rw [← pieces_eq_splitOn, ← join_eq_intercalate]
    exact above?_eq hkey n

/-- A segment may look like the scheme of a URI: its key is still read as itself, and the root is
two levels above it. -/
theorem keys_consistent_schemeSegment :
    ['b'] ≠ [] ∧ separator ∉ ['b'] ∧ IsNormal "s3:".toList ∧ IsName "s3:".toList ∧
      normalize? (rootOf ['b']) "s3://b//s3://s3:/".toList = some "s3:/s3:".toList ∧
      normalize? (rootOf ['b']) "s3:/s3:".toList = some "s3:/s3:".toList ∧
      normalize? (rootOf ['b']) "s3://bb/s3:".toList = none ∧
      IsNormal (concat "s3:".toList "s3:".toList) ∧
      parent? (concat "s3:".toList "s3:".toList) = some "s3:".toList ∧
      childName (concat "s3:".toList "s3:".toList) "s3:/".toList = "s3:".toList ∧
      above? 2 "s3:/s3:".toList = some [] ∧ above? 3 "s3:/s3:".toList = none := by
  have hne : ['b'] ≠ [] := List.cons_ne_nil 'b' []
  have hbucket : separator ∉ ['b'] := by decide
  have hnormal : IsNormal "s3:".toList := by decide +kernel
  have hname : IsName "s3:".toList := by decide +kernel
  have hkey : normalize? (rootOf ['b']) "s3://b//s3://s3:/".toList = some "s3:/s3:".toList := by
    decide +kernel
  obtain ⟨hnone, -, hagain, hchild, habove⟩ := keys_consistent hne hbucket
  obtain ⟨hchildNormal, hparent, hchildName⟩ :=
    hchild "s3:".toList "s3:".toList (Or.inr hnormal) hname
  have hup := habove "s3:/s3:".toList (by decide +kernel)
  refine ⟨hne, hbucket, hnormal, hname, hkey, hagain _ _ hkey, (hnone _).mpr (by decide +kernel),
    hchildNormal, hparent, hchildName, (hup 2).trans ?_, (hup 3).trans ?_⟩
  all_goals decide +kernel

end KeyTree.Key
