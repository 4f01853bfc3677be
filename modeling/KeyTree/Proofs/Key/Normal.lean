import KeyTree.Key
import Mathlib.Data.List.Infix
import Mathlib.Order.Basic
import Mathlib.Tactic.Common

/-!
# Normal keys

The keys that paths stand for are the joins of non-empty segments. This file relates cutting,
trimming and joining on such keys: a normal key is its own key under every root that names a bucket,
and a name is put below a normal key by one separator.

## Main definitions

* `Key.IsName` — the names of entries: non-empty and free of separators.
* `Key.NamesBucket` — roots that no normal key can be mistaken for.

## Main results

* `Key.pieces_append_separator` — the pieces on both sides of a separator.
* `Key.isNormal_of_normalize?`, `Key.normalize?_of_isNormal` — keys of paths.
* `Key.IsNormal.child`, `Key.IsNormal.concat` — putting a name below a key.
-/

namespace KeyTree.Key

/-! ### Cutting at separators -/

theorem pieces_ne_nil (text : List Char) : pieces text ≠ [] := by
  cases text with
  | nil => simp [pieces]
  | cons c rest =>
    rw [pieces]
    split
    · simp
    · split <;> simp

@[simp] theorem pieces_separator_cons (rest : List Char) :
    pieces (separator :: rest) = [] :: pieces rest := by
  simp [pieces]

theorem pieces_cons_of_ne {c : Char} (hc : c ≠ separator) {rest piece : List Char}
    {more : List (List Char)} (h : pieces rest = piece :: more) :
    pieces (c :: rest) = (c :: piece) :: more := by
  simp [pieces, hc, h]

/-- A text without separators is its only piece. -/
theorem pieces_of_notMem {text : List Char} (h : separator ∉ text) : pieces text = [text] := by
  induction text with
  | nil => rfl
  | cons c rest ih =>
    obtain ⟨hc, hrest⟩ : c ≠ separator ∧ separator ∉ rest := by
      simpa [eq_comm] using h
    exact pieces_cons_of_ne hc (ih hrest)

/-- The pieces of a text are the pieces before a separator and those after it. -/
theorem pieces_append_separator (left right : List Char) :
    pieces (left ++ separator :: right) = pieces left ++ pieces right := by
  induction left with
  | nil => simp [pieces]
  | cons c left ih =>
    by_cases hc : c = separator
    · subst hc
      simp [ih]
    · obtain ⟨piece, more, h⟩ := List.exists_cons_of_ne_nil (pieces_ne_nil left)
      have hjoined : pieces (left ++ separator :: right) = piece :: (more ++ pieces right) := by
        rw [ih, h, List.cons_append]
      rw [List.cons_append, pieces_cons_of_ne hc hjoined, pieces_cons_of_ne hc h,
        List.cons_append]

/-- Pieces are free of separators. -/
theorem separator_notMem_of_mem_pieces (text : List Char) :
    ∀ piece ∈ pieces text, separator ∉ piece := by
  induction text with
  | nil => simp [pieces]
  | cons c rest ih =>
    intro piece hpiece
    obtain ⟨first, more, h⟩ := List.exists_cons_of_ne_nil (pieces_ne_nil rest)
    by_cases hc : c = separator
    · subst hc
      rw [pieces_separator_cons] at hpiece
      rcases List.mem_cons.mp hpiece with rfl | hpiece
      · simp
      · exact ih piece hpiece
    · rw [pieces_cons_of_ne hc h] at hpiece
      rcases List.mem_cons.mp hpiece with rfl | hpiece
      · have hfirst := ih first (by simp [h])
        simp [Ne.symm hc, hfirst]
      · exact ih piece (by simp [h, hpiece])

@[simp] theorem join_pieces (text : List Char) : join (pieces text) = text := by
  induction text with
  | nil => rfl
  | cons c rest ih =>
    obtain ⟨piece, more, h⟩ := List.exists_cons_of_ne_nil (pieces_ne_nil rest)
    by_cases hc : c = separator
    · subst hc
      rw [pieces_separator_cons, h, join, ← h, ih, List.nil_append]
      simp
    · rw [pieces_cons_of_ne hc h]
      rw [h] at ih
      cases more with
      | nil => simpa [join] using ih
      | cons next more => simpa [join] using ih

/-- Segments that are free of separators are the pieces of their join. -/
theorem pieces_join : {segments : List Key} → segments ≠ [] → (∀ s ∈ segments, separator ∉ s) →
    pieces (join segments) = segments
  | [segment], _, h => by
      rw [join, pieces_of_notMem (h segment (by simp))]
  | segment :: next :: more, _, h => by
      have ih : pieces (join (next :: more)) = next :: more :=
        pieces_join (by simp) fun s hs => h s (by simp_all)
      rw [join, pieces_append_separator, pieces_of_notMem (h segment (by simp)), ih]
      · rfl
      · simp

/-- The first separator cuts a text in one way. -/
theorem append_separator_inj : {a b s t : List Char} → separator ∉ a → separator ∉ b →
    a ++ separator :: s = b ++ separator :: t → a = b ∧ s = t
  | [], [], _, _, _, _, h => ⟨rfl, (List.cons.inj h).2⟩
  | [], d :: b, _, _, _, hb, h => by
      rw [← (List.cons.inj h).1] at hb
      exact absurd List.mem_cons_self hb
  | c :: a, [], _, _, ha, _, h => by
      rw [(List.cons.inj h).1] at ha
      exact absurd List.mem_cons_self ha
  | c :: a, d :: b, _, _, ha, hb, h => by
      obtain ⟨hcd, hrest⟩ := List.cons.inj h
      obtain ⟨hab, hst⟩ := append_separator_inj (fun hmem => ha (List.mem_cons_of_mem _ hmem))
        (fun hmem => hb (List.mem_cons_of_mem _ hmem)) hrest
      exact ⟨by rw [hcd, hab], hst⟩

/-- A text is cut at its last separator. -/
theorem exists_last_piece {text : List Char} (h : separator ∈ text) :
    ∃ left last, text = left ++ separator :: last ∧ separator ∉ last := by
  obtain ⟨last, left, htext, hlast⟩ := List.eq_append_cons_of_mem (List.mem_reverse.mpr h)
  refine ⟨left.reverse, last.reverse, ?_, by simpa using hlast⟩
  rw [← List.reverse_reverse text, htext]
  simp

/-! ### Normal keys -/

theorem segments_of_isNormal {key : Key} (h : IsNormal key) : segments key = pieces key := by
  rw [segments, List.filter_eq_self]
  intro piece hpiece
  simpa using h.2 piece hpiece

theorem join_segments_of_isNormal {key : Key} (h : IsNormal key) : join (segments key) = key := by
  rw [segments_of_isNormal h, join_pieces]

/-- The join of non-empty segments is a normal key. -/
theorem isNormal_join {segments : List Key} (hne : segments ≠ [])
    (h : ∀ s ∈ segments, s ≠ [] ∧ separator ∉ s) : IsNormal (join segments) := by
  have hpieces := pieces_join hne fun s hs => (h s hs).2
  refine ⟨fun hempty => ?_, fun piece hpiece => ?_⟩
  · rw [hempty, pieces] at hpieces
    exact (h [] (by simp [← hpieces])).1 rfl
  · rw [hpieces] at hpiece
    exact (h piece hpiece).1

/-- The key of a path is that of the root, or normal. -/
theorem isNormal_join_segments (path : Path) :
    join (segments path) = [] ∨ IsNormal (join (segments path)) := by
  by_cases hnil : segments path = []
  · exact Or.inl (by rw [hnil, join])
  · refine Or.inr (isNormal_join hnil fun s hs => ?_)
    obtain ⟨hpiece, hne⟩ := List.mem_filter.mp hs
    exact ⟨by simpa using hne, separator_notMem_of_mem_pieces path s hpiece⟩

theorem isNormal_of_normalize? {root path : Path} {key : Key}
    (h : normalize? root path = some key) : key = [] ∨ IsNormal key := by
  obtain ⟨rest, -, rfl⟩ := Option.map_eq_some_iff.mp h
  exact isNormal_join_segments rest

/-- Two separators in a row do not occur in a normal key. -/
theorem not_isNormal_of_empty_piece (left right : List Char) :
    ¬ IsNormal (left ++ separator :: separator :: right) := by
  intro h
  refine h.2 [] ?_ rfl
  rw [pieces_append_separator, pieces_separator_cons]
  simp

/-- A root *names a bucket* when something other than separators follows the scheme. -/
def NamesBucket (root : Path) : Prop :=
  ∃ bucket, root = rootOf bucket ∧ ∃ c ∈ bucket, c ≠ separator

theorem trimEnd_ne_nil {text : List Char} (h : ∃ c ∈ text, c ≠ separator) : trimEnd text ≠ [] := by
  induction text with
  | nil => simp at h
  | cons c rest ih =>
    rw [trimEnd]
    by_cases hrest : ∃ c ∈ rest, c ≠ separator
    · have hne := ih hrest
      split <;> simp_all
    · have hc : c ≠ separator := by
        obtain ⟨d, hd, hne⟩ := h
        rcases List.mem_cons.mp hd with rfl | hd
        · exact hne
        · exact absurd ⟨d, hd, hne⟩ hrest
      split <;> simp [hc]

/-- Trimming stops at the last character that is no separator. -/
theorem trimEnd_append_of_exists (left : List Char) {right : List Char}
    (h : ∃ c ∈ right, c ≠ separator) : trimEnd (left ++ right) = left ++ trimEnd right := by
  have hne := trimEnd_ne_nil h
  induction left with
  | nil => rfl
  | cons d left ih =>
    rw [List.cons_append, trimEnd, ih]
    split
    · simp_all
    · rfl

/-- A normal key is its own key under a root that names a bucket. -/
theorem normalize?_of_isNormal {root key : Path} (hroot : NamesBucket root) (h : IsNormal key) :
    normalize? root key = some key := by
  obtain ⟨bucket, rfl, hbucket⟩ := hroot
  have hscheme : ¬ scheme <+: key := by
    rintro ⟨rest, rfl⟩
    exact not_isNormal_of_empty_piece ['s', '3', ':'] rest h
  have hne : key ≠ rootOf bucket := by
    rintro rfl
    exact hscheme (List.prefix_append ..)
  have hbelow : ¬ trimEnd (rootOf bucket) ++ [separator] <+: key := by
    rw [rootOf, trimEnd_append_of_exists scheme hbucket, List.append_assoc]
    exact fun hp => hscheme ((List.prefix_append ..).trans hp)
  have hsame : below? (rootOf bucket) key = some key := by
    rw [below?, if_neg (by simp [hne, hbelow]), if_neg hscheme]
  rw [normalize?, hsame, Option.map_some, join_segments_of_isNormal h]

theorem normalize?_nil {root : Path} (hroot : NamesBucket root) : normalize? root [] = some [] := by
  obtain ⟨bucket, rfl, hbucket⟩ := hroot
  have hsame : below? (rootOf bucket) [] = some [] := by
    simp [below?, rootOf, scheme]
  rw [normalize?, hsame]
  rfl

/-! ### Names -/

/-- The names of entries of a directory are not empty and free of separators. -/
structure IsName (name : Key) : Prop where
  ne_nil : name ≠ []
  separator_notMem : separator ∉ name

instance (name : Key) : Decidable (IsName name) :=
  decidable_of_iff (name ≠ [] ∧ separator ∉ name) ⟨fun h => ⟨h.1, h.2⟩, fun h => ⟨h.1, h.2⟩⟩

theorem IsName.isNormal {name : Key} (h : IsName name) : IsNormal name := by
  refine ⟨h.ne_nil, ?_⟩
  rw [pieces_of_notMem h.separator_notMem]
  simpa using h.ne_nil

/-- A normal key below a normal key makes a normal key. -/
theorem IsNormal.append {key rest : Key} (hkey : IsNormal key) (hrest : IsNormal rest) :
    IsNormal (key ++ separator :: rest) := by
  refine ⟨by simp, fun piece hpiece => ?_⟩
  rw [pieces_append_separator] at hpiece
  rcases List.mem_append.mp hpiece with hpiece | hpiece
  · exact hkey.2 piece hpiece
  · exact hrest.2 piece hpiece

/-- A name below a normal key makes a normal key. -/
theorem IsNormal.child {key name : Key} (hkey : IsNormal key) (hname : IsName name) :
    IsNormal (key ++ separator :: name) :=
  hkey.append hname.isNormal

theorem trimEnd_eq_self : {text : List Char} → (∀ last ∈ text.getLast?, last ≠ separator) →
    trimEnd text = text
  | [], _ => rfl
  | [c], h => by
      have hc : c ≠ separator := h c (by simp)
      simp [trimEnd, hc]
  | c :: d :: rest, h => by
      have ih : trimEnd (d :: rest) = d :: rest := trimEnd_eq_self (by simpa using h)
      rw [trimEnd, ih]

theorem trimStart_eq_self {text : List Char} (h : ∀ first ∈ text.head?, first ≠ separator) :
    trimStart text = text := by
  cases text with
  | nil => rfl
  | cons c rest =>
    have hc : c ≠ separator := h c (by simp)
    simp [trimStart, hc]

/-- A text that does not end with a separator is not trimmed at its end. -/
theorem trimEnd_of_not_suffix {text : List Char} (h : ¬ [separator] <:+ text) :
    trimEnd text = text := by
  refine trimEnd_eq_self fun last hlast => ?_
  rintro rfl
  obtain ⟨init, rfl⟩ := List.getLast?_eq_some_iff.mp hlast
  exact h (List.suffix_append ..)

theorem trimEnd_of_notMem {text : List Char} (h : separator ∉ text) : trimEnd text = text :=
  trimEnd_of_not_suffix fun hend => h (hend.subset List.mem_cons_self)

theorem trim_of_notMem {text : List Char} (h : separator ∉ text) : trim text = text := by
  have hstart : trimStart text = text := trimStart_eq_self fun first hfirst => by
    rintro rfl
    exact h (List.mem_of_head? hfirst)
  rw [trim, hstart, trimEnd_of_notMem h]

/-- An entry without further separators is named by what follows the listed text. -/
theorem childName_append {name : Key} (h : separator ∉ name) (under : Key) :
    childName (under ++ name) under = name := by
  rw [childName, List.drop_left, trim_of_notMem h]

theorem trimEnd_of_separators {text : List Char} (h : ∀ c ∈ text, c = separator) :
    trimEnd text = [] := by
  induction text with
  | nil => rfl
  | cons c text ih =>
    rw [trimEnd, ih fun d hd => h d (List.mem_cons_of_mem _ hd)]
    exact if_pos (h c List.mem_cons_self)

/-- Separators at the end are trimmed. -/
theorem trimEnd_append_separators (left : List Char) {right : List Char}
    (h : ∀ c ∈ right, c = separator) : trimEnd (left ++ right) = trimEnd left := by
  induction left with
  | nil => rw [List.nil_append, trimEnd_of_separators h, trimEnd]
  | cons c left ih => rw [List.cons_append, trimEnd, ih, trimEnd]

theorem trimEnd_append_separator {text : List Char} (h : separator ∉ text) :
    trimEnd (text ++ [separator]) = text := by
  rw [trimEnd_append_separators text (by simp), trimEnd_of_notMem h]

/-- A separator left over at the end of a text without separators is trimmed. -/
theorem trim_append_separator {text : List Char} (h : separator ∉ text) :
    trim (text ++ [separator]) = text := by
  cases text with
  | nil => simp [trim, trimStart, trimEnd]
  | cons c rest =>
    have hc : c ≠ separator := by rintro rfl; simp at h
    have hstart : trimStart (c :: rest ++ [separator]) = c :: rest ++ [separator] :=
      trimStart_eq_self (by simp [hc])
    rw [trim, hstart, trimEnd_append_separator h]

/-- A normal key does not end with a separator. -/
theorem IsNormal.not_separator_suffix {key : Key} (h : IsNormal key) :
    ¬ [separator] <:+ key := by
  rintro ⟨init, rfl⟩
  refine h.2 [] ?_ rfl
  rw [pieces_append_separator]
  simp [pieces]

theorem IsNormal.trimEnd {key : Key} (h : IsNormal key) : trimEnd key = key :=
  trimEnd_of_not_suffix h.not_separator_suffix

/-- The key of a child is its directory's key, a separator and its name. -/
theorem IsNormal.concat {key name : Key} (hkey : IsNormal key) (hname : IsName name) :
    Key.concat key name = key ++ separator :: name := by
  rw [Key.concat, hkey.trimEnd, trim_of_notMem hname.separator_notMem]
  obtain ⟨c, rest, rfl⟩ := List.exists_cons_of_ne_nil hkey.1
  rfl

end KeyTree.Key
