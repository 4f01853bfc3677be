import KeyTree.CommandLine.Run
import KeyTree.Proofs.FileSystem.Lookup
import KeyTree.Proofs.Key.Root
import Mathlib.Data.List.TakeWhile

/-!
# The two readers of a URI

A URI that names a bucket and a key in it is read in two ways. The reader of locations cuts it as
generic URIs are cut: it drops tabs and line breaks, and what follows the first `?` or `#`. The
reader of paths takes the root off and keeps every character of the key. So both find the same
bucket, and they find the same key exactly when the key is free of those five characters. A file
system that is opened at the URI goes by the reader of paths.

## Main definitions

* `Location.IsPlain` — names of buckets that generic URIs can hold as they are.
* `Location.uriOf` — the URI of a key in a bucket.
* `Location.Cuts` — the five characters.
* `Location.shown` — what the reader of locations leaves of a key.

## Main results

* `Location.parse_uriOf` — what the reader of locations finds.
* `Location.shown_eq_iff` — the keys that it leaves whole.
* `Location.readers_agree_iff` — when the two readers agree.
-/

namespace KeyTree

open Key

namespace Location

/-- A name is *plain* when it consists of letters and digits of ASCII, points, hyphens and
underscores. -/
structure IsPlain (bucket : List Char) : Prop where
  ne_nil : bucket ≠ []
  plain : ∀ c ∈ bucket, c.isAlphanum ∨ c = '.' ∨ c = '-' ∨ c = '_'

/-- The URI of a key in a bucket. -/
def uriOf (bucket : List Char) (key : Key) : Path :=
  rootOf bucket ++ separator :: key

/-- A character *cuts* a URI short or is dropped from it when the URI is cut like a generic one. -/
def Cuts (c : Char) : Prop :=
  isRemoved c = true ∨ c = '#' ∨ c = '?'

/-- What is left of a key when its URI is cut like a generic one. -/
def shown (key : Key) : Key :=
  trimStart (((key.filter (!isRemoved ·)).takeWhile (· ≠ '#')).takeWhile (· ≠ '?'))

/-! ### Names of buckets -/

namespace IsPlain

variable {bucket : List Char} (h : IsPlain bucket)

include h

/-- The characters of a plain name belong to ASCII. -/
theorem toNat_lt : ∀ c ∈ bucket, c.toNat < 128 := by
  intro c hc
  rcases h.plain c hc with halnum | rfl | rfl | rfl
  · rcases Bool.or_eq_true_iff.mp halnum with halpha | hdigit
    · rcases Bool.or_eq_true_iff.mp halpha with hupper | hlower
      · have hle : c.toNat ≤ 'Z'.toNat := (of_decide_eq_true hupper).2
        exact hle.trans_lt (by decide)
      · have hle : c.toNat ≤ 'z'.toNat := of_decide_eq_true (Bool.and_eq_true_iff.mp hlower).2
        exact hle.trans_lt (by decide)
    · have hle : c.toNat ≤ '9'.toNat := of_decide_eq_true (Bool.and_eq_true_iff.mp hdigit).2
      exact hle.trans_lt (by decide)
  all_goals decide

/-- A plain name holds none of the other characters. -/
theorem notMem {c : Char} (hc : ¬ (c.isAlphanum ∨ c = '.' ∨ c = '-' ∨ c = '_')) : c ∉ bucket :=
  fun hmem => hc (h.plain c hmem)

theorem separator_notMem : separator ∉ bucket :=
  h.notMem (by decide)

theorem not_isRemoved : ∀ c ∈ bucket, isRemoved c = false := by
  intro c hc
  rw [Bool.eq_false_iff]
  intro hremoved
  simp only [isRemoved, Bool.or_eq_true, decide_eq_true_eq] at hremoved
  rcases hremoved with (rfl | rfl) | rfl
  all_goals exact h.notMem (by decide) hc

theorem not_endsAuthority : ∀ c ∈ bucket, endsAuthority c = false := by
  intro c hc
  rw [Bool.eq_false_iff]
  intro hends
  simp only [endsAuthority, Bool.or_eq_true, decide_eq_true_eq] at hends
  rcases hends with (rfl | rfl) | rfl
  all_goals exact h.notMem (by decide) hc

/-- Nothing is wrong with the brackets of a plain name: it has none. -/
theorem bracketFault? : bracketFault? bucket = none := by
  have hopening : '[' ∉ bucket := h.notMem (by decide)
  have hclosing : ']' ∉ bucket := h.notMem (by decide)
  simp [Location.bracketFault?, hopening, hclosing]

theorem not_hasDelimiterForm : bucket.any hasDelimiterForm = false := by
  rw [List.any_eq_false]
  intro c hc
  have hlt := h.toNat_lt c hc
  simp only [hasDelimiterForm, List.contains_eq_mem, List.mem_cons, List.not_mem_nil, or_false,
    decide_eq_true_eq]
  omega

end IsPlain

/-! ### What the reader of locations finds -/

variable {bucket : List Char} {key : Key}

/-- The reader of locations finds the bucket and what it leaves of the key. -/
theorem parse_uriOf (hbucket : IsPlain bucket) (key : Key) :
    parse (uriOf bucket key) = .ok ⟨bucket, shown key⟩ := by
  have hkept : (uriOf bucket key).filter (!isRemoved ·) =
      scheme ++ (bucket ++ separator :: key.filter (!isRemoved ·)) := by
    have hname : bucket.filter (!isRemoved ·) = bucket := by
      rw [List.filter_eq_self]
      intro c hc
      rw [hbucket.not_isRemoved c hc]
      rfl
    rw [uriOf, rootOf, List.filter_append, List.filter_append, hname, List.append_assoc]
    rfl
  have hinside : ∀ c ∈ bucket, (!endsAuthority c) = true := by
    intro c hc
    rw [hbucket.not_endsAuthority c hc]
    rfl
  have hauthority : (bucket ++ separator :: key.filter (!isRemoved ·)).takeWhile
      (!endsAuthority ·) = bucket := by
    rw [List.takeWhile_append_of_pos hinside]
    exact List.append_nil bucket
  have hpath : (bucket ++ separator :: key.filter (!isRemoved ·)).dropWhile
      (!endsAuthority ·) = separator :: key.filter (!isRemoved ·) :=
    List.dropWhile_append_of_pos hinside
  have hscheme : scheme <+: uriOf bucket key :=
    (List.prefix_append ..).trans (List.prefix_append ..)
  rw [parse, if_neg (not_not_intro hscheme), hkept, List.drop_left]
  dsimp only
  rw [hauthority, hpath, hbucket.bracketFault?]
  dsimp only
  rw [hbucket.not_hasDelimiterForm, if_neg Bool.false_ne_true,
    if_neg (by simp [hbucket.ne_nil])]
  rfl

/-- What is left of a key cuts nothing. -/
theorem not_cuts_of_mem_shown {c : Char} (h : c ∈ shown key) : ¬ Cuts c := by
  have hquery := (List.dropWhile_suffix _).subset h
  have hfragment := (List.takeWhile_prefix _).subset hquery
  have hremoved := (List.takeWhile_prefix _).subset hfragment
  rintro (hc | rfl | rfl)
  · simp [hc] at hremoved
  · simpa using List.mem_takeWhile_imp hfragment
  · simpa using List.mem_takeWhile_imp hquery

/-- A normal key is left whole exactly if none of its characters cuts. -/
theorem shown_eq_iff (hkey : IsNormal key) : shown key = key ↔ ∀ c ∈ key, ¬ Cuts c := by
  constructor
  · intro h c hc
    exact not_cuts_of_mem_shown (h.symm ▸ hc)
  · intro h
    have hkept : key.filter (!isRemoved ·) = key := by
      rw [List.filter_eq_self]
      intro c hc
      simpa using fun hremoved => h c hc (Or.inl hremoved)
    have hfragment : key.takeWhile (· ≠ '#') = key :=
      List.takeWhile_eq_self_iff.mpr fun c hc => by
        simpa using fun heq => h c hc (Or.inr (Or.inl heq))
    have hquery : key.takeWhile (· ≠ '?') = key :=
      List.takeWhile_eq_self_iff.mpr fun c hc => by
        simpa using fun heq => h c hc (Or.inr (Or.inr heq))
    rw [shown, hkept, hfragment, hquery]
    refine trimStart_eq_self fun first hfirst => ?_
    rintro rfl
    obtain ⟨rest, rfl⟩ := List.head?_eq_some_iff.mp hfirst
    exact hkey.2 [] (by simp) rfl

end Location

/-! ### The file system at a URI -/

/-- A file system is opened without a request. -/
theorem CommandLine.returns_fileSystemAt {uri : Path} {location : Location}
    (h : Location.parse uri = .ok location) (connection : ConnectionConfig) (config : TreeConfig)
    (plan : Plan) (world : World) :
    (fileSystemAt uri connection config).Returns plan world fun fs after =>
      fs = { bucket := ⟨location.bucket⟩, config } ∧ after.store = world.store ∧
        after.requests = world.requests := by
  rw [fileSystemAt, h]
  exact ⟨_, _, rfl, rfl, rfl, rfl⟩

namespace Location

variable {bucket : List Char} {key : Key}

/-- Both readers find the bucket of the URI of a key. The file system that is opened at the URI
finds the key there, whatever its characters are. The reader of locations finds it too exactly if
none of them is a tab, a line break, `#` or `?`. -/
theorem readers_agree_iff (hbucket : IsPlain bucket) (hkey : IsNormal key)
    (connection : ConnectionConfig) (config : TreeConfig) (plan : Plan) (world : World) :
    parse (uriOf bucket key) = .ok ⟨bucket, shown key⟩ ∧
      normalize? (rootOf bucket) (uriOf bucket key) = some key ∧
      ((CommandLine.fileSystemAt (uriOf bucket key) connection config).Returns plan world
        fun fs after => fs.root = rootOf bucket ∧ after.store = world.store ∧
          fs.key (uriOf bucket key) = pure key) ∧
      (shown key = key ↔ ∀ c ∈ key, ¬ Cuts c) := by
  have hparse := parse_uriOf hbucket key
  have hread : normalize? (rootOf bucket) (uriOf bucket key) = some key := by
    rw [uriOf, normalize?_uri hbucket.ne_nil hbucket.separator_notMem,
      join_segments_of_isNormal hkey]
  refine ⟨hparse, hread, ?_, shown_eq_iff hkey⟩
  refine (CommandLine.returns_fileSystemAt hparse connection config plan world).mono ?_
  rintro fs after ⟨rfl, hstore, -⟩
  exact ⟨rfl, hstore, FileSystem.key_eq hread⟩

/-- The two readers agree on a key with segments that look like parts of a URI. -/
theorem readers_agree_oddSegments :
    IsPlain "b-1.x_Y".toList ∧ IsNormal "s3:/b;v=1/%3F&é".toList ∧
      parse "s3://b-1.x_Y/s3:/b;v=1/%3F&é".toList =
        .ok ⟨"b-1.x_Y".toList, "s3:/b;v=1/%3F&é".toList⟩ ∧
      normalize? (rootOf "b-1.x_Y".toList) "s3://b-1.x_Y/s3:/b;v=1/%3F&é".toList =
        some "s3:/b;v=1/%3F&é".toList := by
  have hbucket : IsPlain "b-1.x_Y".toList := ⟨by decide, by simp⟩
  have hkey : IsNormal "s3:/b;v=1/%3F&é".toList := by decide +kernel
  have huri : uriOf "b-1.x_Y".toList "s3:/b;v=1/%3F&é".toList =
      "s3://b-1.x_Y/s3:/b;v=1/%3F&é".toList := by decide +kernel
  obtain ⟨hparse, hread, -, hwhole⟩ := readers_agree_iff hbucket hkey .standard .standard .quiet
    { store := .holding [] [] }
  rw [hwhole.mpr (by simp [Cuts, isRemoved]), huri] at hparse
  rw [huri] at hread
  exact ⟨hbucket, hkey, hparse, hread⟩

/-- A URI of a key with a question mark is read as two keys. -/
theorem parse_uriOf_query :
    IsPlain ['b'] ∧ IsNormal "a?b".toList ∧
      parse (uriOf ['b'] "a?b".toList) = .ok ⟨['b'], ['a']⟩ ∧
      normalize? (rootOf ['b']) (uriOf ['b'] "a?b".toList) = some "a?b".toList :=
  ⟨⟨by decide, by simp⟩, by decide +kernel, by decide +kernel, by decide +kernel⟩

end Location

end KeyTree
