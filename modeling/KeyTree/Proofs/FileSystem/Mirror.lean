import KeyTree.Proofs.FileSystem.Writes
import KeyTree.Proofs.Key.Ancestry
import KeyTree.Proofs.Listing.Whole
import KeyTree.Proofs.Matching

/-!
# Mirrored questions

Two runs of one operation end alike if each of its requests does, and a file system with another
page size sends the same requests but for those that fetch the pages of a listing. So it is enough
to compare the requests: look-ups, writes and removals of single objects, and listings as a whole.
The keys that may be looked at and those that may be written are given by two predicates, so that
the comparison can be confined to a part of the bucket.

This file carries the comparison from the requests to the questions about paths and to the
listings.

## Main definitions

* `FileSystem.withPageSize` — a file system with another page size.
* `FileSystem.Mirror` — comparisons in which the requests about keys of some kind end alike.
* `FileSystem.Mirror.Opens` — keys whose tree may be looked at and whose marker may be written.

## Main results

* `Mirror.matches_isDirectory`, `Mirror.matches_exists?`, `Mirror.matches_metadata`,
  `Mirror.matches_listStatus` — questions and listings.
-/

namespace KeyTree.FileSystem

open Key Listing

/-- The file system with another page size. -/
def withPageSize (fs : FileSystem) (size : Nat) (hsize : 0 < size) : FileSystem :=
  { fs with config := { fs.config with pageSize := size, pageSize_pos := hsize } }

/-- Replies that go together: results that do, or one fault. -/
inductive SameReply {ε α : Type} (same : α → α → Prop) : Except ε α → Except ε α → Prop
  | ok {a b : α} (h : same a b) : SameReply same (.ok a) (.ok b)
  | error (fault : ε) : SameReply same (.error fault) (.error fault)

theorem SameReply.eq {ε α : Type} {reply reply' : Except ε α} (h : SameReply Eq reply reply') :
    reply = reply' := by
  cases h with
  | ok h => rw [h]
  | error => rfl

/-- Replies about objects of the same look. -/
def SameHead (view : Instant → Instant) (a b : HeadReply) : Prop :=
  ∃ o o' : Object, o.seen view = o'.seen view ∧ a = ⟨o.body.length, .known o.modified⟩ ∧
    b = ⟨o'.body.length, .known o'.modified⟩

/-- Metadata of objects of the same look. -/
def SameMetadata (view : Instant → Instant) (a b : Metadata) : Prop :=
  ∃ o o' : Object, o.seen view = o'.seen view ∧ a = ⟨o.body.length, some o.modified⟩ ∧
    b = ⟨o'.body.length, some o'.modified⟩

/-- A look-up ends alike if its request does. -/
theorem matches_metadata_of_send {c : Comparison} {view : Instant → Instant} {bucket : Bucket}
    {key : Key} (h : c.Matches (SameReply (SameHead view)) (send bucket.name (.head key))
      (send bucket.name (.head key))) :
    c.Matches (SameReply (Option.Rel (SameMetadata view))) (bucket.metadata key)
      (bucket.metadata key) := by
  refine h.bind fun reply reply' hreply => ?_
  cases hreply with
  | ok hsame =>
    obtain ⟨o, o', hseen, rfl, rfl⟩ := hsame
    exact Comparison.matches_pure (.ok (.some ⟨o, o', hseen, rfl, rfl⟩))
  | error fault =>
    refine Comparison.matches_pure ?_
    split
    · exact .ok .none
    · exact .error fault

/-- The entries of one directory in related worlds. -/
def SameEntries (c : Comparison) (suffix : List Char) (key : Key) (recursive : Bool)
    (entries entries' : List Status) : Prop :=
  ∃ world other, c.related world other ∧
    entries = Status.entriesOf suffix world.store.objects key recursive ∧
    entries' = Status.entriesOf suffix other.store.objects key recursive

/-- A comparison is a *mirror* of a file system and the one with another page size when requests
about single keys end alike on both sides, as far as the keys may be looked at or written, and the
pages of a listing are those of related worlds. -/
structure Mirror (c : Comparison) (fs : FileSystem) (size : Nat) (hsize : 0 < size)
    (view : Instant → Instant) (reads writes : Key → Prop) : Prop where
  named : ∃ ch ∈ fs.bucket.name, ch ≠ separator
  notes : c.Notes
  agree : ∀ world other, c.related world other →
    Objects.Agree view reads world.store.objects other.store.objects
  metadata : ∀ key, reads key → c.Matches (SameReply (Option.Rel (SameMetadata view)))
    (fs.bucket.metadata key) (fs.bucket.metadata key)
  read : ∀ key, reads key → c.Matches Eq (fs.bucket.read key) (fs.bucket.read key)
  write : ∀ key body length, writes key →
    c.Matches Eq (fs.bucket.write key body length) (fs.bucket.write key body length)
  upload : ∀ key body, writes key →
    c.Matches Eq (fs.bucket.upload key body) (fs.bucket.upload key body)
  delete : ∀ key, reads key → c.Matches Eq (fs.bucket.delete key) (fs.bucket.delete key)
  copy : ∀ source target, reads source → writes target →
    c.Matches Eq (fs.bucket.copy source target) (fs.bucket.copy source target)
  listOne : ∀ key, (∀ k, childPrefix key <+: k → reads k) →
    c.Matches (SameReply fun page page' : Page => page.isEmpty = page'.isEmpty)
      (fs.bucket.list (childPrefix key) [separator] 1 none)
      (fs.bucket.list (childPrefix key) [separator] 1 none)
  allPages : ∀ key recursive, (∀ k, childPrefix key <+: k → reads k) →
    c.Matches
      (Option.Rel fun found found' => ∃ world other, c.related world other ∧
        found = pages fs.config.pageSize
          (items world.store.objects (childPrefix key) (delimiterOf recursive)) ∧
        found' = pages size
          (items other.store.objects (childPrefix key) (delimiterOf recursive)))
      (fs.allPages key recursive) ((fs.withPageSize size hsize).allPages key recursive)

namespace Mirror

/-- Keys that may be looked at and written with their markers, and below which may be looked. -/
structure Opens (suffix : List Char) (reads writes : Key → Prop) (key : Key) : Prop where
  reads_key : reads key
  writes_key : writes key
  reads_marker : reads (marker suffix key)
  writes_marker : writes (marker suffix key)
  reads_below : ∀ k, childPrefix key <+: k → reads k

/-- Every key is open where everything may be looked at and written. -/
theorem opens_all (suffix : List Char) (key : Key) :
    Opens suffix (fun _ => True) (fun _ => True) key :=
  ⟨trivial, trivial, trivial, trivial, fun _ _ => trivial⟩

variable {c : Comparison} {fs : FileSystem} {size : Nat} {hsize : 0 < size}
  {view : Instant → Instant} {reads writes : Key → Prop} {path : Path} {key : Key}
  (m : Mirror c fs size hsize view reads writes)

include m

theorem namesBucket : NamesBucket fs.root :=
  ⟨fs.bucket.name, rfl, m.named⟩

/-- The key of a path is a path to itself. -/
theorem normalize?_key (hpath : normalize? fs.root path = some key) :
    normalize? fs.root key = some key := by
  rcases isNormal_of_normalize? hpath with rfl | hkey
  · exact normalize?_nil m.namesBucket
  · exact normalize?_of_isNormal m.namesBucket hkey

omit m in
/-- The key of a path is the same on both sides, or the path lies outside on both. -/
theorem matches_key (houtside : normalize? fs.root path = none → c.raises (.outside path fs.root)) :
    c.Matches (fun key key' => key' = key ∧ normalize? fs.root path = some key) (fs.key path)
      (fs.key path) := by
  rcases hpath : normalize? fs.root path with _ | key
  · rw [FileSystem.key, hpath]
    exact Comparison.matches_throw (houtside hpath)
  · rw [key_eq hpath]
    exact Comparison.matches_pure ⟨rfl, rfl⟩

omit m in
/-- What starts with the key of a path is compared for the key, once it is known. -/
theorem matches_key_bind {α β : Type} {same : α → β → Prop} {f : Key → StoreM α}
    {g : Key → StoreM β}
    (houtside : normalize? fs.root path = none → c.raises (.outside path fs.root))
    (h : ∀ key, normalize? fs.root path = some key → c.Matches same (f key) (g key)) :
    c.Matches same (fs.key path >>= f) (fs.key path >>= g) := by
  refine (matches_key houtside).bind ?_
  rintro key _ ⟨rfl, hpath⟩
  exact h _ hpath

/-! ### Classification -/

theorem matches_classifyBelow (hbelow : ∀ k, childPrefix key <+: k → reads k) :
    c.Matches Eq (fs.classifyBelow key) (fs.classifyBelow key) := by
  refine (m.listOne key hbelow).bind fun reply reply' hreply => ?_
  cases hreply with
  | ok hempty =>
    refine Comparison.matches_pure ?_
    rw [hempty]
  | error fault => exact Comparison.matches_log_bind m.notes (Comparison.matches_pure rfl)

section

variable (houtside : normalize? fs.root path = none → c.raises (.outside path fs.root))
  (hopens : ∀ key, normalize? fs.root path = some key → key ≠ [] →
    Opens fs.config.suffix reads writes key)

include hopens

include houtside in
theorem matches_classify : c.Matches Eq (fs.classify path) (fs.classify path) := by
  refine matches_key_bind houtside fun key hpath => ?_
  dsimp only
  by_cases hkey : key = []
  · rw [if_pos (by simp [isRoot, hkey])]
    exact Comparison.matches_pure rfl
  rw [if_neg (by simpa [isRoot] using hkey), markerKey_eq (m.normalize?_key hpath), pure_bind]
  have hbelow := m.matches_classifyBelow (hopens key hpath hkey).reads_below
  refine (m.metadata _ (hopens key hpath hkey).reads_marker).bind fun reply reply' hreply => ?_
  cases hreply with
  | ok hfound =>
    cases hfound with
    | some _ => exact Comparison.matches_pure rfl
    | none => exact hbelow
  | error fault => exact Comparison.matches_log_bind m.notes hbelow

include houtside in
theorem matches_ensureMarker : c.Matches Eq (fs.ensureMarker path) (fs.ensureMarker path) := by
  refine matches_key_bind houtside fun key hpath => ?_
  by_cases hkey : key = []
  · rw [if_pos (by simp [isRoot, hkey])]
    exact Comparison.matches_pure rfl
  rw [if_neg (by simpa [isRoot] using hkey), markerKey_eq (m.normalize?_key hpath), pure_bind]
  refine (m.write _ _ _ (hopens key hpath hkey).writes_marker).bind_eq fun reply => ?_
  cases reply with
  | ok _ => exact Comparison.matches_log_bind m.notes (Comparison.matches_pure rfl)
  | error fault => exact Comparison.matches_log_bind m.notes (Comparison.matches_pure rfl)

/-! ### Questions -/

theorem matches_isDirectory : c.Matches Eq (fs.isDirectory path) (fs.isDirectory path) := by
  rcases hpath : normalize? fs.root path with _ | key
  · simp only [isDirectory, hpath, warnOutside]
    exact Comparison.matches_log_bind m.notes (Comparison.matches_pure rfl)
  · have hinside : normalize? fs.root path = none → c.raises (.outside path fs.root) := by
      simp [hpath]
    simp only [isDirectory, hpath]
    refine (m.matches_classify hinside hopens).bind_eq fun kind => ?_
    split
    · refine Comparison.matches_log_bind m.notes ?_
      exact (m.matches_ensureMarker hinside hopens).bind_eq fun _ => Comparison.matches_pure rfl
    · exact Comparison.matches_pure rfl

theorem matches_isFile : c.Matches Eq (fs.isFile path) (fs.isFile path) := by
  rcases hpath : normalize? fs.root path with _ | key
  · simp only [isFile, hpath, warnOutside]
    exact Comparison.matches_log_bind m.notes (Comparison.matches_pure rfl)
  · by_cases hkey : key = []
    · rw [isFile_root hpath hkey]
      exact Comparison.matches_pure rfl
    · simp only [isFile, hpath]
      rw [if_neg (by simpa [isRoot] using hkey)]
      refine (m.metadata key (hopens key hpath hkey).reads_key).bind fun reply reply' hreply => ?_
      cases hreply with
      | ok hfound => exact Comparison.matches_pure (by cases hfound <;> rfl)
      | error fault => exact Comparison.matches_log_bind m.notes (Comparison.matches_pure rfl)

theorem matches_exists? : c.Matches Eq (fs.exists? path) (fs.exists? path) := by
  refine (m.matches_isFile hopens).bind_eq fun found => ?_
  cases found with
  | true => exact Comparison.matches_pure rfl
  | false => exact m.matches_isDirectory hopens

/-- A key that a path has may be asked about by its own name. -/
theorem opens_key (hpath : normalize? fs.root path = some key) :
    ∀ key', normalize? fs.root key = some key' → key' ≠ [] →
      Opens fs.config.suffix reads writes key' := by
  intro key' hkey'
  obtain rfl := Option.some.inj ((m.normalize?_key hpath).symm.trans hkey')
  exact hopens _ hpath

end

/-- The key of a parent is a path to itself. -/
theorem normalize?_parent {parent : Key} (hchild : IsChild parent key) :
    normalize? fs.root parent = some parent :=
  hchild.parent_normal.elim (fun h => h ▸ normalize?_nil m.namesBucket)
    (normalize?_of_isNormal m.namesBucket)

section

variable (houtside : normalize? fs.root path = none → c.raises (.outside path fs.root))
  (hchain : ∀ key, normalize? fs.root path = some key → ∀ k ∈ chain key,
    Opens fs.config.suffix reads writes k)

omit m in
include hchain in
theorem opens_of_chain : ∀ key, normalize? fs.root path = some key → key ≠ [] →
    Opens fs.config.suffix reads writes key :=
  fun key hpath hkey => hchain key hpath key (mem_chain_iff.mpr ⟨hkey, Or.inl rfl⟩)

/-- If the chain of a key is open, then so is that of its parent. -/
theorem chain_parent {parent : Key} (hchild : IsChild parent key)
    (hchain : ∀ k ∈ chain key, Opens fs.config.suffix reads writes k) :
    ∀ key', normalize? fs.root parent = some key' → ∀ k ∈ chain key',
      Opens fs.config.suffix reads writes k := by
  rintro _ h k hk
  obtain rfl := Option.some.inj ((m.normalize?_parent hchild).symm.trans h)
  exact hchain k (hchild.mem_chain_of_parent hk)

include houtside hchain in
/-- Asking for the parent is asking about its key. -/
theorem matches_parentExists : c.Matches Eq (fs.parentExists path) (fs.parentExists path) := by
  refine matches_key_bind houtside fun key hpath => ?_
  rcases isNormal_of_normalize? hpath with rfl | hkey
  · exact Comparison.matches_pure rfl
  · obtain ⟨parent, hchild⟩ := hkey.exists_parent
    rw [hchild.parent?_eq]
    exact m.matches_isDirectory (opens_of_chain (m.chain_parent hchild (hchain key hpath)))

end

/-! ### Metadata, bodies and listings -/

variable (houtside : normalize? fs.root path = none → c.raises (.outside path fs.root))
  (hopens : ∀ key, normalize? fs.root path = some key → Opens fs.config.suffix reads writes key)

include houtside hopens

/-- The metadata is that of objects of the same look, or there is none on both sides. -/
theorem matches_metadata (hnotFound : c.raises (.notFound path)) :
    c.Matches (SameMetadata view) (fs.metadata path) (fs.metadata path) := by
  refine matches_key_bind houtside fun key hpath => ?_
  have hlookup : ∀ object, reads object →
      c.Matches (SameMetadata view) (fs.lookUp path key object) (fs.lookUp path key object) := by
    intro object hreads
    refine (m.metadata object hreads).bind fun reply reply' hreply => ?_
    cases hreply with
    | ok hfound =>
      cases hfound with
      | some hsame => exact Comparison.matches_pure hsame
      | none => exact Comparison.matches_throw hnotFound
    | error fault =>
      exact Comparison.matches_log_bind m.notes (Comparison.matches_throw hnotFound)
  refine (m.matches_isDirectory (m.opens_key (fun key h _ => hopens key h) hpath)).bind_eq
    fun found => ?_
  cases found with
  | true =>
    rw [markerKey_eq (m.normalize?_key hpath)]
    exact hlookup _ (hopens key hpath).reads_marker
  | false => exact hlookup _ (hopens key hpath).reads_key

theorem matches_fileSize (hnotFound : c.raises (.notFound path)) :
    c.Matches Eq (fs.fileSize path) (fs.fileSize path) := by
  refine (m.matches_metadata houtside hopens hnotFound).bind_pure ?_
  rintro _ _ ⟨o, o', hseen, rfl, rfl⟩
  rw [Object.body_eq_of_seen hseen]

/-- The times are the same if they can be told from their view. -/
theorem matches_modificationMilliseconds (hview : Function.Injective view)
    (hnotFound : c.raises (.notFound path)) :
    c.Matches Eq (fs.modificationMilliseconds path) (fs.modificationMilliseconds path) := by
  refine (m.matches_metadata houtside hopens hnotFound).bind ?_
  rintro _ _ ⟨o, o', hseen, rfl, rfl⟩
  obtain rfl := Object.seen_injective hview hseen
  exact Comparison.matches_pure rfl

theorem matches_open? : c.Matches Eq (fs.open? path) (fs.open? path) := by
  refine matches_key_bind houtside fun key hpath => ?_
  refine (m.read key (hopens key hpath).reads_key).bind_eq fun reply => ?_
  cases reply with
  | ok body => exact Comparison.matches_pure rfl
  | error fault => exact Comparison.matches_log_bind m.notes (Comparison.matches_pure rfl)

/-- The entries that are listed are those of related worlds. -/
theorem matches_listStatus (recursive : Bool) :
    c.Matches
      (Option.Rel fun entries entries' => ∃ key, normalize? fs.root path = some key ∧
        SameEntries c fs.config.suffix key recursive entries entries')
      (fs.listStatus path recursive) ((fs.withPageSize size hsize).listStatus path recursive) := by
  refine matches_key_bind houtside fun key hpath => ?_
  refine (m.matches_isDirectory (m.opens_key (fun key h _ => hopens key h) hpath)).bind_eq
    fun found => ?_
  cases found with
  | false => exact Comparison.matches_pure .none
  | true =>
    refine (m.allPages key recursive (hopens key hpath).reads_below).bind_pure ?_
    rintro _ _ (⟨world, other, hrelated, rfl, rfl⟩ | _)
    · refine .some ⟨key, hpath, world, other, hrelated, ?_, ?_⟩
      · exact Status.ofPages_pages fs.config.suffix_ne_nil fs.config.separator_notMem_suffix
          fs.config.pageSize_pos
      · exact Status.ofPages_pages fs.config.suffix_ne_nil fs.config.separator_notMem_suffix hsize
    · exact .none

omit houtside hopens in
/-- Entries of related worlds are the same up to their times. -/
theorem map_seen_eq {recursive : Bool} {entries entries' : List Status}
    (hbelow : ∀ k, childPrefix key <+: k → reads k)
    (h : SameEntries c fs.config.suffix key recursive entries entries') :
    entries.map (Status.seen view) = entries'.map (Status.seen view) := by
  obtain ⟨world, other, hrelated, rfl, rfl⟩ := h
  exact Status.entriesOf_agree ((m.agree world other hrelated).anti hbelow)

theorem matches_listNames (recursive : Bool) :
    c.Matches Eq (fs.listNames path recursive)
      ((fs.withPageSize size hsize).listNames path recursive) := by
  refine (m.matches_listStatus houtside hopens recursive).bind_pure ?_
  rintro _ _ (⟨key, hpath, hsame⟩ | _)
  · have hseen := m.map_seen_eq (hopens key hpath).reads_below hsame
    have hnames := congrArg (List.map Status.name) hseen
    rw [List.map_map, List.map_map] at hnames
    exact congrArg some hnames
  · rfl

end Mirror

end KeyTree.FileSystem
