import KeyTree.Proofs.FileSystem.Footprint
import KeyTree.Proofs.FileSystem.Mirror

/-!
# Mirrored changes

The comparison of two runs is carried on to the operations that create, remove and move. An
operation is made of questions, requests about single keys and listings, and both runs go through
the same of these, because the entries that a listing shows have the same names on both sides.

A rename of a directory calls itself for the directories in it, with less depth to spare. Which
calls can be followed is left open here: a family of calls has to be given that holds those that its
members make.

## Main definitions

* `FileSystem.Mirror.Descends` — families of renames that can be followed downwards.
* `PathCall.tellsTime` — the calls that answer with a time alone.
* `Session.Answer.seen` — an answer with its times viewed in some way.

## Main results

* `Mirror.matches_mkdirs`, `Mirror.matches_delete`, `Mirror.matches_renameFile`,
  `Mirror.matches_renameWithin` — changes of the tree.
* `Mirror.matches_performPath` — every call on paths.
-/

namespace KeyTree

open Key Listing

namespace FileSystem

/-! ### Page sizes and directories -/

section

variable (fs : FileSystem) (size : Nat) (hsize : 0 < size)

theorem ancestryWithin_withPageSize (count : Nat) (path : Path) :
    (fs.withPageSize size hsize).ancestryWithin count path = fs.ancestryWithin count path := by
  induction count generalizing path with
  | zero => rfl
  | succ count ih =>
    rw [ancestryWithin, ancestryWithin]
    simp only [ih]
    rfl

theorem mkdirsBelow_withPageSize (above : List Key) (path : Path) (createParent : Bool) :
    (fs.withPageSize size hsize).mkdirsBelow above path createParent =
      fs.mkdirsBelow above path createParent := by
  induction above generalizing path createParent with
  | nil => rfl
  | cons parent above ih =>
    rw [mkdirsBelow_eq, mkdirsBelow_eq, mkdirsAfter, mkdirsAfter, ih]
    rfl

/-- No listing is needed to create a directory. -/
theorem mkdirs_withPageSize (path : Option Path) (createParent : Bool) :
    (fs.withPageSize size hsize).mkdirs path createParent = fs.mkdirs path createParent := by
  cases path with
  | none => rfl
  | some path =>
    rw [mkdirs, mkdirs, ancestry, ancestry, ancestryWithin_withPageSize, mkdirsBelow_withPageSize]

theorem create_withPageSize (path : Path) (createParent : Bool) :
    (fs.withPageSize size hsize).create path createParent = fs.create path createParent := by
  rw [create, create]
  simp only [mkdirs_withPageSize]
  rfl

end

namespace Mirror

variable {c : Comparison} {fs : FileSystem} {size : Nat} {hsize : 0 < size}
  {view : Instant → Instant} {reads writes : Key → Prop} {path source target : Path} {key : Key}
  (m : Mirror c fs size hsize view reads writes)

include m

theorem matches_refuse (refusal : Refusal) : c.Matches Eq (refuse refusal) (refuse refusal) :=
  Comparison.matches_log_bind m.notes (Comparison.matches_pure rfl)

/-! ### Creating -/

section

variable (houtside : normalize? fs.root path = none → c.raises (.outside path fs.root))
  (hchain : ∀ key, normalize? fs.root path = some key → ∀ k ∈ chain key,
    Opens fs.config.suffix reads writes k)

include houtside hchain

theorem matches_mkdirsBelow_of_after {above : List Key} (createParent : Bool)
    (hafter : c.Matches Eq (fs.mkdirsAfter path above) (fs.mkdirsAfter path above)) :
    c.Matches Eq (fs.mkdirsBelow above path createParent)
      (fs.mkdirsBelow above path createParent) := by
  have hopens := opens_of_chain hchain
  rw [mkdirsBelow_eq]
  refine (m.matches_isDirectory hopens).bind_eq fun found => ?_
  cases found with
  | true => exact Comparison.matches_pure rfl
  | false =>
    refine (m.matches_isFile hopens).bind_eq fun found => ?_
    cases found with
    | true => exact m.matches_refuse _
    | false =>
      refine (m.matches_parentExists houtside hchain).bind_eq fun found => ?_
      cases found with
      | true => exact m.matches_ensureMarker houtside hopens
      | false =>
        cases createParent with
        | true => exact hafter
        | false => exact m.matches_refuse _

end

/-- The directories above a path are created from the top. -/
theorem matches_mkdirsBelow : ∀ (count : Nat) {path : Path} (createParent : Bool),
    (normalize? fs.root path = none → c.raises (.outside path fs.root)) →
    (∀ key, normalize? fs.root path = some key → ∀ k ∈ chain key,
      Opens fs.config.suffix reads writes k) →
    c.Matches Eq (fs.mkdirsBelow (fs.ancestryWithin count path) path createParent)
      (fs.mkdirsBelow (fs.ancestryWithin count path) path createParent) := by
  intro count
  induction count with
  | zero =>
    intro path createParent houtside hchain
    exact m.matches_mkdirsBelow_of_after houtside hchain createParent (Comparison.matches_pure rfl)
  | succ count ih =>
    intro path createParent houtside hchain
    refine m.matches_mkdirsBelow_of_after houtside hchain createParent ?_
    rw [ancestryWithin]
    split
    · exact Comparison.matches_pure rfl
    · rename_i parent hparent
      obtain ⟨key, hpath, hparent⟩ := Option.bind_eq_some_iff.mp hparent
      have hkey : IsNormal key :=
        (isNormal_of_normalize? hpath).resolve_left (by rintro rfl; cases hparent)
      obtain ⟨parent', hchild⟩ := hkey.exists_parent
      obtain rfl := Option.some.inj (hchild.parent?_eq.symm.trans hparent)
      refine (ih true (by simp [m.normalize?_parent hchild])
        (m.chain_parent hchild (hchain key hpath))).bind_eq fun made => ?_
      cases made with
      | true => exact m.matches_ensureMarker houtside (opens_of_chain hchain)
      | false => exact Comparison.matches_pure rfl

section

variable (houtside : normalize? fs.root path = none → c.raises (.outside path fs.root))
  (hchain : ∀ key, normalize? fs.root path = some key → ∀ k ∈ chain key,
    Opens fs.config.suffix reads writes k)

include houtside hchain

theorem matches_mkdirs (createParent : Bool) :
    c.Matches Eq (fs.mkdirs (some path) createParent) (fs.mkdirs (some path) createParent) :=
  m.matches_mkdirsBelow _ createParent houtside hchain

/-- A stream is opened for the key of the path. -/
theorem matches_create (createParent : Bool)
    (hnoParent : createParent = true → c.raises (.noParent path)) :
    c.Matches
      (fun stream stream' => stream' = stream ∧ ∃ key, normalize? fs.root path = some key ∧
        stream = { bucket := fs.bucket, key })
      (fs.create path createParent) (fs.create path createParent) := by
  refine matches_key_bind houtside fun key hpath => ?_
  cases createParent with
  | false => exact Comparison.matches_pure ⟨rfl, key, hpath, rfl⟩
  | true =>
    rcases isNormal_of_normalize? hpath with rfl | hkey
    · exact Comparison.matches_pure ⟨rfl, [], hpath, rfl⟩
    · obtain ⟨parent, hchild⟩ := hkey.exists_parent
      dsimp only
      rw [if_pos rfl, hchild.parent?_eq]
      refine (m.matches_mkdirs (by simp [m.normalize?_parent hchild])
        (m.chain_parent hchild (hchain key hpath)) true).bind_eq fun made => ?_
      cases made with
      | true => exact Comparison.matches_pure ⟨rfl, key, hpath, rfl⟩
      | false => exact Comparison.matches_throw (hnoParent rfl)

end

/-- Closing a stream stores its object or tells why it could not be stored. -/
theorem matches_store {stream : OutputStream} (hbucket : stream.bucket = fs.bucket)
    (hwrites : writes stream.key) (hraises : ∀ fault, c.raises (.service fault)) :
    c.Matches Eq stream.store stream.store := by
  rw [OutputStream.store]
  split
  · exact Comparison.matches_pure rfl
  · rw [hbucket]
    refine (m.upload _ _ hwrites).bind_eq fun reply => ?_
    cases reply with
    | ok _ => exact Comparison.matches_log m.notes
    | error fault => exact Comparison.matches_throw (hraises fault)

/-! ### Removing -/

theorem matches_deleteKey (hreads : reads key) :
    c.Matches Eq (fs.deleteKey key) (fs.deleteKey key) := by
  refine (m.delete key hreads).bind_eq fun reply => ?_
  cases reply with
  | ok _ => exact Comparison.matches_pure rfl
  | error fault => exact Comparison.matches_log_bind m.notes (Comparison.matches_pure rfl)

/-- The keys below a directory are the same on both sides. -/
theorem matches_subtreeKeys (hbelow : ∀ k, childPrefix key <+: k → reads k) :
    c.Matches (fun keys keys' => keys = keys' ∧ ∀ l ∈ keys, ∀ k ∈ l, reads k)
      (fs.subtreeKeys key) ((fs.withPageSize size hsize).subtreeKeys key) := by
  have hkeys : ∀ {size : Nat} (_ : 0 < size) (objects : Objects),
      ((pages size (items objects (childPrefix key) (delimiterOf true))).flatMap
        fun page => page.objects.map Summary.key) = objects.keysUnder (childPrefix key) := by
    intro size hsize objects
    rw [← List.map_flatMap, flatMap_objects_pages hsize, filterMap_summary?_recursive]
  refine (m.allPages key true hbelow).map ?_
  rintro _ _ (⟨world, other, hrelated, rfl, rfl⟩ | _)
  · rw [Option.map_some, Option.map_some, hkeys fs.config.pageSize_pos, hkeys hsize]
    refine ⟨congrArg some ((m.agree world other hrelated).anti hbelow).keysUnder_eq, ?_⟩
    rintro l hl k hk
    obtain rfl := Option.some.inj hl
    exact hbelow k (Objects.mem_keysUnder_iff.mp hk).2
  · exact ⟨rfl, nofun⟩

theorem matches_deleteKeys (directory : Key) {keys : List Key} (hreads : ∀ k ∈ keys, reads k) :
    c.Matches Eq (fs.deleteKeys directory keys) (fs.deleteKeys directory keys) := by
  refine Comparison.matches_allM (List.forall₂_same.mpr fun _ _ => rfl) ?_
  rintro k _ hk rfl
  refine (m.matches_deleteKey (hreads k hk)).bind_eq fun done => ?_
  exact Comparison.matches_recorded m.notes done

section

variable (houtside : normalize? fs.root path = none → c.raises (.outside path fs.root))
  (hopens : ∀ key, normalize? fs.root path = some key → Opens fs.config.suffix reads writes key)

include houtside hopens

theorem matches_deleteFile : c.Matches Eq (fs.deleteFile path) (fs.deleteFile path) :=
  matches_key_bind houtside fun key hpath => m.matches_deleteKey (hopens key hpath).reads_key

omit houtside in
theorem matches_clearDirectory (hpath : normalize? fs.root path = some key) (recursive : Bool)
    (hnotEmpty : recursive = false → c.raises (.notEmpty path)) :
    c.Matches Eq (fs.clearDirectory path key recursive)
      ((fs.withPageSize size hsize).clearDirectory path key recursive) := by
  have hbelow := (hopens key hpath).reads_below
  cases recursive with
  | true =>
    refine (m.matches_subtreeKeys hbelow).bind ?_
    rintro keys _ ⟨rfl, hreads⟩
    cases keys with
    | none => exact Comparison.matches_pure rfl
    | some keys => exact m.matches_deleteKeys key (hreads keys rfl)
  | false =>
    have hself := m.normalize?_key hpath
    refine (m.matches_listStatus (by simp [hself]) ?_ false).bind ?_
    · rintro _ h
      obtain rfl := Option.some.inj (hself.symm.trans h)
      exact hopens _ hpath
    rintro _ _ (⟨key', hkey', hsame⟩ | _)
    · obtain rfl := Option.some.inj (hself.symm.trans hkey')
      rename_i entries entries'
      have hlength := congrArg List.length (m.map_seen_eq hbelow hsame)
      rw [List.length_map, List.length_map] at hlength
      cases entries with
      | nil =>
        obtain rfl := List.length_eq_zero_iff.mp hlength.symm
        exact Comparison.matches_pure rfl
      | cons entry entries =>
        obtain ⟨entry', entries', rfl⟩ := List.exists_cons_of_length_eq_add_one hlength.symm
        exact Comparison.matches_throw (hnotEmpty rfl)
    · exact Comparison.matches_log_bind m.notes (Comparison.matches_pure rfl)

theorem matches_deleteDirectory (recursive : Bool)
    (hnotEmpty : recursive = false → c.raises (.notEmpty path)) :
    c.Matches Eq (fs.deleteDirectory path recursive)
      ((fs.withPageSize size hsize).deleteDirectory path recursive) := by
  refine matches_key_bind houtside fun key hpath => ?_
  refine (m.matches_clearDirectory hopens hpath recursive hnotEmpty).bind_eq fun cleared => ?_
  cases cleared with
  | false => exact Comparison.matches_pure rfl
  | true =>
    have hmarker : c.Matches Eq (fs.markerKey key >>= fs.deleteKey)
        (fs.markerKey key >>= fs.deleteKey) := by
      rw [markerKey_eq (m.normalize?_key hpath), pure_bind]
      exact m.matches_deleteKey (hopens key hpath).reads_marker
    cases key with
    | nil => exact Comparison.matches_pure rfl
    | cons ch key => exact hmarker

theorem matches_delete (recursive : Bool)
    (hnotEmpty : recursive = false → c.raises (.notEmpty path)) :
    c.Matches Eq (fs.delete path recursive)
      ((fs.withPageSize size hsize).delete path recursive) := by
  have hopens' : ∀ key, normalize? fs.root path = some key → key ≠ [] →
      Opens fs.config.suffix reads writes key := fun key hpath _ => hopens key hpath
  refine (m.matches_isFile hopens').bind_eq fun found => ?_
  cases found with
  | true => exact m.matches_deleteFile houtside hopens
  | false =>
    refine (m.matches_isDirectory hopens').bind_eq fun found => ?_
    cases found with
    | true => exact m.matches_deleteDirectory houtside hopens recursive hnotEmpty
    | false => exact m.matches_refuse _

end

/-! ### Moving -/

theorem matches_copyKey {sourceKey targetKey : Key} (hreads : reads sourceKey)
    (hwrites : writes targetKey) :
    c.Matches Eq (fs.copyKey sourceKey targetKey) (fs.copyKey sourceKey targetKey) := by
  refine Comparison.matches_log_bind m.notes ?_
  refine (m.copy sourceKey targetKey hreads hwrites).bind_eq fun reply => ?_
  cases reply with
  | ok _ => exact Comparison.matches_pure rfl
  | error fault => exact Comparison.matches_log_bind m.notes (Comparison.matches_pure rfl)

section

variable (houtside : ∀ path ∈ [source, target], normalize? fs.root path = none →
    c.raises (.outside path fs.root))
  (hopens : ∀ path ∈ [source, target], ∀ key, normalize? fs.root path = some key →
    Opens fs.config.suffix reads writes key)

include houtside hopens

theorem matches_renameFile :
    c.Matches Eq (fs.renameFile source target) (fs.renameFile source target) := by
  have hsource : source ∈ [source, target] := List.mem_cons_self
  have htarget : target ∈ [source, target] := List.mem_cons_of_mem _ List.mem_cons_self
  refine (m.matches_isFile fun key h _ => hopens source hsource key h).bind_eq fun found => ?_
  cases found with
  | false => exact m.matches_refuse _
  | true =>
    refine (m.matches_exists? fun key h _ => hopens target htarget key h).bind_eq fun taken => ?_
    cases taken with
    | true => exact m.matches_refuse _
    | false =>
      refine matches_key_bind (houtside source hsource) fun sourceKey hsourceKey => ?_
      refine matches_key_bind (houtside target htarget) fun targetKey htargetKey => ?_
      have hreads := (hopens source hsource sourceKey hsourceKey).reads_key
      have hwrites := (hopens target htarget targetKey htargetKey).writes_key
      refine (m.matches_copyKey hreads hwrites).bind_eq fun copied => ?_
      cases copied with
      | true => exact m.matches_deleteKey hreads
      | false => exact Comparison.matches_pure rfl

end

/-- A file is renamed alike between open keys. -/
theorem matches_renameFile_key {S T : Key} (hsource : normalize? fs.root S = some S)
    (htarget : normalize? fs.root T = some T)
    (hsourceOpens : Opens fs.config.suffix reads writes S)
    (htargetOpens : Opens fs.config.suffix reads writes T) :
    c.Matches Eq (fs.renameFile S T) (fs.renameFile S T) := by
  refine m.matches_renameFile ?_ ?_
  · intro path hmem hnone
    rcases List.mem_pair.mp hmem with rfl | rfl
    · exact absurd (hsource.symm.trans hnone) (Option.some_ne_none _)
    · exact absurd (htarget.symm.trans hnone) (Option.some_ne_none _)
  · intro path hmem key hkey
    rcases List.mem_pair.mp hmem with rfl | rfl
    · obtain rfl := Option.some.inj (hsource.symm.trans hkey)
      exact hsourceOpens
    · obtain rfl := Option.some.inj (htarget.symm.trans hkey)
      exact htargetOpens

/-- The target of a rename of a directory below the root. -/
theorem matches_establishTarget {S T : Key} (hsource : normalize? fs.root S = some S)
    (htarget : normalize? fs.root T = some T)
    (hsourceOpens : Opens fs.config.suffix reads writes S)
    (htargetOpens : Opens fs.config.suffix reads writes T) :
    c.Matches Eq (fs.establishTarget S T) (fs.establishTarget S T) := by
  have hopens : ∀ {key : Key}, normalize? fs.root key = some key →
      Opens fs.config.suffix reads writes key →
      ∀ key', normalize? fs.root key = some key' → key' ≠ [] →
        Opens fs.config.suffix reads writes key' := by
    rintro key hself hkey key' hkey' -
    obtain rfl := Option.some.inj (hself.symm.trans hkey')
    exact hkey
  refine (m.matches_classify (by simp [hsource]) (hopens hsource hsourceOpens)).bind_eq
    fun kind => ?_
  split
  · rw [markerKey_eq hsource, markerKey_eq htarget, pure_bind, pure_bind]
    exact m.matches_copyKey hsourceOpens.reads_marker htargetOpens.writes_marker
  · exact m.matches_ensureMarker (by simp [htarget]) (hopens htarget htargetOpens)

end Mirror

/-- Calls of renames of directories, with the depth that they have to spare, that a comparison can
*descend*: their paths are open, they may run out of depth only if that is allowed, and the entries
of their source are open below the source and below the target, and may be renamed in turn. -/
structure Mirror.Descends (c : Comparison) (fs : FileSystem) (reads writes : Key → Prop)
    (fits : Nat → Path → Path → Prop) : Prop where
  outside : ∀ depth source target, fits (depth + 1) source target → ∀ path ∈ [source, target],
    normalize? fs.root path = none → c.raises (.outside path fs.root)
  opens : ∀ depth source target, fits (depth + 1) source target → ∀ path ∈ [source, target],
    ∀ key, normalize? fs.root path = some key → key ≠ [] →
      Mirror.Opens fs.config.suffix reads writes key
  ends : ∀ source target, fits 0 source target → c.raises .endlessTree
  entry : ∀ depth source target S T, fits (depth + 1) source target →
    normalize? fs.root source = some S → normalize? fs.root target = some T →
    S ≠ [] → T ≠ [] → ¬ (T = S ∨ childPrefix S <+: T) →
    ∀ world other entry, c.related world other →
      entry ∈ Status.entriesOf fs.config.suffix world.store.objects S false →
      Mirror.Opens fs.config.suffix reads writes (S ++ separator :: entry.name) ∧
      Mirror.Opens fs.config.suffix reads writes (T ++ separator :: entry.name) ∧
      (entry.isDirectory = true →
        fits depth (S ++ separator :: entry.name) (T ++ separator :: entry.name))

namespace Mirror

variable {c : Comparison} {fs : FileSystem} {size : Nat} {hsize : 0 < size}
  {view : Instant → Instant} {reads writes : Key → Prop} {path source target : Path} {key : Key}
  (m : Mirror c fs size hsize view reads writes)

include m

/-- An entry is moved alike on both sides, if directories with less depth to spare are. -/
theorem matches_moveEntry {depth : Nat} {S T : Key} (hS : IsNormal S) (hT : IsNormal T)
    {entry entry' : Status} (hseen : entry.seen view = entry'.seen view) (hname : IsName entry.name)
    (hsource : Opens fs.config.suffix reads writes (S ++ separator :: entry.name))
    (htarget : Opens fs.config.suffix reads writes (T ++ separator :: entry.name))
    (ih : entry.isDirectory = true →
      c.Matches Eq
        (fs.renameWithin depth (S ++ separator :: entry.name) (T ++ separator :: entry.name))
        ((fs.withPageSize size hsize).renameWithin depth (S ++ separator :: entry.name)
          (T ++ separator :: entry.name))) :
    c.Matches Eq (fs.moveEntry depth source target S T entry)
      ((fs.withPageSize size hsize).moveEntry depth source target S T entry') := by
  have hsame : entry'.name = entry.name ∧ entry'.isDirectory = entry.isDirectory := by
    have h := (Status.mk.inj hseen).2.1
    exact ⟨(Status.mk.inj hseen).1.symm, h.symm⟩
  rw [moveEntry, moveEntry, hsame.1, hsame.2, hS.concat hname, hT.concat hname]
  have hself : ∀ key : Key, IsNormal key → normalize? fs.root key = some key :=
    fun key => normalize?_of_isNormal m.namesBucket
  have hSelf := hself _ (hS.child hname)
  have hTelf := hself _ (hT.child hname)
  cases hdirectory : entry.isDirectory with
  | true =>
    exact (ih hdirectory).bind_eq fun moved => Comparison.matches_recorded m.notes moved
  | false =>
    exact (m.matches_renameFile_key hSelf hTelf hsource htarget).bind_eq
      fun moved => Comparison.matches_recorded m.notes moved

/-- The entries of a directory are moved alike on both sides, if directories with less depth to
spare are. -/
theorem matches_moveEntries {depth : Nat} {S T : Key} (hS : IsNormal S) (hT : IsNormal T)
    (hopens : Opens fs.config.suffix reads writes S) {entries entries' : List Status}
    (hsame : SameEntries c fs.config.suffix S false entries entries')
    (ih : ∀ world other entry, c.related world other →
      entry ∈ Status.entriesOf fs.config.suffix world.store.objects S false →
      Opens fs.config.suffix reads writes (S ++ separator :: entry.name) ∧
      Opens fs.config.suffix reads writes (T ++ separator :: entry.name) ∧
      (entry.isDirectory = true → c.Matches Eq
        (fs.renameWithin depth (S ++ separator :: entry.name) (T ++ separator :: entry.name))
        ((fs.withPageSize size hsize).renameWithin depth (S ++ separator :: entry.name)
          (T ++ separator :: entry.name)))) :
    c.Matches Eq (fs.moveEntries depth source target S T entries)
      ((fs.withPageSize size hsize).moveEntries depth source target S T entries') := by
  have hself : normalize? fs.root S = some S := normalize?_of_isNormal m.namesBucket hS
  -- the entries were read in related worlds, and that is all that is known of them now
  have hseen : List.Forall₂ (fun a b => Status.seen view a = Status.seen view b)
      entries entries' := by
    have h := m.map_seen_eq hopens.reads_below hsame
    rwa [← List.forall₂_eq_eq_eq, List.forall₂_map_left_iff, List.forall₂_map_right_iff] at h
  obtain ⟨world, other, hrelated, rfl, rfl⟩ := hsame
  refine Comparison.Matches.bind_eq (Comparison.matches_allM hseen
    fun entry entry' hentry hsame => ?_) fun moved => ?_
  · obtain ⟨hchild, hchildTarget, hdeeper⟩ := ih _ _ entry hrelated hentry
    have hname := Status.isName_of_mem_entriesOf fs.config.suffix_ne_nil
      fs.config.separator_notMem_suffix hentry
    exact m.matches_moveEntry hS hT hsame hname hchild hchildTarget hdeeper
  · cases moved with
    | false => exact Comparison.matches_pure rfl
    | true =>
      refine m.matches_deleteDirectory (by simp [hself]) ?_ true Bool.noConfusion
      rintro _ h
      obtain rfl := Option.some.inj (hself.symm.trans h)
      exact hopens

variable {fits : Nat → Path → Path → Prop} (hfits : Descends c fs reads writes fits)

include hfits

/-- Calls that can be descended end alike. -/
theorem matches_renameWithin : ∀ (depth : Nat) {source target : Path}, fits depth source target →
    c.Matches Eq (fs.renameWithin depth source target)
      ((fs.withPageSize size hsize).renameWithin depth source target) := by
  intro depth
  induction depth with
  | zero => exact fun h => Comparison.matches_throw (hfits.ends _ _ h)
  | succ depth ih =>
    intro source target hcall
    have hopens := hfits.opens _ _ _ hcall
    have houtside := hfits.outside _ _ _ hcall
    have hsource : source ∈ [source, target] := List.mem_cons_self
    have htarget : target ∈ [source, target] := List.mem_cons_of_mem _ List.mem_cons_self
    rw [renameWithin, renameWithin]
    refine matches_key_bind (houtside source hsource) fun S hS => ?_
    refine matches_key_bind (houtside target htarget) fun T hT => ?_
    by_cases hroot : S = [] ∨ T = []
    · have hroot' : (isRoot S || isRoot T) = true := by simpa [isRoot] using hroot
      rw [if_pos hroot', if_pos hroot']
      exact m.matches_refuse _
    have hroot' : ¬ (isRoot S || isRoot T) = true := by simpa [isRoot] using hroot
    rw [if_neg hroot', if_neg hroot']
    by_cases hinside : T = S ∨ childPrefix S <+: T
    · rw [if_pos hinside, if_pos hinside]
      exact m.matches_refuse _
    rw [if_neg hinside, if_neg hinside]
    obtain ⟨hSnil, hTnil⟩ := not_or.mp hroot
    have hSnormal := (isNormal_of_normalize? hS).resolve_left hSnil
    have hTnormal := (isNormal_of_normalize? hT).resolve_left hTnil
    have hSopens := hopens source hsource S hS hSnil
    have hTopens := hopens target htarget T hT hTnil
    refine (m.matches_listStatus (houtside source hsource) ?_ false).bind ?_
    · rintro _ h
      obtain rfl := Option.some.inj (hS.symm.trans h)
      exact hSopens
    rintro _ _ (⟨S', hS', hsame⟩ | _)
    · obtain rfl := Option.some.inj (hS.symm.trans hS')
      rename_i entries entries'
      refine (m.matches_exists? (hopens target htarget)).bind_eq fun taken => ?_
      cases taken with
      | true => exact m.matches_refuse _
      | false =>
        refine (m.matches_establishTarget (m.normalize?_key hS) (m.normalize?_key hT) hSopens
          hTopens).bind_eq fun established => ?_
        cases established with
        | false => exact Comparison.matches_pure rfl
        | true =>
          refine m.matches_moveEntries hSnormal hTnormal hSopens hsame ?_
          intro world other entry hrelated hentry
          obtain ⟨hchild, hchildTarget, hdeeper⟩ :=
            hfits.entry _ _ _ S T hcall hS hT hSnil hTnil hinside _ _ entry hrelated hentry
          exact ⟨hchild, hchildTarget, fun hdirectory => ih (hdeeper hdirectory)⟩
    · exact Comparison.matches_log_bind m.notes (Comparison.matches_pure rfl)

end Mirror

end FileSystem

/-! ### Calls on paths -/

/-- The calls that answer with a time alone. -/
def PathCall.tellsTime : PathCall → Bool
  | .metadata _ | .modificationMilliseconds _ => true
  | _ => false

/-- The only error that a call on paths in the bucket may end with, if any. -/
def PathCall.error? : PathCall → Option Error
  | .metadata path | .fileSize path | .modificationMilliseconds path => some (.notFound path)
  | .delete path false | .deleteDirectory path false => some (.notEmpty path)
  | _ => none

/-- An answer with the times of its entries viewed in some way. -/
def Answer.seen (view : Instant → Instant) : Answer → Answer
  | .statuses entries => .statuses (entries.map (Status.seen view))
  | answer => answer

@[simp] theorem Answer.seen_id (answer : Answer) : answer.seen id = answer := by
  cases answer with
  | statuses entries => simp [Answer.seen]
  | _ => rfl

namespace FileSystem.Mirror

variable {c : Comparison} {fs : FileSystem} {size : Nat} {hsize : 0 < size}
  {view : Instant → Instant} {reads writes : Key → Prop}
  (m : Mirror c fs size hsize view reads writes)

include m

/-- Every call on open paths ends alike on both sides, if renames of directories do. -/
theorem matches_performPath (call : PathCall)
    (houtside : ∀ path ∈ call.paths, normalize? fs.root path = none →
      c.raises (.outside path fs.root))
    (hopens : ∀ path ∈ call.paths, ∀ key, normalize? fs.root path = some key →
      Opens fs.config.suffix reads writes key)
    (hchain : ∀ path ∈ call.paths, ∀ key, normalize? fs.root path = some key → ∀ k ∈ chain key,
      Opens fs.config.suffix reads writes k)
    (hraises : ∀ error, call.error? = some error → c.raises error)
    (hview : call.tellsTime = true → Function.Injective view)
    (hrename : ∀ source target, call = .renameDirectory source target →
      c.Matches Eq (fs.renameDirectory source target)
        ((fs.withPageSize size hsize).renameDirectory source target)) :
    c.Matches (fun a b => a.seen view = b.seen view) (Session.performPath fs call)
      (Session.performPath (fs.withPageSize size hsize) call) := by
  have hanswer : ∀ {α : Type} {x y : StoreM α} {f : α → Answer}, c.Matches Eq x y →
      c.Matches (fun a b => a.seen view = b.seen view) (x >>= fun a => pure (f a))
        (y >>= fun a => pure (f a)) :=
    fun h => h.bind_pure fun a b hab => by rw [hab]
  have hwhole : ∀ {path : Path}, path ∈ call.paths → ∀ key, normalize? fs.root path = some key →
      key ≠ [] → Opens fs.config.suffix reads writes key :=
    fun hmem key hpath _ => hopens _ hmem key hpath
  cases call with
  | key path =>
    refine (matches_key (houtside path List.mem_cons_self)).bind_pure ?_
    rintro key _ ⟨rfl, -⟩
    rfl
  | markerKey path =>
    refine hanswer ?_
    exact matches_key_bind (houtside path List.mem_cons_self)
      fun key _ => Comparison.matches_pure rfl
  | classify path =>
    exact hanswer (m.matches_classify (houtside path List.mem_cons_self)
      (hwhole List.mem_cons_self))
  | ensureMarker path =>
    exact hanswer (m.matches_ensureMarker (houtside path List.mem_cons_self)
      (hwhole List.mem_cons_self))
  | parentExists path =>
    exact hanswer (m.matches_parentExists (houtside path List.mem_cons_self)
      (hchain path List.mem_cons_self))
  | isDirectory path => exact hanswer (m.matches_isDirectory (hwhole List.mem_cons_self))
  | isFile path => exact hanswer (m.matches_isFile (hwhole List.mem_cons_self))
  | exists? path => exact hanswer (m.matches_exists? (hwhole List.mem_cons_self))
  | metadata path =>
    refine (m.matches_metadata (houtside path List.mem_cons_self) (hopens path List.mem_cons_self)
      (hraises _ rfl)).bind ?_
    rintro _ _ ⟨o, o', hseen, rfl, rfl⟩
    obtain rfl := Object.seen_injective (hview rfl) hseen
    exact Comparison.matches_pure rfl
  | fileSize path =>
    exact hanswer (m.matches_fileSize (houtside path List.mem_cons_self)
      (hopens path List.mem_cons_self) (hraises _ rfl))
  | modificationMilliseconds path =>
    exact hanswer (m.matches_modificationMilliseconds (houtside path List.mem_cons_self)
      (hopens path List.mem_cons_self) (hview rfl) (hraises _ rfl))
  | listStatus path recursive =>
    refine (m.matches_listStatus (houtside path List.mem_cons_self)
      (hopens path List.mem_cons_self) recursive).bind_pure ?_
    rintro _ _ (⟨key, hpath, hsame⟩ | _)
    · have hbelow := (hopens path List.mem_cons_self key hpath).reads_below
      exact congrArg Answer.statuses (m.map_seen_eq hbelow hsame)
    · rfl
  | listNames path recursive =>
    exact hanswer (m.matches_listNames (houtside path List.mem_cons_self)
      (hopens path List.mem_cons_self) recursive)
  | mkdirs path createParent =>
    cases path with
    | none => exact Comparison.matches_pure rfl
    | some path =>
      refine hanswer ?_
      rw [mkdirs_withPageSize]
      exact m.matches_mkdirs (houtside path List.mem_cons_self) (hchain path List.mem_cons_self)
        createParent
  | renameFile source target => exact hanswer (m.matches_renameFile houtside hopens)
  | renameDirectory source target => exact hanswer (hrename source target rfl)
  | delete path recursive =>
    exact hanswer (m.matches_delete (houtside path List.mem_cons_self)
      (hopens path List.mem_cons_self) recursive (by rintro rfl; exact hraises _ rfl))
  | deleteFile path =>
    exact hanswer (m.matches_deleteFile (houtside path List.mem_cons_self)
      (hopens path List.mem_cons_self))
  | deleteDirectory path recursive =>
    exact hanswer (m.matches_deleteDirectory (houtside path List.mem_cons_self)
      (hopens path List.mem_cons_self) recursive (by rintro rfl; exact hraises _ rfl))
  | open? path =>
    exact hanswer (m.matches_open? (houtside path List.mem_cons_self)
      (hopens path List.mem_cons_self))

end FileSystem.Mirror

end KeyTree
