import KeyTree.Proofs.FileSystem.Creation
import KeyTree.Proofs.FileSystem.RenameStep
import KeyTree.Session

/-!
# The footprints of operations

An operation on paths changes nothing but what belongs to its paths: their keys, their markers and
what lies below them. Only an operation that may create the directories above a path can write other
markers, those of the directories above. So a key beside an unmarked path is safe, even if it begins
with the text of the path.

## Main definitions

* `Key.Beside` — keys near a path that do not belong to it.
* `PathCall.paths`, `PathCall.tidies`, `PathCall.climbs` — the paths of a call, whether it only
  marks and removes, and whether it may write markers above its path.
* `FileSystem.Footprint` — what an operation on paths may change.

## Main results

* `Key.Beside.not_touches` — what is beside an unmarked key is not touched by it.
* `FileSystem.confined_renameWithin` — a rename of a directory stays in the two trees.
* `FileSystem.performPath_changesOnly` — every operation stays in its footprint.
-/

namespace KeyTree

open Key StoreM

/-! ### Beside a key -/

namespace Key

variable {suffix key parent other k : Key}

/-- Keys near a key that do not belong to it: its siblings other than its marker, their markers and
what lies below them, and the markers of the directories above. -/
inductive Beside (suffix key : Key) : Key → Prop
  | sibling {parent other : Key} (hkey : IsChild parent key) (hother : IsChild parent other)
      (hne : other ≠ key) (hmarker : other ≠ marker suffix key) : Beside suffix key other
  | siblingMarker {parent other : Key} (hkey : IsChild parent key) (hother : IsChild parent other)
      (hne : other ≠ key) : Beside suffix key (marker suffix other)
  | belowSibling {parent other k : Key} (hkey : IsChild parent key) (hother : IsChild parent other)
      (hne : other ≠ key) (h : childPrefix other <+: k) : Beside suffix key k
  | aboveMarker {above : Key} (h : above ∈ ancestors key) : Beside suffix key (marker suffix above)

/-- No sibling lies below another one. -/
theorem IsChild.not_below_sibling (hkey : IsChild parent key) (hother : IsChild parent other) :
    ¬ childPrefix key <+: other := by
  intro hbelow
  have hmem : key ∈ chain other :=
    mem_chain_iff.mpr
      ⟨hother.isNormal.1, Or.inr ((mem_ancestors_iff_childPrefix hkey.isNormal.1).mpr hbelow)⟩
  rw [hother.chain_eq, List.mem_append, List.mem_singleton] at hmem
  have hlt := hkey.length_lt
  rcases hmem with hmem | rfl
  · rcases eq_or_childPrefix_of_mem_chain hmem with rfl | habove
    · omega
    · have hle := habove.length_le
      rw [childPrefix_of_ne_nil hkey.isNormal.1, List.length_append] at hle
      omega
  · exact not_below_of_mem_chain hkey.mem_chain hbelow

theorem IsChild.unrelated (hkey : IsChild parent key) (hother : IsChild parent other)
    (hne : other ≠ key) : Unrelated key other :=
  ⟨hne.symm, hkey.not_below_sibling hother, hother.not_below_sibling hkey⟩

/-- What is beside an unmarked key is not touched by it. -/
theorem Beside.not_touches (h : Beside suffix key k) (hs : separator ∉ suffix)
    (hkey : key ≠ []) (hunmarked : Unmarked suffix key) : ¬ Touches suffix key k := by
  have hself : ∀ other, marker suffix other ≠ key := by
    rintro other rfl
    exact not_suffix_of_unmarked hs hunmarked (List.suffix_append ..)
  cases h with
  | sibling hchild hother hne hmarker =>
    rintro (_ | _ | ⟨hbelow⟩)
    · exact hne rfl
    · exact hmarker rfl
    · exact hchild.not_below_sibling hother hbelow
  | @siblingMarker _ other hchild hother hne =>
    intro h
    generalize hk : marker suffix other = k at h
    cases h with
    | self => exact hself other hk
    | marker => exact hne (marker_injective hk)
    | below h =>
      rw [← hk] at h
      exact hchild.not_below_sibling hother (childPrefix_prefix_of_marker hs hkey h)
  | belowSibling hchild hother hne hbelow =>
    have hunrelated := hchild.unrelated hother hne
    rintro (_ | _ | ⟨h⟩)
    · exact hunrelated.not_above hbelow
    · exact hunrelated.not_above (childPrefix_prefix_of_marker hs hother.isNormal.1 hbelow)
    · exact hunrelated.not_inTree hs hkey hother.isNormal.1 (Or.inr h) (Or.inr hbelow)
  | @aboveMarker above habove =>
    have hlt := length_lt_of_mem_ancestors habove
    intro h
    generalize hk : marker suffix above = k at h
    cases h with
    | self => exact hself above hk
    | marker =>
      rw [marker_injective hk] at hlt
      exact Nat.lt_irrefl _ hlt
    | below h =>
      rw [← hk] at h
      have hle := (childPrefix_prefix_of_marker hs hkey h).length_le
      rw [childPrefix_of_ne_nil hkey, List.length_append] at hle
      omega

end Key

/-! ### Renaming a directory -/

namespace FileSystem

variable {fs : FileSystem} {plan : Plan} {world : World} {source target path : Path}
  {sourceKey targetKey key k : Key} (hr : plan.Refuses) (hm : fs.Mounted world.store)

/-- What moving the entries of a directory is about: the tree of the source, and what lies below the
target. -/
def Carrying (fs : FileSystem) (sourceKey targetKey k : Key) : Prop :=
  InTree fs.config.suffix sourceKey k ∨ childPrefix targetKey <+: k

section

variable {depth : Nat} (hsource : IsNormal sourceKey) (htarget : IsNormal targetKey)
  (ih : ∀ {source target : Path} {sourceKey targetKey : Key} {world : World},
    fs.Mounted world.store → normalize? fs.root source = some sourceKey →
    normalize? fs.root target = some targetKey →
    (fs.renameWithin depth source target).Confined plan fs.bucket.name (Request.About fun k =>
      InTree fs.config.suffix sourceKey k ∨ InTree fs.config.suffix targetKey k) world)

include hr hm hsource htarget ih in
/-- Moving an entry stays below the source and below the target. -/
theorem confined_moveEntry {entry : Status} (hname : IsName entry.name) :
    (fs.moveEntry depth source target sourceKey targetKey entry).Confined plan fs.bucket.name
      (Request.About (fs.Carrying sourceKey targetKey)) world := by
  have hsource' := hm.normalize? (hsource.child hname)
  have htarget' := hm.normalize? (htarget.child hname)
  rw [moveEntry, hsource.concat hname, htarget.concat hname]
  split
  · refine StoreM.Confined.bind ?_ fun _ _ _ _ => confined_recorded
    exact (ih hm hsource' htarget').mono fun _ _ habout =>
      habout.imp (fun h => Or.inr (h.of_child hsource.1)) fun h => h.of_child htarget.1
  · refine StoreM.Confined.bind ?_ fun _ _ _ _ => confined_recorded
    exact (confined_renameFile hr hm hsource' htarget').mono fun _ _ habout =>
      habout.imp (fun h => Or.inr (h.of_child hsource.1)) fun h => h.of_child htarget.1

include hr hm hsource htarget ih in
/-- Moving the entries of a directory stays in the tree of the source and below the target. -/
theorem confined_moveEntries {entries : List Status}
    (hentries : ∀ entry ∈ entries, IsName entry.name) :
    (fs.moveEntries depth source target sourceKey targetKey entries).Confined plan fs.bucket.name
      (Request.About (fs.Carrying sourceKey targetKey)) world := by
  rw [moveEntries]
  refine (confined_allM entries fun entry hentry between hrun => ?_).bind
    fun moved after hrun _ => ?_
  · exact confined_moveEntry hr (hm.of_run hrun) hsource htarget ih (hentries entry hentry)
  · split
    · refine (confined_deleteDirectory hr (hm.of_run hrun) (hm.normalize? hsource) true).mono ?_
      intro store request h
      exact Or.inl (h.target_cases.elim Or.inl id)
    · exact confined_pure false

end

include hr in
/-- A rename of a directory stays in the trees of its source and of its target. -/
theorem confined_renameWithin : ∀ (depth : Nat) {source target : Path} {sourceKey targetKey : Key}
    {world : World}, fs.Mounted world.store → normalize? fs.root source = some sourceKey →
    normalize? fs.root target = some targetKey →
    (fs.renameWithin depth source target).Confined plan fs.bucket.name (Request.About fun k =>
      InTree fs.config.suffix sourceKey k ∨ InTree fs.config.suffix targetKey k) world
  | 0, _, _, _, _, _, _, _, _ => confined_throw _
  | depth + 1, source, target, sourceKey, targetKey, world, hm, hsource, htarget => by
    rw [renameWithin, key_eq hsource, key_eq htarget, pure_bind, pure_bind]
    by_cases hroot : sourceKey = [] ∨ targetKey = []
    · rw [if_pos (by simpa [isRoot] using hroot)]
      exact confined_refuse _
    rw [if_neg (by simpa [isRoot] using hroot)]
    obtain ⟨hnil, htargetNil⟩ := not_or.mp hroot
    split
    · exact confined_refuse _
    refine ((confined_listStatus hr hm hsource false).mono
      fun _ _ h => Or.inl (Or.inl h.target_eq)).bind_returns (returns_listStatus hr hm hsource) ?_
    rintro reply listed hlisted ⟨-, hreply⟩
    cases reply with
    | none => exact confined_log_bind fun after _ => confined_pure false
    | some entries =>
      have hentries : ∀ entry ∈ entries, IsName entry.name :=
        fun entry hentry => ((hreply.2.mem_iff entry).mp hentry).isName
      have hmListed := hm.of_run hlisted
      refine ((confined_exists? hr hmListed htarget).mono
        fun _ _ h => Or.inr (Or.inl h.target_eq)).bind fun taken looked hlooked _ => ?_
      split
      · exact confined_refuse _
      have hmLooked := hmListed.of_run hlooked
      refine (confined_establishTarget hmLooked (hm.normalize?_key hsource)
        (hm.normalize?_key htarget) fun request h _ => Or.inr (Or.inl h)).bind
        fun established between hbetween _ => ?_
      split
      · exact confined_pure false
      refine (confined_moveEntries hr (hmLooked.of_run hbetween)
        ((isNormal_of_normalize? hsource).resolve_left hnil)
        ((isNormal_of_normalize? htarget).resolve_left htargetNil)
        (fun hm hsource htarget => confined_renameWithin depth hm hsource htarget)
        hentries).mono ?_
      exact fun _ _ h => h.imp_right Or.inr

include hr hm in
theorem confined_renameDirectory (hsource : normalize? fs.root source = some sourceKey)
    (htarget : normalize? fs.root target = some targetKey) :
    (fs.renameDirectory source target).Confined plan fs.bucket.name (Request.About fun k =>
      InTree fs.config.suffix sourceKey k ∨ InTree fs.config.suffix targetKey k) world := by
  have hbound : StoreM.depthBound.Confined plan fs.bucket.name (Request.About fun k =>
      InTree fs.config.suffix sourceKey k ∨ InTree fs.config.suffix targetKey k) world :=
    .refl world
  exact hbound.bind fun depth _ hrun _ =>
    confined_renameWithin hr depth (hm.of_run hrun) hsource htarget

/-! ### Footprints -/

/-- What an operation on paths may change: what the paths touch and, if it *climbs*, the markers of
the directories above them. -/
def Footprint (fs : FileSystem) (climbs : Bool) (paths : List Path) (k : Key) : Prop :=
  ∃ path ∈ paths, ∃ key, normalize? fs.root path = some key ∧
    (Touches fs.config.suffix key k ∨
      (climbs = true ∧ ∃ above ∈ ancestors key, k = marker fs.config.suffix above))

variable {paths : List Path} {climbs : Bool} {store : Store} {request : Request}

theorem footprint_of_touches (h : Touches fs.config.suffix key k) (hmem : path ∈ paths)
    (hpath : normalize? fs.root path = some key) : fs.Footprint climbs paths k :=
  ⟨path, hmem, key, hpath, Or.inl h⟩

theorem Tidies.footprint (h : fs.Tidies key (Touches fs.config.suffix key) store request)
    (hmem : path ∈ paths) (hpath : normalize? fs.root path = some key) :
    fs.Footprint climbs paths request.target := by
  refine footprint_of_touches ?_ hmem hpath
  rcases h.target_cases with h | h
  · rw [h]
    exact .marker
  · exact h

theorem Founds.footprint (h : fs.Founds key store request) (hmem : path ∈ paths)
    (hpath : normalize? fs.root path = some key) : fs.Footprint true paths request.target := by
  obtain ⟨m, hm, rfl, -⟩ := h
  obtain ⟨-, rfl | habove⟩ := mem_chain_iff.mp hm
  · exact footprint_of_touches .marker hmem hpath
  · exact ⟨path, hmem, key, hpath, Or.inr ⟨rfl, m, habove, rfl⟩⟩

/-- An operation that does not climb leaves everything alone that is beside all its paths. -/
theorem not_footprint_of_beside (h : ∀ path ∈ paths, ∀ key, normalize? fs.root path = some key →
      key ≠ [] ∧ Unmarked fs.config.suffix key ∧ Beside fs.config.suffix key k) :
    ¬ fs.Footprint false paths k := by
  rintro ⟨path, hmem, key, hpath, htouches | ⟨hclimbs, -⟩⟩
  · obtain ⟨hkey, hunmarked, hbeside⟩ := h path hmem key hpath
    exact hbeside.not_touches fs.config.separator_notMem_suffix hkey hunmarked htouches
  · exact Bool.false_ne_true hclimbs

end FileSystem

/-! ### Calls on paths -/

namespace PathCall

/-- The paths of a call. -/
def paths : PathCall → List Path
  | .key path | .markerKey path | .classify path | .ensureMarker path | .parentExists path
  | .metadata path | .isDirectory path | .isFile path | .exists? path | .fileSize path
  | .modificationMilliseconds path | .listStatus path _ | .listNames path _ | .delete path _
  | .deleteFile path | .deleteDirectory path _ | .open? path => [path]
  | .mkdirs path _ => path.toList
  | .renameFile source target | .renameDirectory source target => [source, target]

/-- Whether a call only looks at its path, marks it, or removes what belongs to it. -/
def tidies : PathCall → Bool
  | .ensureMarker _ | .parentExists _ | .mkdirs .. | .renameFile .. | .renameDirectory .. => false
  | _ => true

/-- Whether a call is about the directories above its path too. -/
def climbs : PathCall → Bool
  | .mkdirs .. | .parentExists _ => true
  | _ => false

end PathCall

namespace FileSystem

variable {fs : FileSystem} {plan : Plan} {world : World} {path : Path} {key : Key}
  (hr : plan.Refuses) (hm : fs.Mounted world.store)

/-- A request that tidies the key of one of some paths. -/
def TidiesPaths (fs : FileSystem) (paths : List Path) (store : Store) (request : Request) : Prop :=
  ∃ path ∈ paths, ∃ key, normalize? fs.root path = some key ∧
    fs.Tidies key (Touches fs.config.suffix key) store request

include hr hm in
/-- The calls that only tidy their path. -/
theorem confined_tidies (call : PathCall) (htidies : call.tidies = true)
    (hpaths : ∀ path ∈ call.paths, ∃ key, normalize? fs.root path = some key) :
    (Session.performPath fs call).Confined plan fs.bucket.name (fs.TidiesPaths call.paths)
      world := by
  have hmarks : ∀ {path : Path} {key : Key}, path ∈ call.paths →
      normalize? fs.root path = some key →
      ∀ store request, fs.Marks key store request → fs.TidiesPaths call.paths store request :=
    fun hmem hpath _ _ h => ⟨_, hmem, _, hpath, .mark h⟩
  cases call with
  | key path => exact (confined_key path).bind_pure _
  | markerKey path => exact (confined_markerKey path).bind_pure _
  | classify path => exact (confined_classify path).bind_pure _
  | isFile path => exact (confined_isFile path).bind_pure _
  | open? path => exact (confined_open? path).bind_pure _
  | metadata path =>
    obtain ⟨key, hpath⟩ := hpaths path List.mem_cons_self
    exact ((confined_metadata hr hm hpath).mono (hmarks List.mem_cons_self hpath)).bind
      fun _ _ _ _ => confined_ofExcept _
  | isDirectory path =>
    obtain ⟨key, hpath⟩ := hpaths path List.mem_cons_self
    exact ((confined_isDirectory hr hm hpath).mono (hmarks List.mem_cons_self hpath)).bind_pure _
  | exists? path =>
    obtain ⟨key, hpath⟩ := hpaths path List.mem_cons_self
    exact ((confined_exists? hr hm hpath).mono (hmarks List.mem_cons_self hpath)).bind_pure _
  | fileSize path =>
    obtain ⟨key, hpath⟩ := hpaths path List.mem_cons_self
    exact (((confined_metadata hr hm hpath).mono
      (hmarks List.mem_cons_self hpath)).bind_pure _).bind_pure _
  | modificationMilliseconds path =>
    obtain ⟨key, hpath⟩ := hpaths path List.mem_cons_self
    refine StoreM.Confined.bind_pure ?_ _
    exact ((confined_metadata hr hm hpath).mono (hmarks List.mem_cons_self hpath)).bind
      fun _ _ _ _ => confined_ofExcept _
  | listStatus path recursive =>
    obtain ⟨key, hpath⟩ := hpaths path List.mem_cons_self
    exact ((confined_listStatus hr hm hpath recursive).mono
      (hmarks List.mem_cons_self hpath)).bind_pure _
  | listNames path recursive =>
    obtain ⟨key, hpath⟩ := hpaths path List.mem_cons_self
    exact (((confined_listStatus hr hm hpath recursive).mono
      (hmarks List.mem_cons_self hpath)).bind_pure _).bind_pure _
  | delete path recursive =>
    obtain ⟨key, hpath⟩ := hpaths path List.mem_cons_self
    exact ((confined_delete hr hm hpath recursive).mono fun _ _ h =>
      ⟨path, List.mem_cons_self, key, hpath, h⟩).bind_pure _
  | deleteFile path =>
    obtain ⟨key, hpath⟩ := hpaths path List.mem_cons_self
    refine StoreM.Confined.bind_pure ((confined_deleteFile hpath).mono fun _ _ h =>
      ⟨path, List.mem_cons_self, key, hpath, h.mono ?_⟩) _
    rintro k rfl
    exact .self
  | deleteDirectory path recursive =>
    obtain ⟨key, hpath⟩ := hpaths path List.mem_cons_self
    exact ((confined_deleteDirectory hr hm hpath recursive).mono fun _ _ h =>
      ⟨path, List.mem_cons_self, key, hpath, h.mono fun _ => InTree.touches⟩).bind_pure _
  | ensureMarker | parentExists | mkdirs | renameFile | renameDirectory =>
    exact Bool.noConfusion htidies

include hr hm in
/-- Every call on paths in the bucket writes within its footprint. -/
theorem confined_performPath (call : PathCall)
    (hpaths : ∀ path ∈ call.paths, ∃ key, normalize? fs.root path = some key) :
    (Session.performPath fs call).Confined plan fs.bucket.name
      (Request.About (fs.Footprint call.climbs call.paths)) world := by
  by_cases htidies : call.tidies = true
  · refine (confined_tidies hr hm call htidies hpaths).mono ?_
    rintro store request ⟨path, hmem, key, hpath, h⟩
    exact h.footprint hmem hpath
  cases call with
  | ensureMarker path =>
    obtain ⟨key, hpath⟩ := hpaths path List.mem_cons_self
    exact (confined_ensureMarker hm hpath fun _ =>
      footprint_of_touches .marker List.mem_cons_self hpath).bind_pure _
  | parentExists path =>
    obtain ⟨key, hpath⟩ := hpaths path List.mem_cons_self
    refine StoreM.Confined.bind_pure ((confined_parentExists hr hm hpath).mono ?_) _
    rintro store request ⟨parent, hchild, h⟩
    exact ((h.founds hchild.parent_normal).of_parent hchild).footprint List.mem_cons_self hpath
  | mkdirs path createParent =>
    cases path with
    | none => exact confined_pure _
    | some path =>
      obtain ⟨key, hpath⟩ := hpaths path List.mem_cons_self
      exact ((confined_mkdirs hr hm hpath createParent).mono fun _ _ h =>
        h.footprint List.mem_cons_self hpath).bind_pure _
  | renameFile source target =>
    obtain ⟨sourceKey, hsource⟩ := hpaths source (by simp [PathCall.paths])
    obtain ⟨targetKey, htarget⟩ := hpaths target (by simp [PathCall.paths])
    refine StoreM.Confined.bind_pure ((confined_renameFile hr hm hsource htarget).mono ?_) _
    rintro _ _ (h | h)
    · exact footprint_of_touches h (by simp [PathCall.paths]) hsource
    · exact footprint_of_touches h (by simp [PathCall.paths]) htarget
  | renameDirectory source target =>
    obtain ⟨sourceKey, hsource⟩ := hpaths source (by simp [PathCall.paths])
    obtain ⟨targetKey, htarget⟩ := hpaths target (by simp [PathCall.paths])
    refine StoreM.Confined.bind_pure ((confined_renameDirectory hr hm hsource htarget).mono ?_) _
    rintro _ _ (h | h)
    · exact footprint_of_touches h.touches (by simp [PathCall.paths]) hsource
    · exact footprint_of_touches h.touches (by simp [PathCall.paths]) htarget
  | _ => exact absurd rfl htidies

/-! ### Files as streams -/

include hr hm in
/-- Opening a file for writing writes nothing but markers of the directories above it, and only if
these are to be created. -/
theorem confined_create (hpath : normalize? fs.root path = some key) (createParent : Bool) :
    (fs.create path createParent).Confined plan fs.bucket.name
      (Request.About (fs.Footprint createParent [path])) world := by
  rw [create, key_eq hpath, pure_bind]
  cases createParent with
  | false => exact confined_pure _
  | true =>
    rw [if_pos rfl]
    rcases isNormal_of_normalize? hpath with rfl | hkey
    · exact confined_pure _
    · obtain ⟨parent, hchild⟩ := hkey.exists_parent
      rw [hchild.parent?_eq]
      have hparent := hm.normalize?_parent hpath hchild.parent?_eq
      refine ((confined_mkdirs hr hm hparent true).mono fun _ _ h =>
        (h.of_parent hchild).footprint List.mem_cons_self hpath).bind fun made between _ _ => ?_
      cases made with
      | true => exact confined_pure _
      | false => exact confined_throw _

/-- The stream that is opened is open, and nothing has been written to it. -/
theorem eq_of_create (hpath : normalize? fs.root path = some key) {createParent : Bool}
    {stream : OutputStream} {after : World}
    (h : (fs.create path createParent).exec plan world = (.ok stream, after)) :
    stream = { bucket := fs.bucket, key } := by
  rw [create, key_eq hpath, pure_bind] at h
  split at h
  · split at h
    · rw [StoreM.exec_bind] at h
      split at h
      · split at h
        · cases h
        · cases h
          rfl
      · cases h
    · cases h
      rfl
  · cases h
    rfl

/-- The stream that is opened writes to the key of its path. -/
theorem stream_of_create (hpath : normalize? fs.root path = some key) {createParent : Bool}
    {stream : OutputStream} {after : World}
    (h : (fs.create path createParent).exec plan world = (.ok stream, after)) :
    stream.bucket = fs.bucket ∧ stream.key = key := by
  rw [eq_of_create hpath h]
  exact ⟨rfl, rfl⟩

/-- Closing a stream writes its own object. -/
theorem confined_store (stream : OutputStream) :
    stream.store.Confined plan stream.bucket.name (Request.About (· = stream.key)) world := by
  rw [OutputStream.store]
  split
  · exact confined_pure _
  · refine (confined_send _ fun _ => rfl).bind fun reply between _ _ => ?_
    cases reply with
    | ok _ => exact confined_log _ _ _
    | error fault => exact confined_throw _

/-! ### Every operation -/

include hr hm in
/-- Whatever is refused, a call on paths in the bucket changes only what is in its footprint, and a
call that does not climb leaves everything alone that is beside all its paths. Opening a file for
writing changes at most markers above its path, and closing it changes its own object. -/
theorem performPath_changesOnly :
    (∀ call : PathCall, (∀ path ∈ call.paths, ∃ key, normalize? fs.root path = some key) →
      (Session.performPath fs call).ChangesOnly plan world
        (fs.Footprint call.climbs call.paths) ∧
      (call.climbs = false → ∀ k,
        (∀ path ∈ call.paths, ∀ key, normalize? fs.root path = some key →
          key ≠ [] ∧ Unmarked fs.config.suffix key ∧ Beside fs.config.suffix key k) →
        ((Session.performPath fs call).exec plan world).2.store.objects[k]? =
          world.store.objects[k]?)) ∧
    (∀ path key createParent, normalize? fs.root path = some key →
      (fs.create path createParent).ChangesOnly plan world (fs.Footprint createParent [path]) ∧
      ∀ stream after, (fs.create path createParent).exec plan world = (.ok stream, after) →
        stream.bucket = fs.bucket ∧ stream.key = key) ∧
    ∀ stream : OutputStream, stream.store.ChangesOnly plan world (· = stream.key) := by
  refine ⟨fun call hpaths => ?_, fun path key createParent hpath => ⟨?_, ?_⟩, fun stream => ?_⟩
  · have hchanges := (confined_performPath hr hm call hpaths).changesOnly
    refine ⟨hchanges, fun hclimbs k hbeside => hchanges k ?_⟩
    rw [hclimbs]
    exact not_footprint_of_beside hbeside
  · exact (confined_create hr hm hpath createParent).changesOnly
  · exact fun stream after h => stream_of_create hpath h
  · exact (confined_store stream).changesOnly

/-- A directory of two files, and a file and a directory whose names begin with its name. -/
def namesakes : World :=
  { store := .holding ['b'] [("p/a/x".toList, [1]), ("p/a/y".toList, [2]),
      ("p/a.b".toList, [3]), ("p/ab/x".toList, [4])] }

/-- The second file in `p/a` cannot be removed. -/
def secondFileStays : Plan :=
  Script.plan [{ method := some .delete, key := some "p/a/y".toList,
                 effect := .fail (.store (.refused (some "503") none)) false }]

/-- A session over that bucket. -/
def stuckSession : Session :=
  { fs := plainBucket, plan := secondFileStays, world := namesakes }

/-- A deletion that is cut short changes the bucket and leaves the namesakes of its path alone. -/
theorem performPath_changesOnly_namesakes :
    ∃ after, (Session.performPath plainBucket (.delete "p/a".toList true)).exec secondFileStays
        namesakes = (.ok (.flag false), after) ∧
      "p/a/x".toList ∉ after.store.objects ∧
      after.store.objects["p/a.b".toList]? = namesakes.store.objects["p/a.b".toList]? ∧
      after.store.objects["p/ab/x".toList]? = namesakes.store.objects["p/ab/x".toList]? := by
  have hr : secondFileStays.Refuses := Script.refuses_plan_singleton rfl
  have hm : plainBucket.Mounted namesakes.store := ⟨rfl, 'b', by decide, by decide⟩
  have hpath : normalize? plainBucket.root "p/a".toList = some "p/a".toList := by decide +kernel
  have hunmarked : Unmarked plainBucket.config.suffix "p/a".toList := by decide +kernel
  have hp : IsNormal ['p'] := by decide
  have hchild : IsChild ['p'] "p/a".toList := hp.isChild ⟨by decide, by decide⟩
  have hfile : IsChild ['p'] "p/a.b".toList := hp.isChild ⟨by decide, by decide⟩
  have hdirectory : IsChild ['p'] "p/ab".toList := hp.isChild ⟨by decide, by decide⟩
  obtain ⟨-, hsafe⟩ := (performPath_changesOnly hr hm).1 (.delete "p/a".toList true)
    fun path hmem => ⟨"p/a".toList, by rwa [List.mem_singleton.mp hmem]⟩
  have hbeside : ∀ k, Beside plainBucket.config.suffix "p/a".toList k →
      ∀ path ∈ ["p/a".toList], ∀ key, normalize? plainBucket.root path = some key →
        key ≠ [] ∧ Unmarked plainBucket.config.suffix key ∧
          Beside plainBucket.config.suffix key k := by
    intro k hk path hmem key hkey
    rw [List.mem_singleton.mp hmem, hpath] at hkey
    obtain rfl := Option.some.inj hkey
    exact ⟨hchild.isNormal.1, hunmarked, hk⟩
  refine ⟨_, exec_eq_of_fst (by decide +kernel), by decide +kernel, hsafe rfl _ (hbeside _ ?_),
    hsafe rfl _ (hbeside _ ?_)⟩
  · exact .sibling hchild hfile (by decide +kernel) (by decide +kernel)
  · exact .belowSibling hchild hdirectory (by decide +kernel) (by decide +kernel)

end FileSystem

end KeyTree
