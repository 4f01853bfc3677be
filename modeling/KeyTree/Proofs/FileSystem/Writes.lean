import KeyTree.FileSystem.Stream
import KeyTree.Proofs.FileSystem.RenameFile
import KeyTree.Proofs.Key.Ancestry
import KeyTree.Proofs.Run

/-!
# What operations write

Which requests the operations on single paths send that can change the store. Looking something up
sends none. Asking whether a path is a directory may send one, which writes the marker of a
directory with keys below it. A deletion removes the object at its path or what is in the tree of
it, and a rename of a file writes the target and removes the source.

## Main definitions

* `FileSystem.Marks` — requests that write the marker of a directory with keys below it.
* `FileSystem.Tidies` — requests that write such a marker or remove what belongs to a key.

## Main results

* `FileSystem.confined_isDirectory`, `FileSystem.confined_listStatus`, `FileSystem.confined_delete`,
  `FileSystem.confined_renameFile` — the operations.
-/

namespace KeyTree

open Key Listing StoreM

variable {plan : Plan} {allowed : Store → Request → Prop} {world : World}

/-! ### Looking up -/

namespace Bucket

variable {bucket : Bucket}

theorem confined_metadata (key : Key) :
    (bucket.metadata key).Confined plan bucket.name allowed world := by
  rw [metadata]
  refine (confined_ask rfl).bind fun reply between _ _ => ?_
  cases reply with
  | error fault => exact confined_pure _
  | ok reply =>
    dsimp only
    split
    · exact confined_pure _
    · exact confined_pure _
    · exact confined_throw _

theorem confined_list (under delimiter : List Char) (maxKeys : Int) (token : Option (List Char)) :
    (bucket.list under delimiter maxKeys token).Confined plan bucket.name allowed world := by
  rw [list]
  refine (confined_ask rfl).bind fun reply between _ _ => ?_
  cases reply with
  | error fault => exact confined_pure _
  | ok reply =>
    dsimp only
    split
    · exact confined_throw _
    · exact confined_log_bind fun after _ => confined_pure _

end Bucket

namespace Cursor

theorem confined_next (cursor : Cursor) :
    cursor.next.Confined plan cursor.bucket.name allowed world := by
  rw [next]
  split
  · exact confined_pure _
  · refine (Bucket.confined_list ..).bind fun reply between _ _ => ?_
    cases reply with
    | ok page => exact confined_pure _
    | error fault => exact confined_log_bind fun after _ => confined_pure _

/-- A cursor stays with its bucket. -/
theorem next_bucket {cursor cursor' : Cursor} {page : Option Page} {after : World}
    (h : cursor.next.exec plan world = (.ok (page, cursor'), after)) :
    cursor'.bucket = cursor.bucket := by
  rw [next] at h
  split at h
  · rw [exec_pure] at h
    cases h
    rfl
  · rw [exec_bind] at h
    split at h
    · split at h
      · rw [exec_pure] at h
        cases h
        rfl
      · rw [exec_bind, exec_log] at h
        cases h
        rfl
    · cases h

theorem confined_drainWithin (moves : Nat) (cursor : Cursor) :
    (drainWithin moves cursor).Confined plan cursor.bucket.name allowed world := by
  induction moves generalizing cursor world with
  | zero => exact confined_throw _
  | succ moves ih =>
    rw [drainWithin]
    refine (confined_next cursor).bind ?_
    rintro ⟨page, moved⟩ between - hexec
    cases page with
    | none => exact confined_pure _
    | some page =>
      rw [← next_bucket hexec]
      exact (ih moved).bind_pure _

theorem confined_drain (cursor : Cursor) :
    cursor.drain.Confined plan cursor.bucket.name allowed world := by
  rw [drain]
  have hbound : StoreM.pageBound.Confined plan cursor.bucket.name allowed world := .refl world
  exact hbound.bind fun moves _ _ _ => confined_drainWithin moves cursor

end Cursor

namespace FileSystem

variable {fs : FileSystem} {path source target : Path} {key sourceKey targetKey : Key}

theorem confined_key (path : Path) : (fs.key path).Confined plan fs.bucket.name allowed world := by
  rw [FileSystem.key]
  split
  · exact confined_pure _
  · exact confined_throw _

theorem confined_markerKey (path : Path) :
    (fs.markerKey path).Confined plan fs.bucket.name allowed world :=
  (confined_key path).bind_pure _

theorem confined_refuse (refusal : Refusal) :
    (refuse refusal).Confined plan fs.bucket.name allowed world :=
  confined_log_bind fun _ _ => confined_pure false

theorem confined_classify (path : Path) :
    (fs.classify path).Confined plan fs.bucket.name allowed world := by
  -- the listing that decides when no marker has been found
  have hbelow : ∀ {key : Key} {world : World},
      (fs.classifyBelow key).Confined plan fs.bucket.name allowed world := by
    intro key world
    refine (Bucket.confined_list ..).bind fun reply between _ _ => ?_
    cases reply with
    | ok page => exact confined_pure _
    | error fault => exact confined_log_bind fun after _ => confined_pure _
  rw [classify]
  refine (confined_key path).bind fun key between _ _ => ?_
  dsimp only
  split
  · exact confined_pure _
  · refine (confined_markerKey key).bind fun marker between _ _ => ?_
    refine (Bucket.confined_metadata marker).bind fun reply between _ _ => ?_
    split
    · exact confined_pure _
    · exact hbelow
    · exact confined_log_bind fun after _ => hbelow

theorem confined_isFile (path : Path) :
    (fs.isFile path).Confined plan fs.bucket.name allowed world := by
  rw [isFile]
  split
  · exact confined_log_bind fun after _ => confined_pure _
  · split
    · exact confined_pure _
    · refine (Bucket.confined_metadata _).bind fun reply between _ _ => ?_
      cases reply with
      | ok metadata => exact confined_pure _
      | error fault => exact confined_log_bind fun after _ => confined_pure _

theorem confined_allPages (key : Key) (recursive : Bool) :
    (fs.allPages key recursive).Confined plan fs.bucket.name allowed world := by
  rw [allPages]
  refine (Cursor.confined_drain (Cursor.new fs.bucket _ recursive _)).bind ?_
  rintro ⟨pages, cursor⟩ between - -
  dsimp only
  split
  · exact confined_log_bind fun after _ => confined_pure _
  · split
    · exact confined_log_bind fun after _ => confined_pure _
    · exact confined_pure _

theorem confined_subtreeKeys (key : Key) :
    (fs.subtreeKeys key).Confined plan fs.bucket.name allowed world :=
  (confined_allPages key true).map _

theorem confined_open? (path : Path) :
    (fs.open? path).Confined plan fs.bucket.name allowed world := by
  rw [open?]
  refine (confined_key path).bind fun key between _ _ => ?_
  refine (confined_ask rfl).bind fun reply between _ _ => ?_
  cases reply with
  | ok body => exact confined_pure _
  | error fault => exact confined_log_bind fun after _ => confined_pure _

/-! ### Marking -/

/-- A file system stays mounted in a run. -/
theorem Mounted.of_run {after : World} (hm : fs.Mounted world.store)
    (h : World.Run plan fs.bucket.name allowed world after) : fs.Mounted after.store :=
  ⟨hm.bucket_eq.trans h.bucket_eq.symm, hm.named⟩

/-- The parent of a path is a path to itself. -/
theorem Mounted.normalize?_parent {store : Store} (hm : fs.Mounted store)
    (hpath : Key.normalize? fs.root path = some key) {parent : Key}
    (hparent : parent? key = some parent) : Key.normalize? fs.root parent = some parent := by
  rcases isNormal_of_normalize? hpath with rfl | hkey
  · exact absurd hparent (by simp [parent?, isRoot])
  · obtain ⟨parent', hchild⟩ := hkey.exists_parent
    obtain rfl := Option.some.inj (hchild.parent?_eq.symm.trans hparent)
    rcases hchild.parent_normal with rfl | hnormal
    · exact normalize?_nil hm.namesBucket
    · exact hm.normalize? hnormal

/-- A request *marks* a key when it writes the empty marker of the key and keys lie below it. -/
def Marks (fs : FileSystem) (key : Key) (store : Store) (request : Request) : Prop :=
  key ≠ [] ∧ request = .put (marker fs.config.suffix key) [] 0 ∧ store.objects.HasBelow key

/-- Writing the marker of a path sends that request and no other one. -/
theorem confined_ensureMarker (hm : fs.Mounted world.store)
    (hpath : normalize? fs.root path = some key)
    (h : key ≠ [] → allowed world.store (.put (marker fs.config.suffix key) [] 0)) :
    (fs.ensureMarker path).Confined plan fs.bucket.name allowed world := by
  rw [ensureMarker, key_eq hpath, pure_bind]
  by_cases hkey : key = []
  · rw [if_pos (by rw [hkey]; rfl)]
    exact confined_pure true
  · rw [if_neg (by simpa [isRoot] using hkey), markerKey_eq (hm.normalize?_key hpath), pure_bind]
    refine (confined_send _ fun _ => h hkey).bind fun reply between _ _ => ?_
    cases reply with
    | ok _ => exact confined_log_bind fun after _ => confined_pure _
    | error fault => exact confined_log_bind fun after _ => confined_pure _

variable (hr : plan.Refuses) (hm : fs.Mounted world.store)
  (hpath : normalize? fs.root path = some key)

include hr hm hpath in
/-- Asking whether a path is a directory sends no writing request but to mark it. -/
theorem confined_isDirectory :
    (fs.isDirectory path).Confined plan fs.bucket.name (fs.Marks key) world := by
  simp only [isDirectory, hpath]
  by_cases hkey : key = []
  · subst hkey
    rw [classify, key_eq hpath, pure_bind]
    exact confined_pure true
  · refine (confined_classify path).bind_returns (returns_classify hr hm hpath hkey) ?_
    rintro kind between - ⟨hstore, hsees⟩
    split
    · rename_i himplicit
      rw [himplicit.1] at hsees
      have hbelow : world.store.objects.HasBelow key := by
        generalize between.requests = later at hsees
        cases hsees with
        | implicitDirectory _ h => exact h.2
      refine confined_log_bind fun logged hlogged => ?_
      rw [hstore] at hlogged
      refine (confined_ensureMarker (hm.of_eq hlogged) hpath fun _ => ⟨hkey, rfl, ?_⟩).bind_pure _
      rw [hlogged]
      exact hbelow
    · exact confined_pure _

include hr hm hpath in
theorem confined_exists? :
    (fs.exists? path).Confined plan fs.bucket.name (fs.Marks key) world := by
  rw [exists?]
  refine (confined_isFile path).bind fun found between hrun _ => ?_
  split
  · exact confined_pure _
  · exact confined_isDirectory hr (hm.of_run hrun) hpath

include hpath in
/-- Asking for the parent of a path is asking whether its key is a directory. -/
theorem parentExists_eq {parent : Key} (hparent : parent? key = some parent) :
    fs.parentExists path = fs.isDirectory parent := by
  rw [parentExists, key_eq hpath, pure_bind, hparent]

include hr hm hpath in
/-- Asking for the parent of a path may mark the parent. -/
theorem confined_parentExists :
    (fs.parentExists path).Confined plan fs.bucket.name
      (fun store request => ∃ parent, IsChild parent key ∧ fs.Marks parent store request)
      world := by
  rcases isNormal_of_normalize? hpath with rfl | hkey
  · rw [parentExists, key_eq hpath, pure_bind]
    exact confined_pure true
  · obtain ⟨parent, hchild⟩ := hkey.exists_parent
    rw [parentExists_eq hpath hchild.parent?_eq]
    have hparent := hm.normalize?_parent hpath hchild.parent?_eq
    exact (confined_isDirectory hr hm hparent).mono fun _ _ h => ⟨parent, hchild, h⟩

/-- The end of a look-up of metadata, once it is decided which object to ask about. -/
def lookUp (fs : FileSystem) (path : Path) (key object : Key) : StoreM Metadata := do
  match ← fs.bucket.metadata object with
  | .ok (some metadata) => return metadata
  | .ok none => throw (.notFound path)
  | .error fault =>
    log .warning "Failed to get object, treating as absent".toList
      [("key", .text key), ("error", .text fault.message)]
    throw (.notFound path)

theorem confined_lookUp (path : Path) (key object : Key) :
    (fs.lookUp path key object).Confined plan fs.bucket.name allowed world := by
  refine (Bucket.confined_metadata object).bind fun reply between _ _ => ?_
  split
  · exact confined_pure _
  · exact confined_throw _
  · exact confined_log_bind fun after _ => confined_throw _

include hr hm hpath in
theorem confined_metadata :
    (fs.metadata path).Confined plan fs.bucket.name (fs.Marks key) world := by
  rw [metadata, key_eq hpath, pure_bind]
  refine (confined_isDirectory hr hm (hm.normalize?_key hpath)).bind fun found between _ _ => ?_
  split
  · exact (confined_markerKey key).bind fun object _ _ _ => confined_lookUp path key object
  · exact confined_lookUp path key key

include hr hm hpath in
theorem confined_listStatus (recursive : Bool) :
    (fs.listStatus path recursive).Confined plan fs.bucket.name (fs.Marks key) world := by
  rw [listStatus, key_eq hpath, pure_bind]
  refine (confined_isDirectory hr hm (hm.normalize?_key hpath)).bind fun found between _ _ => ?_
  cases found with
  | false => exact confined_pure none
  | true => exact (confined_allPages key recursive).bind_pure _

/-! ### Removing -/

/-- A request *tidies* a key when it marks the key, or removes a key of some kind. -/
inductive Tidies (fs : FileSystem) (key : Key) (removable : Key → Prop) (store : Store) :
    Request → Prop
  | mark {request : Request} (h : fs.Marks key store request) :
      Tidies fs key removable store request
  | delete {k : Key} (h : removable k) : Tidies fs key removable store (.delete k)

theorem Marks.target_eq {store : Store} {request : Request} (h : fs.Marks key store request) :
    request.target = marker fs.config.suffix key := by
  rw [h.2.1]
  rfl

theorem Tidies.target_cases {removable : Key → Prop} {store : Store} {request : Request}
    (h : fs.Tidies key removable store request) :
    request.target = marker fs.config.suffix key ∨ removable request.target := by
  cases h with
  | mark h => exact Or.inl h.target_eq
  | delete h => exact Or.inr h

theorem Tidies.mono {removable removable' : Key → Prop} {store : Store} {request : Request}
    (h : fs.Tidies key removable store request) (himp : ∀ k, removable k → removable' k) :
    fs.Tidies key removable' store request := by
  cases h with
  | mark h => exact .mark h
  | delete h => exact .delete (himp _ h)

/-- Removing an object sends that request and no other one. -/
theorem confined_deleteKey {k : Key}
    (h : ∀ store, allowed store (.delete k)) :
    (fs.deleteKey k).Confined plan fs.bucket.name allowed world := by
  rw [deleteKey]
  refine (confined_send _ fun _ => h _).bind fun reply between _ _ => ?_
  cases reply with
  | ok _ => exact confined_pure true
  | error fault => exact confined_log_bind fun after _ => confined_pure false

theorem confined_deleteKeys {keys : List Key} (directory : Key)
    (h : ∀ k ∈ keys, ∀ store, allowed store (.delete k)) :
    (fs.deleteKeys directory keys).Confined plan fs.bucket.name allowed world := by
  rw [deleteKeys]
  refine confined_allM keys fun k hk between _ => ?_
  refine (confined_deleteKey (h k hk)).bind fun done after _ _ => ?_
  cases done with
  | true => exact confined_pure true
  | false => exact confined_log_bind fun after _ => confined_pure false

include hr hm hpath in
theorem confined_clearDirectory (recursive : Bool) :
    (fs.clearDirectory path key recursive).Confined plan fs.bucket.name
      (fs.Tidies key (InTree fs.config.suffix key)) world := by
  rw [clearDirectory]
  cases recursive with
  | true =>
    rw [if_pos rfl]
    refine (confined_subtreeKeys key).bind_returns (returns_subtreeKeys hr hm key) ?_
    rintro reply between - ⟨-, -, hreply⟩
    cases reply with
    | none => exact confined_pure false
    | some keys =>
      refine confined_deleteKeys key fun k hk store => .delete (.inr ?_)
      rw [hreply.1] at hk
      exact (Objects.mem_keysUnder_iff.mp hk).2
  | false =>
    rw [if_neg (by simp)]
    refine ((confined_listStatus hr hm (hm.normalize?_key hpath) false).mono
      fun _ _ => .mark).bind fun reply between _ _ => ?_
    split
    · exact confined_log_bind fun after _ => confined_pure false
    · exact confined_pure true
    · exact confined_throw _

include hr hm hpath in
theorem confined_deleteDirectory (recursive : Bool) :
    (fs.deleteDirectory path recursive).Confined plan fs.bucket.name
      (fs.Tidies key (InTree fs.config.suffix key)) world := by
  rw [deleteDirectory, key_eq hpath, pure_bind]
  refine (confined_clearDirectory hr hm hpath recursive).bind fun cleared between hrun _ => ?_
  cases cleared with
  | false => exact confined_pure false
  | true =>
    rw [if_neg (by simp)]
    split
    · exact confined_pure true
    · rw [markerKey_eq (hm.normalize?_key hpath), pure_bind]
      exact confined_deleteKey fun store => .delete (.inl rfl)

include hpath in
theorem confined_deleteFile :
    (fs.deleteFile path).Confined plan fs.bucket.name (fs.Tidies key (· = key)) world := by
  rw [deleteFile, key_eq hpath, pure_bind]
  exact confined_deleteKey fun store => .delete rfl

include hr hm hpath in
/-- A deletion marks its path or removes what is there. -/
theorem confined_delete (recursive : Bool) :
    (fs.delete path recursive).Confined plan fs.bucket.name
      (fs.Tidies key (Touches fs.config.suffix key)) world := by
  rw [delete]
  refine (confined_isFile path).bind fun isFile between hrun _ => ?_
  have hm' := hm.of_run hrun
  split
  · refine (confined_deleteFile hpath).mono fun _ _ h => h.mono ?_
    rintro k rfl
    exact .self
  · refine ((confined_isDirectory hr hm' hpath).mono fun _ _ => .mark).bind
      fun isDirectory between' hrun' _ => ?_
    split
    · exact (confined_deleteDirectory hr (hm'.of_run hrun') hpath recursive).mono
        fun _ _ h => h.mono fun _ => InTree.touches
    · exact confined_refuse _

/-! ### Renaming -/

/-- A copy sends that request and no other one. -/
theorem confined_copyKey (h : ∀ store, allowed store (.copy sourceKey targetKey)) :
    (fs.copyKey sourceKey targetKey).Confined plan fs.bucket.name allowed world := by
  rw [copyKey]
  refine confined_log_bind fun logged _ => ?_
  refine (confined_send _ fun _ => h _).bind fun reply between _ _ => ?_
  cases reply with
  | ok _ => exact confined_pure true
  | error fault => exact confined_log_bind fun after _ => confined_pure false

include hr hm in
/-- A rename of a file writes nothing that does not belong to its source or to its target. -/
theorem confined_renameFile (hsource : normalize? fs.root source = some sourceKey)
    (htarget : normalize? fs.root target = some targetKey) :
    (fs.renameFile source target).Confined plan fs.bucket.name (Request.About fun k =>
      Touches fs.config.suffix sourceKey k ∨ Touches fs.config.suffix targetKey k) world := by
  rw [renameFile]
  refine (confined_isFile source).bind fun isFile between hrun _ => ?_
  split
  · exact (confined_refuse _).bind_pure id
  · refine ((confined_exists? hr (hm.of_run hrun) htarget).mono
      fun _ _ h => .inr (h.target_eq ▸ .marker)).bind fun taken between' _ _ => ?_
    split
    · exact (confined_refuse _).bind_pure id
    · rw [key_eq hsource, key_eq htarget, pure_bind, pure_bind]
      refine (confined_copyKey fun store => .inr .self).bind fun done _ _ _ => ?_
      split
      · exact confined_deleteKey fun store => .inl .self
      · exact confined_pure false

include hm in
/-- Establishing a target writes its marker. -/
theorem confined_establishTarget (hsource : normalize? fs.root sourceKey = some sourceKey)
    (htarget : normalize? fs.root targetKey = some targetKey)
    (h : ∀ request, request.target = marker fs.config.suffix targetKey →
      ∀ store, allowed store request) :
    (fs.establishTarget sourceKey targetKey).Confined plan fs.bucket.name allowed world := by
  rw [establishTarget]
  refine (confined_classify sourceKey).bind fun kind between hrun _ => ?_
  split
  · rw [markerKey_eq hsource, markerKey_eq htarget, pure_bind, pure_bind]
    exact confined_copyKey fun store => h _ rfl store
  · exact confined_ensureMarker (hm.of_run hrun) htarget fun _ => h _ rfl _

end FileSystem

end KeyTree
