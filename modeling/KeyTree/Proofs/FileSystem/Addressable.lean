import KeyTree.Proofs.FileSystem.Footprint
import KeyTree.Proofs.Session

/-!
# Stored keys stay addressable

Every key that the file system writes is the key of a path other than the root, or the marker of the
key of a path. Both are normal, and a normal key is a path to itself. So a store whose keys are all
normal stays like that, whatever paths are given and whatever becomes of the requests, and each of
its objects is found and read at its own key.

## Main definitions

* `Request.WritesNormal` — requests that leave nothing under a key that is not normal.
* `StoreM.KeepsNormal` — computations that send no other writing requests.
* `Call.byPath` — the calls on a file system that name places by paths.
* `Session.Addressable` — sessions over a store with normal keys.

## Main results

* `FileSystem.keepsNormal_performPath` — every operation on paths keeps keys normal.
* `Session.performAll_addressable` — and so does every sequence of calls; what is stored then is
  found at its key.
-/

namespace KeyTree

open Key

/-! ### Normal keys -/

/-- The marker of the key of a path is normal, even that of the root. -/
theorem FileSystem.isNormal_marker (fs : FileSystem) {key : Key} (hkey : key = [] ∨ IsNormal key) :
    IsNormal (marker fs.config.suffix key) := by
  have hsuffix : IsName fs.config.suffix :=
    ⟨fs.config.suffix_ne_nil, fs.config.separator_notMem_suffix⟩
  rcases hkey with rfl | hkey
  · exact hsuffix.isNormal
  by_cases hmem : separator ∈ key
  · obtain ⟨parent, name, rfl, hname⟩ := exists_last_piece hmem
    rw [marker_child]
    have hparent : IsNormal parent := hkey.of_mem_ancestors (by simp [ancestors_child hname])
    refine hparent.child ⟨by simp [hsuffix.ne_nil], ?_⟩
    simp [hname, hsuffix.separator_notMem]
  · exact IsName.isNormal ⟨fs.marker_ne_nil key, by simp [marker, hmem, hsuffix.separator_notMem]⟩

/-- A request that removes something, or writes to a normal key or to none. -/
inductive Request.WritesNormal (store : Store) : Request → Prop
  | delete (k : Key) : WritesNormal store (.delete k)
  | normal {request : Request} (h : IsNormal request.target) : WritesNormal store request
  | keyless {request : Request} (h : request.hasKey = false) : WritesNormal store request

/-- Carrying such a request out leaves the keys of a store normal. -/
theorem Request.WritesNormal.isNormal {store : Store} {request : Request}
    (h : request.WritesNormal store) (hkey : request.hasKey = true)
    (hkeys : ∀ k ∈ store.objects, IsNormal k) :
    ∀ k ∈ (store.perform request).2.objects, IsNormal k := by
  cases h with
  | delete key => exact fun k hk => hkeys k (Objects.mem_remove_iff.mp hk).2
  | normal htarget =>
    intro k hk
    by_cases hself : k = request.target
    · rwa [hself]
    · exact hkeys k ((Objects.mem_congr (store.getElem?_perform_of_ne hself)).mp hk)
  | keyless hnone => exact absurd (hnone.symm.trans hkey) Bool.false_ne_true

/-- Storing an object at the key of a path. -/
theorem Request.writesNormal_copy {store : Store} (source : Key) {target : Key}
    (htarget : target = [] ∨ IsNormal target) : (copy source target).WritesNormal store := by
  rcases htarget with rfl | htarget
  · exact .keyless rfl
  · exact .normal htarget

theorem Request.writesNormal_upload {store : Store} {key : Key} (hkey : key = [] ∨ IsNormal key)
    (body : Bytes) : (upload key body).WritesNormal store := by
  rcases hkey with rfl | hkey
  · exact .keyless rfl
  · exact .normal hkey

namespace StoreM

variable {α β : Type} {bucket : List Char}

/-- A computation *keeps keys normal* when every request of it that writes a key writes a normal
one, whatever becomes of its requests. -/
def KeepsNormal (x : StoreM α) (bucket : List Char) : Prop :=
  ∀ plan world, x.Confined plan bucket Request.WritesNormal world

theorem keepsNormal_pure (a : α) : (pure a : StoreM α).KeepsNormal bucket :=
  fun _ _ => confined_pure a

theorem keepsNormal_throw (error : Error) : (throw error : StoreM α).KeepsNormal bucket :=
  fun _ _ => confined_throw error

theorem KeepsNormal.bind {x : StoreM α} {f : α → StoreM β} (hx : x.KeepsNormal bucket)
    (hf : ∀ a, (f a).KeepsNormal bucket) : (x >>= f).KeepsNormal bucket :=
  fun plan world => (hx plan world).bind fun a after _ _ => hf a plan after

theorem KeepsNormal.bind_pure {x : StoreM α} (hx : x.KeepsNormal bucket) (f : α → β) :
    (x >>= fun a => pure (f a)).KeepsNormal bucket :=
  hx.bind fun a => keepsNormal_pure (f a)

theorem keepsNormal_log_bind {level : Level} {text : List Char} {context : List (String × Datum)}
    {x : StoreM β} (hx : x.KeepsNormal bucket) :
    (log level text context >>= fun _ => x).KeepsNormal bucket :=
  fun plan _ => confined_log_bind fun after _ => hx plan after

end StoreM

/-! ### Operations -/

namespace FileSystem

open StoreM

variable {fs : FileSystem} {β : Type}

/-- What is done with the key of a path is done with a normal key or with that of the root. -/
theorem keepsNormal_key_bind {path : Path} {f : Key → StoreM β} {bucket : List Char}
    (h : ∀ key, normalize? fs.root path = some key → (f key).KeepsNormal bucket) :
    (fs.key path >>= f).KeepsNormal bucket := by
  cases hpath : normalize? fs.root path with
  | none =>
    rw [FileSystem.key, hpath]
    exact fun _ world => .refl world
  | some key =>
    rw [key_eq hpath, pure_bind]
    exact h key hpath

theorem keepsNormal_classify (path : Path) : (fs.classify path).KeepsNormal fs.bucket.name :=
  fun _ _ => confined_classify path

theorem keepsNormal_isFile (path : Path) : (fs.isFile path).KeepsNormal fs.bucket.name :=
  fun _ _ => confined_isFile path

theorem keepsNormal_allPages (key : Key) (recursive : Bool) :
    (fs.allPages key recursive).KeepsNormal fs.bucket.name :=
  fun _ _ => confined_allPages key recursive

theorem keepsNormal_refuse (refusal : Refusal) : (refuse refusal).KeepsNormal fs.bucket.name :=
  fun _ _ => confined_refuse refusal

/-- What is done with the marker of a path is done with a normal key. -/
theorem keepsNormal_markerKey_bind {path : Path} {f : Key → StoreM β} {bucket : List Char}
    (h : ∀ key, IsNormal key → (f key).KeepsNormal bucket) :
    (fs.markerKey path >>= f).KeepsNormal bucket := by
  rw [markerKey, bind_assoc]
  refine keepsNormal_key_bind fun key hpath => ?_
  rw [pure_bind]
  exact h _ (fs.isNormal_marker (isNormal_of_normalize? hpath))

theorem keepsNormal_ensureMarker (path : Path) :
    (fs.ensureMarker path).KeepsNormal fs.bucket.name := by
  rw [ensureMarker]
  refine keepsNormal_key_bind fun key _ => ?_
  split
  · exact keepsNormal_pure true
  · refine keepsNormal_markerKey_bind fun marker hmarker => ?_
    refine StoreM.KeepsNormal.bind (fun _ _ => confined_send _ fun _ => .normal hmarker) ?_
    rintro (fault | _)
    · exact keepsNormal_log_bind (keepsNormal_pure false)
    · exact keepsNormal_log_bind (keepsNormal_pure true)

theorem keepsNormal_isDirectory (path : Path) :
    (fs.isDirectory path).KeepsNormal fs.bucket.name := by
  rw [isDirectory]
  split
  · exact keepsNormal_log_bind (keepsNormal_pure false)
  · refine (keepsNormal_classify path).bind fun kind => ?_
    split
    · exact keepsNormal_log_bind ((keepsNormal_ensureMarker path).bind_pure _)
    · exact keepsNormal_pure _

theorem keepsNormal_exists? (path : Path) : (fs.exists? path).KeepsNormal fs.bucket.name := by
  rw [exists?]
  refine (keepsNormal_isFile path).bind fun found => ?_
  split
  · exact keepsNormal_pure true
  · exact keepsNormal_isDirectory path

theorem keepsNormal_parentExists (path : Path) :
    (fs.parentExists path).KeepsNormal fs.bucket.name := by
  rw [parentExists]
  refine keepsNormal_key_bind fun key _ => ?_
  split
  · exact keepsNormal_pure true
  · exact keepsNormal_isDirectory _

theorem keepsNormal_lookUp (path : Path) (key object : Key) :
    (fs.lookUp path key object).KeepsNormal fs.bucket.name := by
  rw [lookUp]
  refine StoreM.KeepsNormal.bind (fun _ _ => Bucket.confined_metadata object) fun reply => ?_
  split
  · exact keepsNormal_pure _
  · exact keepsNormal_throw _
  · exact keepsNormal_log_bind (keepsNormal_throw _)

theorem keepsNormal_metadata (path : Path) : (fs.metadata path).KeepsNormal fs.bucket.name := by
  rw [metadata]
  refine keepsNormal_key_bind fun key _ => (keepsNormal_isDirectory key).bind fun found => ?_
  split
  · exact keepsNormal_markerKey_bind fun object _ => keepsNormal_lookUp path key object
  · exact keepsNormal_lookUp path key key

theorem keepsNormal_listStatus (path : Path) (recursive : Bool) :
    (fs.listStatus path recursive).KeepsNormal fs.bucket.name := by
  rw [listStatus]
  refine keepsNormal_key_bind fun key _ => (keepsNormal_isDirectory key).bind fun found => ?_
  split
  · exact keepsNormal_pure none
  · exact (keepsNormal_allPages key recursive).bind_pure _

/-! ### Operations that change the tree -/

theorem keepsNormal_deleteKey (key : Key) : (fs.deleteKey key).KeepsNormal fs.bucket.name :=
  fun _ _ => confined_deleteKey fun _ => .delete key

theorem keepsNormal_deleteFile (path : Path) :
    (fs.deleteFile path).KeepsNormal fs.bucket.name :=
  keepsNormal_key_bind fun key _ => keepsNormal_deleteKey key

theorem keepsNormal_clearDirectory (path : Path) (key : Key) (recursive : Bool) :
    (fs.clearDirectory path key recursive).KeepsNormal fs.bucket.name := by
  rw [clearDirectory]
  split
  · refine StoreM.KeepsNormal.bind (fun _ _ => confined_subtreeKeys key) fun keys => ?_
    split
    · exact keepsNormal_pure false
    · exact fun _ _ => confined_deleteKeys key fun k _ _ => .delete k
  · refine (keepsNormal_listStatus key false).bind fun entries => ?_
    split
    · exact keepsNormal_log_bind (keepsNormal_pure false)
    · exact keepsNormal_pure true
    · exact keepsNormal_throw _

theorem keepsNormal_deleteDirectory (path : Path) (recursive : Bool) :
    (fs.deleteDirectory path recursive).KeepsNormal fs.bucket.name := by
  rw [deleteDirectory]
  refine keepsNormal_key_bind fun key _ =>
    (keepsNormal_clearDirectory path key recursive).bind fun cleared => ?_
  split
  · exact keepsNormal_pure false
  · split
    · exact keepsNormal_pure true
    · exact keepsNormal_markerKey_bind fun marker _ => keepsNormal_deleteKey marker

theorem keepsNormal_delete (path : Path) (recursive : Bool) :
    (fs.delete path recursive).KeepsNormal fs.bucket.name := by
  rw [delete]
  refine (keepsNormal_isFile path).bind fun isFile => ?_
  split
  · exact keepsNormal_deleteFile path
  · refine (keepsNormal_isDirectory path).bind fun isDirectory => ?_
    split
    · exact keepsNormal_deleteDirectory path recursive
    · exact keepsNormal_refuse _

theorem keepsNormal_copyKey {source target : Key} (htarget : target = [] ∨ IsNormal target) :
    (fs.copyKey source target).KeepsNormal fs.bucket.name :=
  fun _ _ => confined_copyKey fun _ => Request.writesNormal_copy source htarget

theorem keepsNormal_renameFile (source target : Path) :
    (fs.renameFile source target).KeepsNormal fs.bucket.name := by
  rw [renameFile]
  refine (keepsNormal_isFile source).bind fun isFile => ?_
  split
  · exact (keepsNormal_refuse _).bind_pure id
  refine (keepsNormal_exists? target).bind fun taken => ?_
  split
  · exact (keepsNormal_refuse _).bind_pure id
  refine keepsNormal_key_bind fun sourceKey _ => keepsNormal_key_bind fun targetKey htarget => ?_
  refine (keepsNormal_copyKey (isNormal_of_normalize? htarget)).bind fun done => ?_
  split
  · exact keepsNormal_deleteKey sourceKey
  · exact keepsNormal_pure false

theorem keepsNormal_establishTarget (sourceKey targetKey : Key) :
    (fs.establishTarget sourceKey targetKey).KeepsNormal fs.bucket.name := by
  rw [establishTarget]
  refine (keepsNormal_classify sourceKey).bind fun kind => ?_
  split
  · exact keepsNormal_markerKey_bind fun sourceMarker _ =>
      keepsNormal_markerKey_bind fun targetMarker htarget => keepsNormal_copyKey (Or.inr htarget)
  · exact keepsNormal_ensureMarker targetKey

/-- The entries of a directory are moved as paths of their own. -/
theorem keepsNormal_moveEntry {depth : Nat}
    (ih : ∀ source target, (fs.renameWithin depth source target).KeepsNormal fs.bucket.name)
    (source target : Path) (sourceKey targetKey : Key) (entry : Status) :
    (fs.moveEntry depth source target sourceKey targetKey entry).KeepsNormal fs.bucket.name := by
  rw [moveEntry]
  split
  · exact (ih _ _).bind fun moved _ _ => confined_recorded
  · exact (keepsNormal_renameFile _ _).bind fun moved _ _ => confined_recorded

theorem keepsNormal_renameWithin (depth : Nat) (source target : Path) :
    (fs.renameWithin depth source target).KeepsNormal fs.bucket.name := by
  induction depth generalizing source target with
  | zero => exact keepsNormal_throw _
  | succ depth ih =>
    rw [renameWithin]
    refine keepsNormal_key_bind fun sourceKey _ => keepsNormal_key_bind fun targetKey _ => ?_
    split
    · exact keepsNormal_refuse _
    split
    · exact keepsNormal_refuse _
    refine (keepsNormal_listStatus source false).bind fun entries => ?_
    split
    · exact keepsNormal_log_bind (keepsNormal_pure false)
    rename_i entries
    refine (keepsNormal_exists? target).bind fun taken => ?_
    split
    · exact keepsNormal_refuse _
    refine (keepsNormal_establishTarget sourceKey targetKey).bind fun established => ?_
    split
    · exact keepsNormal_pure false
    have hmove : (entries.allM
        (fs.moveEntry depth source target sourceKey targetKey)).KeepsNormal fs.bucket.name :=
      fun plan world => confined_allM entries fun entry _ between _ =>
        keepsNormal_moveEntry ih source target sourceKey targetKey entry plan between
    refine hmove.bind fun moved => ?_
    split
    · exact keepsNormal_deleteDirectory sourceKey true
    · exact keepsNormal_pure false

theorem keepsNormal_renameDirectory (source target : Path) :
    (fs.renameDirectory source target).KeepsNormal fs.bucket.name := by
  have hbound : StoreM.depthBound.KeepsNormal fs.bucket.name := fun _ world => .refl world
  exact hbound.bind fun depth => keepsNormal_renameWithin depth source target

/-- The creation of a directory asks about its path and marks it, before or after its parent. -/
theorem keepsNormal_mkdirsBelow_of_after {above : List Key} {path : Path} (createParent : Bool)
    (hafter : (fs.mkdirsAfter path above).KeepsNormal fs.bucket.name) :
    (fs.mkdirsBelow above path createParent).KeepsNormal fs.bucket.name := by
  rw [mkdirsBelow_eq]
  refine (keepsNormal_isDirectory path).bind fun isDirectory => ?_
  split
  · exact keepsNormal_pure true
  refine (keepsNormal_isFile path).bind fun isFile => ?_
  split
  · exact keepsNormal_refuse _
  refine (keepsNormal_parentExists path).bind fun found => ?_
  split
  · exact keepsNormal_ensureMarker path
  split
  · exact keepsNormal_refuse _
  · exact hafter

theorem keepsNormal_mkdirsBelow (above : List Key) (path : Path) (createParent : Bool) :
    (fs.mkdirsBelow above path createParent).KeepsNormal fs.bucket.name := by
  induction above generalizing path createParent with
  | nil => exact keepsNormal_mkdirsBelow_of_after createParent (keepsNormal_pure false)
  | cons parent above ih =>
    refine keepsNormal_mkdirsBelow_of_after createParent ?_
    rw [mkdirsAfter]
    refine (ih parent true).bind fun made => ?_
    split
    · exact keepsNormal_ensureMarker path
    · exact keepsNormal_pure false

theorem keepsNormal_mkdirs (path : Option Path) (createParent : Bool) :
    (fs.mkdirs path createParent).KeepsNormal fs.bucket.name := by
  cases path with
  | none => exact keepsNormal_pure false
  | some path => exact keepsNormal_mkdirsBelow _ path createParent

/-- A stored object is seen as a file, if the request for that passes. -/
theorem returns_isFile_of_passes {path : Path} {key : Key} {o : Object} {plan : Plan}
    {world : World} (hm : fs.Mounted world.store) (hpath : normalize? fs.root path = some key)
    (hstored : world.store.objects[key]? = some o)
    (hpass : plan.Passes world.requests (.head key)) :
    (fs.isFile path).Returns plan world fun found _ => found = true := by
  have hkey : key ≠ [] := by
    rintro rfl
    exact absurd hpass.1 (by decide)
  have hperform : world.store.perform (.head key) =
      (.ok ⟨o.body.length, .known o.modified⟩, world.store) := by
    simp only [Store.perform, hstored]
  simp only [isFile, hpath]
  rw [if_neg (by simpa [isRoot] using hkey), Bucket.metadata, bind_assoc]
  refine (returns_send_of_passes hm.bucket_eq hpass).bind ?_
  rintro reply after ⟨-, rfl, -⟩
  rw [hperform]
  exact returns_pure_iff.mpr rfl

/-- A stored object is read, if the request for that passes. -/
theorem returns_open?_of_passes {path : Path} {key : Key} {o : Object} {plan : Plan}
    {world : World} (hm : fs.Mounted world.store) (hpath : normalize? fs.root path = some key)
    (hstored : world.store.objects[key]? = some o)
    (hpass : plan.Passes world.requests (.get key)) :
    (fs.open? path).Returns plan world fun body _ => body = some o.body := by
  have hperform : world.store.perform (.get key) = (.ok o.body, world.store) := by
    simp only [Store.perform, hstored]
  rw [open?, key_eq hpath, pure_bind]
  refine (returns_send_of_passes hm.bucket_eq hpass).bind ?_
  rintro reply after ⟨-, rfl, -⟩
  rw [hperform]
  exact returns_pure_iff.mpr rfl

/-- Whatever becomes of its requests, a call on paths writes normal keys only. -/
theorem keepsNormal_performPath (call : PathCall) :
    (Session.performPath fs call).KeepsNormal fs.bucket.name := by
  cases call with
  | key path => exact keepsNormal_key_bind fun key _ => keepsNormal_pure _
  | markerKey path => exact keepsNormal_markerKey_bind fun key _ => keepsNormal_pure _
  | classify path => exact (keepsNormal_classify path).bind_pure _
  | ensureMarker path => exact (keepsNormal_ensureMarker path).bind_pure _
  | parentExists path => exact (keepsNormal_parentExists path).bind_pure _
  | metadata path =>
    exact (keepsNormal_metadata path).bind fun _ _ _ => confined_ofExcept _
  | isDirectory path => exact (keepsNormal_isDirectory path).bind_pure _
  | isFile path => exact (keepsNormal_isFile path).bind_pure _
  | exists? path => exact (keepsNormal_exists? path).bind_pure _
  | fileSize path => exact ((keepsNormal_metadata path).bind_pure _).bind_pure _
  | modificationMilliseconds path =>
    exact ((keepsNormal_metadata path).bind fun _ _ _ => confined_ofExcept _).bind_pure _
  | listStatus path recursive => exact (keepsNormal_listStatus path recursive).bind_pure _
  | listNames path recursive =>
    exact ((keepsNormal_listStatus path recursive).bind_pure _).bind_pure _
  | mkdirs path createParent => exact (keepsNormal_mkdirs path createParent).bind_pure _
  | renameFile source target => exact (keepsNormal_renameFile source target).bind_pure _
  | renameDirectory source target => exact (keepsNormal_renameDirectory source target).bind_pure _
  | delete path recursive => exact (keepsNormal_delete path recursive).bind_pure _
  | deleteFile path => exact (keepsNormal_deleteFile path).bind_pure _
  | deleteDirectory path recursive =>
    exact (keepsNormal_deleteDirectory path recursive).bind_pure _
  | open? path =>
    exact StoreM.KeepsNormal.bind_pure (fun _ _ => confined_open? path) _

theorem keepsNormal_create (path : Path) (createParent : Bool) :
    (fs.create path createParent).KeepsNormal fs.bucket.name := by
  rw [create]
  refine keepsNormal_key_bind fun key _ => ?_
  split
  · split
    · refine (keepsNormal_mkdirs _ true).bind fun made => ?_
      split
      · exact (keepsNormal_throw _).bind_pure _
      · exact keepsNormal_pure _
    · exact keepsNormal_pure _
  · exact keepsNormal_pure _

/-- A stream that is opened at a path writes to a normal key, or to that of the root. -/
theorem key_of_create {path : Path} {createParent : Bool} {plan : Plan} {world after : World}
    {stream : OutputStream}
    (h : (fs.create path createParent).exec plan world = (.ok stream, after)) :
    stream.key = [] ∨ IsNormal stream.key := by
  cases hpath : normalize? fs.root path with
  | none =>
    rw [create, FileSystem.key, hpath] at h
    cases h
  | some key =>
    rw [eq_of_create hpath h]
    exact isNormal_of_normalize? hpath

end FileSystem

theorem OutputStream.keepsNormal_store {stream : OutputStream}
    (hkey : stream.key = [] ∨ IsNormal stream.key) :
    stream.store.KeepsNormal stream.bucket.name := by
  rw [store]
  split
  · exact StoreM.keepsNormal_pure ()
  · refine StoreM.KeepsNormal.bind
      (fun _ _ => StoreM.confined_send _ fun _ => Request.writesNormal_upload hkey _) ?_
    rintro (fault | _)
    · exact StoreM.keepsNormal_throw _
    · exact fun _ _ => StoreM.confined_log ..

/-! ### Sessions -/

/-- The calls on a file system that name places by paths only. A stream that is made for a key is
not among them. -/
def Call.byPath : Call → Bool
  | .path _ | .ownership _ => true
  | .stream _ (.new ..) => false
  | .stream .. => true
  | _ => false

namespace Session

variable {fs : FileSystem} {plan : Plan} {α β : Type}

/-- A session over a file system is *addressable* when all stored keys are normal and the open
streams write to normal keys, or to that of the root, which stores nothing. -/
structure Addressable (fs : FileSystem) (plan : Plan) (session : Session) : Prop where
  fs_eq : session.fs = fs
  plan_eq : session.plan = plan
  mounted : fs.Mounted session.world.store
  keys : ∀ k ∈ session.world.store.objects, IsNormal k
  streams : ∀ (name : String) (stream : OutputStream),
    session.handles[name]? = some (.stream stream) →
    stream.key = [] ∨ IsNormal stream.key

/-- A computation in a session *stays addressable* when it leaves an addressable session so, and
what it comes back with is as the post-condition says. -/
def StaysAddressable (fs : FileSystem) (plan : Plan) (x : SessionM α) (post : α → Prop) : Prop :=
  ∀ session, Addressable fs plan session → Addressable fs plan (x.run.run session).2 ∧
    ∀ a, (x.run.run session).1 = .ok a → post a

theorem staysAddressable_pure {a : α} {post : α → Prop} (h : post a) :
    StaysAddressable fs plan (pure a) post :=
  fun _ hsession => ⟨hsession, fun _ heq => Except.ok.inj heq ▸ h⟩

theorem staysAddressable_throw (error : Error) (post : α → Prop) :
    StaysAddressable fs plan (throw error) post :=
  fun _ hsession => ⟨hsession, nofun⟩

theorem StaysAddressable.bind {x : SessionM α} {f : α → SessionM β} {mid : α → Prop}
    {post : β → Prop} (hx : StaysAddressable fs plan x mid)
    (hf : ∀ a, mid a → StaysAddressable fs plan (f a) post) :
    StaysAddressable fs plan (x >>= f) post := by
  intro session hsession
  obtain ⟨hafter, hmid⟩ := hx session hsession
  rw [bind_run]
  rcases hrun : x.run.run session with ⟨result, after⟩
  rw [hrun] at hafter hmid
  cases result with
  | error error => exact ⟨hafter, nofun⟩
  | ok a => exact hf a (hmid a rfl) after hafter

theorem staysAddressable_forM {f : α → SessionM Unit} (l : List α)
    (h : ∀ a, StaysAddressable fs plan (f a) fun _ => True) :
    StaysAddressable fs plan (l.forM f) fun _ => True := by
  induction l with
  | nil => exact staysAddressable_pure trivial
  | cons a l ih => exact (h a).bind fun _ _ => ih

/-- A computation over the store that keeps keys normal stays addressable. -/
theorem staysAddressable_liftStore {x : StoreM α} {bucket : List Char} {post : α → Prop}
    (hx : x.KeepsNormal bucket)
    (hpost : ∀ world a after, x.exec plan world = (.ok a, after) → post a) :
    StaysAddressable fs plan (liftStore x) post := by
  intro session hsession
  have hrun := hx session.plan session.world
  rw [liftStore_run]
  refine ⟨{ hsession with mounted := ?_, keys := ?_ }, fun a ha => ?_⟩
  · exact ⟨hsession.mounted.bucket_eq.trans hrun.bucket_eq.symm, hsession.mounted.named⟩
  · exact hrun.invariant_of_hasKey (fun store => ∀ k ∈ store.objects, IsNormal k)
      (fun _ _ h => h.isNormal) hsession.keys
  · rw [hsession.plan_eq] at ha
    exact hpost session.world a _ (StoreM.exec_eq_of_fst ha)

theorem staysAddressable_get {f : Session → SessionM α} {post : α → Prop}
    (h : ∀ session : Session, session.fs = fs → StaysAddressable fs plan (f session) post) :
    StaysAddressable fs plan (get >>= f) post := by
  intro session hsession
  rw [get_bind_run]
  exact h session hsession.fs_eq session hsession

theorem staysAddressable_keep (name : String) (stream : OutputStream)
    (hkey : stream.key = [] ∨ IsNormal stream.key) :
    StaysAddressable fs plan (keep name (.stream stream)) fun _ => True := by
  intro session hsession
  rw [keep_run]
  refine ⟨{ hsession with streams := fun other kept hkept => ?_ }, fun _ _ => trivial⟩
  rw [Std.ExtTreeMap.getElem?_insert] at hkept
  split at hkept
  · cases hkept
    exact hkey
  · exact hsession.streams other kept hkept

theorem staysAddressable_streamOf (name : String) :
    StaysAddressable fs plan (streamOf name) fun stream =>
      stream.key = [] ∨ IsNormal stream.key := by
  intro session hsession
  rw [streamOf, get_bind_run]
  split
  · rename_i stream hstream
    exact ⟨hsession, fun _ heq => Except.ok.inj heq ▸ hsession.streams name stream hstream⟩
  · exact ⟨hsession, fun _ hthrown => by cases hthrown⟩

theorem staysAddressable_requireOpen (name : String) :
    StaysAddressable fs plan (requireOpen name) fun _ => True := by
  refine (staysAddressable_streamOf name).bind fun stream _ => ?_
  split
  · exact staysAddressable_throw _ _
  · exact staysAddressable_pure trivial

theorem staysAddressable_writeTo (name : String) (data : Bytes) :
    StaysAddressable fs plan (writeTo name data) fun _ => True := by
  refine (staysAddressable_streamOf name).bind fun stream hkey => ?_
  rw [OutputStream.write]
  split
  · rename_i written hwritten
    split at hwritten
    · cases hwritten
    · cases hwritten
      exact staysAddressable_keep name _ hkey
  · exact staysAddressable_throw _ _

theorem staysAddressable_closeStream (name : String) :
    StaysAddressable fs plan (closeStream name) fun _ => True := by
  refine (staysAddressable_streamOf name).bind fun stream hkey => ?_
  refine (staysAddressable_keep name stream.close hkey).bind fun _ _ => ?_
  exact staysAddressable_liftStore (OutputStream.keepsNormal_store hkey) fun _ _ _ _ => trivial

theorem staysAddressable_performStream (name : String) (call : StreamCall)
    (hcall : (Call.stream name call).byPath = true) :
    StaysAddressable fs plan (performStream name call) fun _ => True := by
  cases call with
  | new => exact Bool.noConfusion hcall
  | create path createParent =>
    refine staysAddressable_get fun session hfs => ?_
    refine (staysAddressable_liftStore (FileSystem.keepsNormal_create path createParent)
      fun _ _ _ => FileSystem.key_of_create).bind fun stream hkey => ?_
    exact (staysAddressable_keep name stream hkey).bind fun _ _ => staysAddressable_pure trivial
  | write data =>
    exact (staysAddressable_writeTo name data).bind fun _ _ => staysAddressable_pure trivial
  | writeLines data =>
    refine (staysAddressable_requireOpen name).bind fun _ _ => ?_
    exact (staysAddressable_forM data (staysAddressable_writeTo name)).bind
      fun _ _ => staysAddressable_pure trivial
  | scope data failure =>
    refine (staysAddressable_requireOpen name).bind fun _ _ => ?_
    refine (staysAddressable_forM data (staysAddressable_writeTo name)).bind fun _ _ => ?_
    refine (staysAddressable_closeStream name).bind fun _ _ => ?_
    split
    · exact staysAddressable_throw _ _
    · exact staysAddressable_pure trivial
  | close =>
    exact (staysAddressable_closeStream name).bind fun _ _ => staysAddressable_pure trivial
  | state =>
    exact (staysAddressable_streamOf name).bind fun _ _ => staysAddressable_pure trivial

/-- Whatever becomes of its requests, a call by path leaves an addressable session so. -/
theorem addressable_perform {session : Session} (h : Addressable fs plan session) {call : Call}
    (hcall : call.byPath = true) : Addressable fs plan (session.perform call).2 := by
  have hstays : StaysAddressable fs plan (performM call) fun _ => True := by
    cases call with
    | path call =>
      refine staysAddressable_get fun session hfs => ?_
      exact staysAddressable_liftStore (FileSystem.keepsNormal_performPath call)
        fun _ _ _ _ => trivial
    | ownership call =>
      exact staysAddressable_get fun session hfs => staysAddressable_pure trivial
    | stream name call => exact staysAddressable_performStream name call hcall
    | bucket | cursor | outside | command => exact Bool.noConfusion hcall
  exact (hstays session h).1

/-- And so does a sequence of calls. -/
theorem addressable_performAll {session : Session} (h : Addressable fs plan session)
    {calls : List Call} (hcalls : ∀ call ∈ calls, call.byPath = true) :
    Addressable fs plan (session.performAll calls).2 := by
  induction calls generalizing session with
  | nil => exact h
  | cons call calls ih =>
    exact ih (addressable_perform h (hcalls call List.mem_cons_self))
      fun later hmem => hcalls later (List.mem_cons_of_mem _ hmem)

/-- What is stored in an addressable session is found and read at its own key, if the requests for
that pass. -/
theorem Addressable.finds {session : Session} (h : Addressable fs plan session) {k : Key}
    {o : Object} (hstored : session.world.store.objects[k]? = some o) :
    normalize? fs.root k = some k ∧
      (plan.Passes session.world.requests (.head k) →
        (session.perform (.path (.isFile k))).1 = .ok (.flag true)) ∧
      (plan.Passes session.world.requests (.get k) →
        (session.perform (.path (.open? k))).1 = .ok (.bytes o.body)) := by
  obtain ⟨rfl, rfl, hm, hkeys, -⟩ := h
  have hpath := hm.normalize? (hkeys k (Objects.mem_of_getElem? hstored))
  refine ⟨hpath, fun hpass => ?_, fun hpass => ?_⟩
  · obtain ⟨found, after, hexec, rfl⟩ := FileSystem.returns_isFile_of_passes hm hpath hstored hpass
    rw [perform_path, performPath, StoreM.exec_bind, hexec]
    rfl
  · obtain ⟨body, after, hexec, rfl⟩ := FileSystem.returns_open?_of_passes hm hpath hstored hpass
    rw [perform_path, performPath, StoreM.exec_bind, hexec]
    rfl

/-- Whatever calls are made by path and whatever becomes of their requests, all keys stay normal. So
every stored key is a path to itself, where its object is seen as a file and read, if the requests
for that pass. -/
theorem performAll_addressable {session : Session} (h : Addressable fs plan session)
    {calls : List Call} (hcalls : ∀ call ∈ calls, call.byPath = true) {after : Session}
    (hafter : (session.performAll calls).2 = after) :
    Addressable fs plan after ∧
      ∀ k o, after.world.store.objects[k]? = some o →
        normalize? fs.root k = some k ∧
        (plan.Passes after.world.requests (.head k) →
          (after.perform (.path (.isFile k))).1 = .ok (.flag true)) ∧
        (plan.Passes after.world.requests (.get k) →
          (after.perform (.path (.open? k))).1 = .ok (.bytes o.body)) := by
  subst hafter
  have hend := addressable_performAll h hcalls
  exact ⟨hend, fun k o hstored => hend.finds hstored⟩

/-- Calls on paths with separators doubled and left over, on URIs, and on the root. -/
def spelledCalls : List Call :=
  [.path (.renameDirectory "/p//a/".toList "s3://b//q/r/".toList),
    .path (.mkdirs (some "//m///n".toList) true), .stream "out" (.create "s3://b/".toList false),
    .stream "out" .close, .path (.delete "p/ab//".toList true)]

/-- The rename is cut short, and the stream at the root cannot be stored. -/
theorem performAll_addressable_spelledCalls :
    Addressable FileSystem.plainBucket FileSystem.secondFileStays FileSystem.stuckSession ∧
      (∀ call ∈ spelledCalls, call.byPath = true) ∧
      ∃ after, (FileSystem.stuckSession.performAll spelledCalls).2 = after ∧
        after.world.store.objects.keys = ["m/n_$folder$".toList, "m_$folder$".toList,
          "p/a.b".toList, "p/a/y".toList, "p/a_$folder$".toList, "q/r/x".toList, "q/r/y".toList,
          "q/r_$folder$".toList] ∧
        (∀ k ∈ after.world.store.objects, IsNormal k) ∧
        (after.perform (.path (.isFile "q/r/y".toList))).1 = .ok (.flag true) ∧
        (after.perform (.path (.open? "q/r/y".toList))).1 = .ok (.bytes [2]) := by
  have haddressable :
      Addressable FileSystem.plainBucket FileSystem.secondFileStays FileSystem.stuckSession := by
    refine ⟨rfl, rfl, ⟨rfl, 'b', by decide, by decide⟩, fun k hk => ?_, fun name stream h => ?_⟩
    · obtain ⟨entry, hentry, rfl⟩ := Store.mem_holding.mp hk
      revert entry
      decide
    · simp [FileSystem.stuckSession] at h
  have hcalls : ∀ call ∈ spelledCalls, call.byPath = true := by decide
  obtain ⟨hend, hfinds⟩ := performAll_addressable haddressable hcalls rfl
  obtain ⟨-, hfile, hopen⟩ := hfinds "q/r/y".toList ⟨[2], 8⟩ (by decide +kernel)
  exact ⟨haddressable, hcalls, _, rfl, by decide +kernel, hend.keys,
    hfile ⟨by decide +kernel, by decide +kernel⟩, hopen ⟨by decide +kernel, by decide +kernel⟩⟩

end Session

end KeyTree
