import KeyTree.Proofs.FileSystem.Footprint
import KeyTree.Proofs.Session

/-!
# The spelling of paths

A path is looked at through its key, so an operation that is given another path with the same key
does the same. Only what it says at its end can tell the two apart: an error, or the last event
before a "no", quotes the path as it was given.

## Main definitions

* `SameKey` — two paths with one key.
* `Error.unquoted`, `Event.unquoted`, `Entry.unquoted` — what is said, without the paths quoted.
* `StoreM.Restates` — computations that do the same and end saying the same but for the paths.
* `PathCall.withPaths`, `Call.withPaths` — a call on other paths.

## Main results

* `FileSystem.restates_performPath` — every operation is restated on paths with the same keys.
* `Session.perform_withPaths` — in a session the two calls send the same requests, end alike and
  leave the same store.
-/

namespace KeyTree

open Key

/-- Two paths under a root have the *same key*. -/
def SameKey (root path path' : Path) : Prop :=
  ∃ key, normalize? root path = some key ∧ normalize? root path' = some key

/-! ### What is said -/

/-- An error without the path that it quotes. -/
def Error.unquoted : Error → Error
  | outside _ root => outside [] root
  | notFound _ => notFound []
  | notEmpty _ => notEmpty []
  | noParent _ => noParent []
  | error => error

namespace Event

/-- The names of the data that are paths. -/
def pathNames : List String := ["path", "src", "dst"]

/-- An event without the paths among its data, and without its text if there are any. -/
def unquoted (event : Event) : Event :=
  { event with
    text := if event.context.any (·.1 ∈ pathNames) then [] else event.text
    context := event.context.map fun entry =>
      if entry.1 ∈ pathNames then (entry.1, .text []) else entry }

end Event

/-- A journal entry without the paths that it quotes. -/
def Entry.unquoted : Entry → Entry
  | event e => event e.unquoted
  | entry => entry

/-! ### Computations that say the same -/

namespace StoreM

variable {α β : Type} {no : α → Prop} {no' : β → Prop}

/-- Two outcomes *tell the same* when they are equal, end with errors that differ in the path
quoted, or answer "no" after events that differ so. -/
inductive TellsSame (no : α → Prop) : Except Error α × World → Except Error α × World → Prop
  | same (outcome : Except Error α × World) : TellsSame no outcome outcome
  | error {error error' : Error} (h : error'.unquoted = error.unquoted) (world : World) :
      TellsSame no (.error error, world) (.error error', world)
  | event {a : α} (ha : no a) {event event' : Event} (h : event'.unquoted = event.unquoted)
      (world : World) :
      TellsSame no (.ok a, { world with journal := .event event :: world.journal })
        (.ok a, { world with journal := .event event' :: world.journal })

/-- A computation *restates* another one when the two tell the same from every world and under every
plan. -/
def Restates (no : α → Prop) (x y : StoreM α) : Prop :=
  ∀ plan world, TellsSame no (x.exec plan world) (y.exec plan world)

theorem Restates.of_eq {x y : StoreM α} (h : y = x) : Restates no x y := by
  subst h
  exact fun _ _ => .same _

theorem restates_throw {error error' : Error} (h : error'.unquoted = error.unquoted) :
    Restates no (throw error : StoreM α) (throw error') :=
  fun _ world => .error h world

/-- What comes after a "no" has to answer "no" at once. -/
theorem Restates.bind {x y : StoreM α} {f g : α → StoreM β} (h : Restates no x y)
    (hnext : ∀ a, Restates no' (f a) (g a))
    (hno : ∀ a, no a → ∃ b, no' b ∧ f a = pure b ∧ g a = pure b) :
    Restates no' (x >>= f) (y >>= g) := by
  intro plan world
  have hxy := h plan world
  rw [exec_bind, exec_bind]
  generalize x.exec plan world = outcome at hxy
  generalize y.exec plan world = outcome' at hxy
  cases hxy with
  | same =>
    rcases outcome with ⟨error | a, after⟩
    · exact .same _
    · exact hnext a plan after
  | error h world => exact .error h world
  | @event a ha event event' h world =>
    obtain ⟨b, hb, hf, hg⟩ := hno a ha
    dsimp only
    rw [hf, hg]
    exact .event hb h world

/-- After one beginning. -/
theorem restates_bind {x : StoreM α} {f g : α → StoreM β} (hnext : ∀ a, Restates no' (f a) (g a)) :
    Restates no' (x >>= f) (x >>= g) := by
  have hx : Restates (fun _ => False) x x := .of_eq rfl
  exact hx.bind hnext nofun

theorem Restates.bind_pure {x y : StoreM α} (h : Restates no x y) {f : α → β}
    (hno : ∀ a, no a → no' (f a)) :
    Restates no' (x >>= fun a => pure (f a)) (y >>= fun a => pure (f a)) :=
  h.bind (fun _ => .of_eq rfl) fun a ha => ⟨f a, hno a ha, rfl, rfl⟩

/-- Computations that only the paths in their errors tell apart may go on alike. -/
theorem Restates.bind_same {x y : StoreM α} (h : Restates (fun _ => False) x y)
    (f : α → StoreM β) : Restates no' (x >>= f) (y >>= f) :=
  h.bind (fun _ => .of_eq rfl) nofun

/-- A "no" after events that differ in the paths that they quote. -/
theorem restates_log_false {level : Level} {text text' : List Char}
    {context context' : List (String × Datum)}
    (h : Event.unquoted ⟨level, text', context'⟩ = Event.unquoted ⟨level, text, context⟩) :
    Restates (· = false) (do log level text context; pure false)
      (do log level text' context'; pure false) := by
  intro plan world
  refine .event ?_ h world
  rfl

/-- A loop is restated if its rounds are. -/
theorem restates_allM {f g : α → StoreM Bool} (l : List α)
    (h : ∀ a, Restates (· = false) (f a) (g a)) : Restates (· = false) (l.allM f) (l.allM g) := by
  induction l with
  | nil => exact .of_eq rfl
  | cons a rest ih =>
    rw [List.allM, List.allM]
    refine (h a).bind (fun more => ?_) fun more hmore => ⟨false, rfl, by rw [hmore], by rw [hmore]⟩
    cases more with
    | true => exact ih
    | false => exact .of_eq rfl

end StoreM

/-! ### Calls on other paths -/

namespace PathCall

/-- The call on other paths, if they are as many. -/
def withPaths : PathCall → List Path → PathCall
  | .key _, [path] => .key path
  | .markerKey _, [path] => .markerKey path
  | .classify _, [path] => .classify path
  | .ensureMarker _, [path] => .ensureMarker path
  | .parentExists _, [path] => .parentExists path
  | .metadata _, [path] => .metadata path
  | .isDirectory _, [path] => .isDirectory path
  | .isFile _, [path] => .isFile path
  | .exists? _, [path] => .exists? path
  | .fileSize _, [path] => .fileSize path
  | .modificationMilliseconds _, [path] => .modificationMilliseconds path
  | .listStatus _ recursive, [path] => .listStatus path recursive
  | .listNames _ recursive, [path] => .listNames path recursive
  | .mkdirs (some _) createParent, [path] => .mkdirs (some path) createParent
  | .renameFile _ _, [source, target] => .renameFile source target
  | .renameDirectory _ _, [source, target] => .renameDirectory source target
  | .delete _ recursive, [path] => .delete path recursive
  | .deleteFile _, [path] => .deleteFile path
  | .deleteDirectory _ recursive, [path] => .deleteDirectory path recursive
  | .open? _, [path] => .open? path
  | call, _ => call

end PathCall

namespace Call

/-- The paths of a call. -/
def paths : Call → List Path
  | .path call => call.paths
  | .ownership (.owner p) | .ownership (.group p) | .ownership (.mode p)
  | .ownership (.setOwner p ..) | .ownership (.setMode p _) | .stream _ (.create p _) => [p]
  | _ => []

/-- The call on other paths, if they are as many. -/
def withPaths : Call → List Path → Call
  | .path call, ps => .path (call.withPaths ps)
  | .ownership (.owner _), [p] => .ownership (.owner p)
  | .ownership (.group _), [p] => .ownership (.group p)
  | .ownership (.mode _), [p] => .ownership (.mode p)
  | .ownership (.setOwner _ owner group), [p] => .ownership (.setOwner p owner group)
  | .ownership (.setMode _ mode), [p] => .ownership (.setMode p mode)
  | .stream name (.create _ createParent), [p] => .stream name (.create p createParent)
  | call, _ => call

end Call

/-! ### Operations -/

namespace FileSystem

open StoreM

variable {fs : FileSystem} {path path' source source' target target' : Path}

section

variable (h : SameKey fs.root path path')

include h

theorem key_congr : fs.key path' = fs.key path := by
  obtain ⟨key, hpath, hpath'⟩ := h
  rw [key_eq hpath, key_eq hpath']

theorem markerKey_congr : fs.markerKey path' = fs.markerKey path := by
  rw [markerKey, markerKey, key_congr h]

theorem classify_congr : fs.classify path' = fs.classify path := by
  rw [classify, classify, key_congr h]

theorem ensureMarker_congr : fs.ensureMarker path' = fs.ensureMarker path := by
  rw [ensureMarker, ensureMarker, key_congr h]

theorem isDirectory_congr : fs.isDirectory path' = fs.isDirectory path := by
  obtain ⟨key, hpath, hpath'⟩ := h
  simp only [isDirectory, hpath, hpath', classify_congr ⟨key, hpath, hpath'⟩,
    ensureMarker_congr ⟨key, hpath, hpath'⟩]

theorem isFile_congr : fs.isFile path' = fs.isFile path := by
  obtain ⟨key, hpath, hpath'⟩ := h
  simp only [isFile, hpath, hpath']

theorem exists?_congr : fs.exists? path' = fs.exists? path := by
  rw [exists?, exists?, isFile_congr h, isDirectory_congr h]

theorem parentExists_congr : fs.parentExists path' = fs.parentExists path := by
  rw [parentExists, parentExists, key_congr h]

theorem listStatus_congr (recursive : Bool) :
    fs.listStatus path' recursive = fs.listStatus path recursive := by
  rw [listStatus, listStatus, key_congr h]

theorem deleteFile_congr : fs.deleteFile path' = fs.deleteFile path := by
  rw [deleteFile, deleteFile, key_congr h]

theorem open?_congr : fs.open? path' = fs.open? path := by
  rw [open?, open?, key_congr h]

end

theorem restates_lookUp {no : Metadata → Prop} (key object : Key) :
    Restates no (fs.lookUp path key object) (fs.lookUp path' key object) := by
  rw [lookUp, lookUp]
  refine restates_bind fun reply => ?_
  split
  · exact .of_eq rfl
  · exact restates_throw rfl
  · exact restates_bind fun _ => restates_throw rfl

/-- A refusal says its kind and names its paths. -/
theorem unquoted_refusal (refusal : Refusal) :
    Event.unquoted ⟨.error, refusal.message,
        ("error_type", .text refusal.kind.toList) :: refusal.paths⟩ =
      ⟨.error, [], ("error_type", .text refusal.kind.toList) ::
        (refusal.paths.map Prod.fst).map fun name => (name, .text [])⟩ := by
  cases refusal <;> rfl

theorem restates_refuse {refusal refusal' : Refusal} (hkind : refusal'.kind = refusal.kind)
    (hpaths : refusal'.paths.map Prod.fst = refusal.paths.map Prod.fst) :
    Restates (· = false) (refuse refusal) (refuse refusal') :=
  restates_log_false (by rw [unquoted_refusal, unquoted_refusal, hkind, hpaths])

section

variable (h : SameKey fs.root path path')

include h

theorem restates_metadata :
    Restates (fun _ => False) (fs.metadata path) (fs.metadata path') := by
  rw [metadata, metadata, key_congr h]
  refine restates_bind fun key => restates_bind fun found => ?_
  cases found with
  | true => exact restates_bind fun object => restates_lookUp key object
  | false => exact restates_lookUp key key

omit h in
theorem restates_clearDirectory (key : Key) (recursive : Bool) :
    Restates (· = false) (fs.clearDirectory path key recursive)
      (fs.clearDirectory path' key recursive) := by
  cases recursive with
  | true => exact .of_eq rfl
  | false =>
    refine restates_bind fun entries => ?_
    split
    · exact .of_eq rfl
    · exact .of_eq rfl
    · exact restates_throw rfl

theorem restates_deleteDirectory (recursive : Bool) :
    Restates (· = false) (fs.deleteDirectory path recursive)
      (fs.deleteDirectory path' recursive) := by
  rw [deleteDirectory, deleteDirectory, key_congr h]
  refine restates_bind fun key => ?_
  refine (restates_clearDirectory key recursive).bind (fun cleared => .of_eq rfl) ?_
  rintro _ rfl
  exact ⟨false, rfl, rfl, rfl⟩

theorem restates_delete (recursive : Bool) :
    Restates (· = false) (fs.delete path recursive) (fs.delete path' recursive) := by
  rw [delete, delete, isFile_congr h, deleteFile_congr h, isDirectory_congr h]
  refine restates_bind fun isFile => ?_
  split
  · exact .of_eq rfl
  refine restates_bind fun isDirectory => ?_
  split
  · exact restates_deleteDirectory h recursive
  · exact restates_refuse rfl rfl

/-- The creation of a directory, if the directories above it are the same. -/
theorem restates_mkdirsBelow (above : List Key) (createParent : Bool) :
    Restates (· = false) (fs.mkdirsBelow above path createParent)
      (fs.mkdirsBelow above path' createParent) := by
  have hafter : fs.mkdirsAfter path' above = fs.mkdirsAfter path above := by
    cases above with
    | nil => rfl
    | cons parent above => rw [mkdirsAfter, mkdirsAfter, ensureMarker_congr h]
  rw [mkdirsBelow_eq, mkdirsBelow_eq, isDirectory_congr h, isFile_congr h, parentExists_congr h,
    ensureMarker_congr h, hafter]
  refine restates_bind fun isDirectory => ?_
  split
  · exact .of_eq rfl
  refine restates_bind fun isFile => ?_
  split
  · exact restates_refuse rfl rfl
  refine restates_bind fun found => ?_
  split
  · exact .of_eq rfl
  split
  · exact restates_refuse rfl rfl
  · exact .of_eq rfl

end

/-- The directories above a path are found from its key, within any bound that is large enough. -/
theorem ancestryWithin_congr (hnamed : NamesBucket fs.root) :
    ∀ (count count' : Nat) {path path' : Path} {key : Key}, normalize? fs.root path = some key →
      normalize? fs.root path' = some key → key.length < count → key.length < count' →
      fs.ancestryWithin count' path' = fs.ancestryWithin count path
  | 0, _, _, _, _, _, _, hcount, _ => absurd hcount (Nat.not_lt_zero _)
  | _, 0, _, _, _, _, _, _, hcount => absurd hcount (Nat.not_lt_zero _)
  | count + 1, count' + 1, path, path', key, hpath, hpath', hcount, hcount' => by
    rcases isNormal_of_normalize? hpath with rfl | hkey
    · rw [ancestryWithin, ancestryWithin, parentOf?, parentOf?, hpath, hpath']
      rfl
    · obtain ⟨parent, hchild⟩ := hkey.exists_parent
      rw [ancestryWithin_succ hpath hchild.parent?_eq, ancestryWithin_succ hpath' hchild.parent?_eq]
      have hparent : normalize? fs.root parent = some parent := by
        rcases hchild.parent_normal with rfl | hnormal
        · exact normalize?_nil hnamed
        · exact normalize?_of_isNormal hnamed hnormal
      have hlt := hchild.length_lt
      rw [ancestryWithin_congr hnamed count count' hparent hparent (by omega) (by omega)]

theorem ancestry_congr (hnamed : NamesBucket fs.root) (h : SameKey fs.root path path') :
    fs.ancestry path' = fs.ancestry path := by
  obtain ⟨key, hpath, hpath'⟩ := h
  exact ancestryWithin_congr hnamed _ _ hpath hpath'
    (Nat.lt_succ_of_le (length_le_of_normalize? hpath))
    (Nat.lt_succ_of_le (length_le_of_normalize? hpath'))

theorem restates_mkdirs (hnamed : NamesBucket fs.root) (h : SameKey fs.root path path')
    (createParent : Bool) :
    Restates (· = false) (fs.mkdirs (some path) createParent)
      (fs.mkdirs (some path') createParent) := by
  rw [mkdirs, mkdirs, ancestry_congr hnamed h]
  exact restates_mkdirsBelow h _ createParent

/-! ### Renaming -/

section

variable (hsource : SameKey fs.root source source') (htarget : SameKey fs.root target target')

include hsource htarget

theorem restates_renameFile :
    Restates (· = false) (fs.renameFile source target) (fs.renameFile source' target') := by
  rw [renameFile, renameFile, isFile_congr hsource, exists?_congr htarget, key_congr hsource,
    key_congr htarget]
  refine restates_bind fun isFile => ?_
  split
  · exact restates_refuse rfl rfl
  refine restates_bind fun taken => ?_
  split
  · exact restates_refuse rfl rfl
  · exact .of_eq rfl

omit hsource htarget in
/-- The entries of a directory are moved by the keys of the two paths. -/
theorem restates_moveEntries (depth : Nat) (sourceKey targetKey : Key) (entries : List Status) :
    Restates (· = false) (fs.moveEntries depth source target sourceKey targetKey entries)
      (fs.moveEntries depth source' target' sourceKey targetKey entries) := by
  have hrecorded : ∀ (entry : Status) (moved : Bool), Restates (· = false)
      (if moved = true then pure true else do
        log .error "Failed to rename path, aborting rename".toList
          [("child", .text (concat sourceKey entry.name)), ("src", .text source),
            ("dst", .text target)]
        pure false)
      (if moved = true then pure true else do
        log .error "Failed to rename path, aborting rename".toList
          [("child", .text (concat sourceKey entry.name)), ("src", .text source'),
            ("dst", .text target')]
        pure false) := by
    rintro entry (_ | _)
    · exact restates_log_false rfl
    · exact .of_eq rfl
  rw [moveEntries, moveEntries]
  refine (restates_allM entries fun entry => ?_).bind (fun moved => .of_eq rfl) ?_
  · rw [moveEntry, moveEntry]
    split
    · exact restates_bind fun moved => hrecorded entry moved
    · exact restates_bind fun moved => hrecorded entry moved
  · rintro _ rfl
    exact ⟨false, rfl, rfl, rfl⟩

theorem restates_renameWithin (depth : Nat) :
    Restates (· = false) (fs.renameWithin depth source target)
      (fs.renameWithin depth source' target') := by
  cases depth with
  | zero => exact .of_eq rfl
  | succ depth =>
    rw [renameWithin, renameWithin, key_congr hsource, key_congr htarget,
      listStatus_congr hsource, exists?_congr htarget]
    refine restates_bind fun sourceKey => restates_bind fun targetKey => ?_
    split
    · exact restates_refuse rfl rfl
    split
    · exact restates_refuse rfl rfl
    refine restates_bind fun entries => ?_
    split
    · exact restates_log_false rfl
    refine restates_bind fun taken => ?_
    split
    · exact restates_refuse rfl rfl
    refine restates_bind fun established => ?_
    split
    · exact .of_eq rfl
    · exact restates_moveEntries depth sourceKey targetKey _

theorem restates_renameDirectory :
    Restates (· = false) (fs.renameDirectory source target)
      (fs.renameDirectory source' target') :=
  restates_bind fun depth => restates_renameWithin hsource htarget depth

end

/-! ### Calls -/

/-- A list that goes together with one thing is one thing. -/
theorem exists_eq_of_forall₂_singleton {R : Path → Path → Prop} {paths : List Path}
    (h : List.Forall₂ R [path] paths) : ∃ path', paths = [path'] ∧ R path path' := by
  obtain ⟨path', rest, hpath, hrest, rfl⟩ := List.forall₂_cons_left_iff.mp h
  cases hrest
  exact ⟨path', rfl, hpath⟩

/-- An operation is restated on paths with the same keys. -/
theorem restates_performPath (hnamed : NamesBucket fs.root) (call : PathCall) {paths : List Path}
    (hpaths : List.Forall₂ (SameKey fs.root) call.paths paths) :
    Restates (· = .flag false) (Session.performPath fs call)
      (Session.performPath fs (call.withPaths paths)) := by
  have hflag : ∀ a : Bool, a = false → Answer.flag a = .flag false := fun _ => congrArg _
  cases call with
  | mkdirs path createParent =>
    cases path with
    | none =>
      cases hpaths
      exact .of_eq rfl
    | some path =>
      obtain ⟨path', rfl, h⟩ := exists_eq_of_forall₂_singleton hpaths
      exact (restates_mkdirs hnamed h createParent).bind_pure hflag
  | renameFile source target =>
    obtain ⟨source', rest, hsource, hrest, rfl⟩ := List.forall₂_cons_left_iff.mp hpaths
    obtain ⟨target', rfl, htarget⟩ := exists_eq_of_forall₂_singleton hrest
    exact (restates_renameFile hsource htarget).bind_pure hflag
  | renameDirectory source target =>
    obtain ⟨source', rest, hsource, hrest, rfl⟩ := List.forall₂_cons_left_iff.mp hpaths
    obtain ⟨target', rfl, htarget⟩ := exists_eq_of_forall₂_singleton hrest
    exact (restates_renameDirectory hsource htarget).bind_pure hflag
  | metadata path =>
    obtain ⟨path', rfl, h⟩ := exists_eq_of_forall₂_singleton hpaths
    exact (restates_metadata h).bind_same _
  | fileSize path =>
    obtain ⟨path', rfl, h⟩ := exists_eq_of_forall₂_singleton hpaths
    exact ((restates_metadata h).bind_same _).bind_same _
  | modificationMilliseconds path =>
    obtain ⟨path', rfl, h⟩ := exists_eq_of_forall₂_singleton hpaths
    exact ((restates_metadata h).bind_same _).bind_same _
  | delete path recursive =>
    obtain ⟨path', rfl, h⟩ := exists_eq_of_forall₂_singleton hpaths
    exact (restates_delete h recursive).bind_pure hflag
  | deleteDirectory path recursive =>
    obtain ⟨path', rfl, h⟩ := exists_eq_of_forall₂_singleton hpaths
    exact (restates_deleteDirectory h recursive).bind_pure hflag
  | key path | markerKey path | classify path | ensureMarker path | parentExists path
  | isDirectory path | isFile path | exists? path | listStatus path | listNames path
  | deleteFile path | open? path =>
    -- nothing that these say quotes the path
    obtain ⟨path', rfl, h⟩ := exists_eq_of_forall₂_singleton hpaths
    refine .of_eq ?_
    simp only [PathCall.withPaths, Session.performPath, listNames, key_congr h, markerKey_congr h,
      classify_congr h, ensureMarker_congr h, parentExists_congr h, isDirectory_congr h,
      isFile_congr h, exists?_congr h, listStatus_congr h, deleteFile_congr h, open?_congr h]

/-- Opening a file for writing quotes its path only in an error. -/
theorem restates_create (h : SameKey fs.root path path') (createParent : Bool) :
    Restates (fun _ => False) (fs.create path createParent) (fs.create path' createParent) := by
  rw [create, create, key_congr h]
  refine restates_bind fun key => ?_
  cases createParent with
  | false => exact .of_eq rfl
  | true =>
    rw [if_pos rfl, if_pos rfl]
    split
    · refine restates_bind fun made => ?_
      cases made with
      | true => exact .of_eq rfl
      | false => exact restates_throw rfl
    · exact .of_eq rfl

end FileSystem

/-! ### Sessions -/

namespace Session

/-- The outcomes of two calls that say the same but for the paths that they quote. -/
structure TellsSame (outcome outcome' : Except Error Answer × Session) : Prop where
  answer_eq : outcome'.1.mapError Error.unquoted = outcome.1.mapError Error.unquoted
  requests_eq : outcome'.2.world.requests = outcome.2.world.requests
  store_eq : outcome'.2.world.store = outcome.2.world.store
  handles_eq : outcome'.2.handles = outcome.2.handles
  journal_eq : outcome'.2.world.journal.map Entry.unquoted =
    outcome.2.world.journal.map Entry.unquoted

variable {α : Type} {outcome outcome' : Except Error Answer × Session}

theorem TellsSame.of_eq (h : outcome' = outcome) : TellsSame outcome outcome' := by
  subst h
  exact ⟨rfl, rfl, rfl, rfl, rfl⟩

/-- What a computation over the store ends with, as the outcome of a call. -/
theorem tellsSame_of_restates {no : Answer → Prop} {x y : StoreM Answer}
    (h : StoreM.Restates no x y) (session : Session) :
    TellsSame ((liftStore x).run.run session) ((liftStore y).run.run session) := by
  rw [liftStore_run, liftStore_run]
  have hxy := h session.plan session.world
  generalize x.exec session.plan session.world = outcome at hxy
  generalize y.exec session.plan session.world = outcome' at hxy
  cases hxy with
  | same => exact .of_eq rfl
  | error h world => exact ⟨congrArg Except.error h, rfl, rfl, rfl, rfl⟩
  | event _ h world =>
    exact ⟨rfl, rfl, rfl, rfl, congrArg (fun event => Entry.event event :: _) h⟩

/-- After computations that only the paths in their errors tell apart, a session goes on alike. -/
theorem tellsSame_bind {x y : StoreM α} (h : StoreM.Restates (fun _ => False) x y)
    (f : α → SessionM Answer) (session : Session) :
    TellsSame ((liftStore x >>= f).run.run session) ((liftStore y >>= f).run.run session) := by
  rw [bind_run, bind_run, liftStore_run, liftStore_run]
  have hxy := h session.plan session.world
  generalize x.exec session.plan session.world = outcome at hxy
  generalize y.exec session.plan session.world = outcome' at hxy
  cases hxy with
  | same => exact .of_eq rfl
  | error h world => exact ⟨congrArg Except.error h, rfl, rfl, rfl, rfl⟩
  | event ha => exact ha.elim

/-- The spelling of paths does not matter: on paths with the same keys a call sends the same
requests, leaves the same store and the same streams, and comes back with the same answer, or with
the same error but for the path that it quotes. Only quoted paths differ in what it records. -/
theorem perform_withPaths (session : Session) (hnamed : NamesBucket session.fs.root) (call : Call)
    {paths : List Path} (hpaths : List.Forall₂ (SameKey session.fs.root) call.paths paths) :
    TellsSame (session.perform call) (session.perform (call.withPaths paths)) := by
  cases call with
  | path call =>
    exact tellsSame_of_restates (FileSystem.restates_performPath hnamed call hpaths) session
  | ownership call =>
    cases call <;>
      (obtain ⟨path', rfl, -⟩ := FileSystem.exists_eq_of_forall₂_singleton hpaths
       exact .of_eq rfl)
  | stream name call =>
    cases call with
    | create path createParent =>
      obtain ⟨path', rfl, h⟩ := FileSystem.exists_eq_of_forall₂_singleton hpaths
      exact tellsSame_bind (FileSystem.restates_create h createParent) _ session
    | new | write | writeLines | scope | close | state =>
      cases hpaths
      exact .of_eq rfl
  | bucket | cursor | outside | command =>
    cases hpaths
    exact .of_eq rfl

/-- A rename of a directory, by a URI and an absolute path. -/
def uriRename : Call :=
  .path (.renameDirectory "s3://b/p/a".toList "/q//r/".toList)

/-- Its paths in another spelling. -/
def respelledPaths : List Path :=
  ["/p//a/".toList, "q/r".toList]

/-- A rename that is cut short says so with its paths as they were given. -/
theorem perform_withPaths_uriRename :
    NamesBucket FileSystem.stuckSession.fs.root ∧
      List.Forall₂ (SameKey FileSystem.stuckSession.fs.root) uriRename.paths respelledPaths ∧
      (FileSystem.stuckSession.perform uriRename).1 = .ok (.flag false) ∧
      (FileSystem.stuckSession.perform (uriRename.withPaths respelledPaths)).2.world.journal.head? ≠
        (FileSystem.stuckSession.perform uriRename).2.world.journal.head? ∧
      TellsSame (FileSystem.stuckSession.perform uriRename)
        (FileSystem.stuckSession.perform (uriRename.withPaths respelledPaths)) := by
  have hnamed : NamesBucket FileSystem.stuckSession.fs.root :=
    ⟨['b'], rfl, 'b', by decide, by decide⟩
  have hpaths : List.Forall₂ (SameKey FileSystem.stuckSession.fs.root) uriRename.paths
      respelledPaths :=
    .cons ⟨"p/a".toList, by decide +kernel, by decide +kernel⟩
      (.cons ⟨"q/r".toList, by decide +kernel, by decide +kernel⟩ .nil)
  exact ⟨hnamed, hpaths, by decide +kernel, by decide +kernel,
    perform_withPaths FileSystem.stuckSession hnamed uriRename hpaths⟩

end Session

end KeyTree
