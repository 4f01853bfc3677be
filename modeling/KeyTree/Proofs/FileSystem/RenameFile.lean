import KeyTree.FileSystem.Rename
import KeyTree.Proofs.FileSystem.Removal

/-!
# Renaming a file

A file is renamed after look-ups of its source and of its target, and a refused look-up counts as
"not there". This file lists the ways in which such a rename can end. If nothing is refused no
object is destroyed. A refused look-up of the target can cost an object: the copy then replaces
what is stored there, the removal of the source removes the only copy if source and target are the
same key, and the marker of an implicit directory that is written may replace a marker with a body.

## Main definitions

* `FileSystem.RenamesFile` — the ways in which a rename of a file can end.
* `FileSystem.Keeps` — renames after which every body is where it belongs.
* `FileSystem.Destroys` — the refusals that cost an object.

## Main results

* `FileSystem.returns_renameFile` — a rename of a file ends in one of these ways.
* `FileSystem.renameFile_keeps_iff` — a rename of a file loses a body exactly by these refusals.
* `FileSystem.returns_renameFile_vacant` — renaming a file to a target that is not there.
-/

namespace KeyTree.FileSystem

open Key

variable {fs : FileSystem} {plan : Plan} {world : World} {source target : Path}
  {sourceKey targetKey : Key}

/-! ### The ways to end -/

/-- The ways in which a rename of a file can end, with the answer and the store after it. -/
inductive RenamesFile (fs : FileSystem) (plan : Plan) (earlier : List Request) (store : Store)
    (source target : Key) : Bool → Store → Prop
  /-- The source is not seen. -/
  | sourceMissing (hsource : ¬ plan.Finds earlier store.objects source) :
      RenamesFile fs plan earlier store source target false store
  /-- The target is the root or seen as a file. -/
  | targetTaken
      (htarget : target = [] ∨ plan.Finds (.head source :: earlier) store.objects target) :
      RenamesFile fs plan earlier store source target false store
  /-- The target is seen as a directory, and its marker is not written. -/
  | targetDirectory {kind later}
      (hsees : fs.Sees plan (.head target :: .head source :: earlier) store.objects target kind
        later)
      (hkind : kind.isDirectory = true) (hmarked : ¬ fs.Materializes plan target kind later) :
      RenamesFile fs plan earlier store source target false store
  /-- The target is seen as an implicit directory, and its marker is written. -/
  | targetMarked {kind later} (hsource : plan.Finds earlier store.objects source)
      (hroot : target ≠ []) (htarget : ¬ plan.Finds (.head source :: earlier) store.objects target)
      (hsees : fs.Sees plan (.head target :: .head source :: earlier) store.objects target kind
        later)
      (hmarked : fs.Materializes plan target kind later) :
      RenamesFile fs plan earlier store source target false
        (store.put (marker fs.config.suffix target) [])
  /-- The copy is refused. -/
  | notCopied {later}
      (hsees : fs.Sees plan (.head target :: .head source :: earlier) store.objects target
        .missing later)
      (hcopy : ¬ plan.Passes later (.copy source target)) :
      RenamesFile fs plan earlier store source target false store
  /-- The removal of the source is refused. -/
  | copied {later object} (hsource : plan.Finds earlier store.objects source) (hroot : target ≠ [])
      (htarget : ¬ plan.Finds (.head source :: earlier) store.objects target)
      (hsees : fs.Sees plan (.head target :: .head source :: earlier) store.objects target
        .missing later)
      (hcopy : plan.Passes later (.copy source target))
      (hobject : store.objects[source]? = some object)
      (hdelete : ¬ plan.Passes (.copy source target :: later) (.delete source)) :
      RenamesFile fs plan earlier store source target false (store.put target object.body)
  | moved {later object} (hsource : plan.Finds earlier store.objects source) (hroot : target ≠ [])
      (htarget : ¬ plan.Finds (.head source :: earlier) store.objects target)
      (hsees : fs.Sees plan (.head target :: .head source :: earlier) store.objects target
        .missing later)
      (hcopy : plan.Passes later (.copy source target))
      (hobject : store.objects[source]? = some object)
      (hdelete : plan.Passes (.copy source target :: later) (.delete source)) :
      RenamesFile fs plan earlier store source target true
        ((store.put target object.body).remove source)

/-- If nothing is refused, a deletion passes. -/
theorem passes_delete_of_quiet {earlier : List Request} {key : Key} (hplan : plan = .quiet)
    (hkey : key ≠ []) : plan.Passes earlier (.delete key) := by
  subst hplan
  simp [Request.hasKey, Request.target, hkey]

variable (hr : plan.Refuses) (hm : fs.Mounted world.store)

include hr hm in
/-- A copy succeeds exactly if the request passes and its source is stored. -/
theorem returns_copyKey (sourceKey targetKey : Key) :
    (fs.copyKey sourceKey targetKey).Returns plan world fun done after =>
      (done = true ∧ plan.Passes world.requests (.copy sourceKey targetKey) ∧
          after.requests = .copy sourceKey targetKey :: world.requests ∧
          ∃ o, world.store.objects[sourceKey]? = some o ∧
            after.store = world.store.put targetKey o.body) ∨
        (done = false ∧
          ¬ (plan.Passes world.requests (.copy sourceKey targetKey) ∧
            sourceKey ∈ world.store.objects) ∧ after.store = world.store) := by
  rw [copyKey]
  refine StoreM.returns_log_bind fun logged hlogged hsent => ?_
  have hbucket : fs.bucket.name = logged.store.bucket := by
    rw [hlogged]
    exact hm.bucket_eq
  refine (Bucket.returns_copy hr hbucket sourceKey targetKey).bind fun reply between hreply => ?_
  rw [hlogged, hsent] at hreply
  obtain ⟨hrequests, ⟨hpass, rfl, hstore⟩ | ⟨hpass, ⟨fault, rfl⟩, hstore⟩⟩ := hreply
  · exact StoreM.returns_pure_iff.mpr (Or.inl ⟨rfl, hpass, hrequests, hstore⟩)
  · refine StoreM.returns_log_bind fun after hafter _ => ?_
    exact StoreM.returns_pure_iff.mpr (Or.inr ⟨rfl, hpass, hafter.trans hstore⟩)

/-- A refusal answers "no" and leaves the store alone. -/
theorem returns_refuse (refusal : Refusal) :
    (refuse refusal).Returns plan world fun done after =>
      done = false ∧ after.store = world.store := by
  rw [refuse]
  exact StoreM.returns_log_bind fun after hafter _ => StoreM.returns_pure_iff.mpr ⟨rfl, hafter⟩

include hr hm in
/-- What happens once the target is seen as free. -/
theorem returns_moveFile {looked : World} (hlooked : looked.store = world.store)
    (hsource : plan.Finds world.requests world.store.objects sourceKey) (hroot : targetKey ≠ [])
    (htarget : ¬ plan.Finds (.head sourceKey :: world.requests) world.store.objects targetKey)
    (hsees : fs.Sees plan (.head targetKey :: .head sourceKey :: world.requests) world.store.objects
      targetKey .missing looked.requests) :
    (do if ← fs.copyKey sourceKey targetKey then fs.deleteKey sourceKey
        else return false : StoreM Bool).Returns plan looked fun done after =>
      fs.RenamesFile plan world.requests world.store sourceKey targetKey done after.store := by
  refine (returns_copyKey hr (hm.of_eq hlooked) sourceKey targetKey).bind
    fun done copied hcopied => ?_
  rw [hlooked] at hcopied
  rcases hcopied with ⟨rfl, hcopy, hsent, object, hobject, hstore⟩ | ⟨rfl, hcopy, hstore⟩
  · rw [if_pos rfl]
    refine (returns_deleteKey hr ((hm.put _ _).of_eq hstore) sourceKey).mono ?_
    rw [hsent]
    rintro done after ⟨-, ⟨rfl, hdelete, hafter⟩ | ⟨rfl, hdelete, hafter⟩⟩
    · rw [hafter, hstore]
      exact .moved hsource hroot htarget hsees hcopy hobject hdelete
    · rw [hafter, hstore]
      exact .copied hsource hroot htarget hsees hcopy hobject hdelete
  · rw [if_neg (by simp)]
    refine StoreM.returns_pure_iff.mpr ?_
    rw [hstore]
    exact .notCopied hsees fun h => hcopy ⟨h, hsource.2⟩

include hr hm in
/-- A rename of a file ends in one of the ways listed. -/
theorem returns_renameFile (hsource : normalize? fs.root source = some sourceKey)
    (htarget : normalize? fs.root target = some targetKey) :
    (fs.renameFile source target).Returns plan world fun done after =>
      fs.RenamesFile plan world.requests world.store sourceKey targetKey done after.store := by
  rw [renameFile]
  by_cases hnil : sourceKey = []
  · rw [isFile_root hsource hnil, pure_bind]
    refine (returns_refuse _).mono ?_
    rintro done after ⟨rfl, hstore⟩
    rw [hstore]
    exact .sourceMissing fun h => h.ne_nil hnil
  refine (returns_isFile hr hm hsource hnil).bind fun found seen ⟨hseen, hsent, hfound⟩ => ?_
  cases found with
  | false =>
    refine (returns_refuse _).mono ?_
    rintro done after ⟨rfl, hstore⟩
    rw [hstore, hseen]
    exact .sourceMissing fun h => Bool.false_ne_true (hfound.mpr h)
  | true =>
    have hfinds := hfound.mp rfl
    rw [if_neg (by simp)]
    refine (returns_exists?_exact hr (hm.of_eq hseen) htarget).bind
      fun taken looked hlooked => ?_
    rw [hseen, hsent] at hlooked
    rcases hlooked with ⟨rfl, htaken, hlooked⟩ | ⟨hroot, hfree, kind, later, hsees, rfl, hlooked⟩
    · refine (returns_refuse _).mono ?_
      rintro done after ⟨rfl, hstore⟩
      rw [hstore, hlooked]
      exact .targetTaken htaken
    · rcases hlooked with ⟨hmarked, hlooked⟩ | ⟨hmarked, hlooked, hlater⟩
      · rw [if_pos (by rw [hmarked.1]; rfl)]
        refine (returns_refuse _).mono ?_
        rintro done after ⟨rfl, hstore⟩
        rw [hstore, hlooked]
        exact .targetMarked hfinds hroot hfree hsees hmarked
      · by_cases hkind : kind.isDirectory = true
        · rw [if_pos hkind]
          refine (returns_refuse _).mono ?_
          rintro done after ⟨rfl, hstore⟩
          rw [hstore, hlooked]
          exact .targetDirectory hsees hkind hmarked
        · obtain rfl : kind = .missing := by cases kind <;> first | rfl | exact absurd rfl hkind
          rw [if_neg hkind, key_eq hsource, key_eq htarget, pure_bind, pure_bind]
          rw [← hlater rfl] at hsees
          exact returns_moveFile hr hm hlooked hfinds hroot hfree hsees

include hr hm in
/-- A rename of a file to a target that is not there: the file is moved, or copied, or nothing
happens. -/
theorem returns_renameFile_vacant (hsource : normalize? fs.root source = some sourceKey)
    (htarget : normalize? fs.root target = some targetKey) (hnil : sourceKey ≠ [])
    (hroot : targetKey ≠ []) (hfree : targetKey ∉ world.store.objects)
    (hvacant : world.store.objects.IsVacant fs.config.suffix targetKey) :
    (fs.renameFile source target).Returns plan world fun done after =>
      (done = true ∧ ∃ o, world.store.objects[sourceKey]? = some o ∧
          after.store = (world.store.put targetKey o.body).remove sourceKey) ∨
        (done = false ∧ (after.store = world.store ∨ ∃ o, world.store.objects[sourceKey]? = some o ∧
            after.store = world.store.put targetKey o.body) ∧
          (plan = .quiet → sourceKey ∉ world.store.objects)) := by
  refine (returns_renameFile hr hm hsource htarget).mono fun done after h => ?_
  have hdir := (Objects.not_isDirectory_iff hroot).mpr hvacant
  generalize after.store = final at h ⊢
  cases h with
  | sourceMissing hfinds =>
    refine Or.inr ⟨rfl, Or.inl rfl, ?_⟩
    rintro rfl
    rwa [Plan.finds_quiet_iff hnil] at hfinds
  | targetTaken htaken => exact absurd htaken (not_or.mpr ⟨hroot, fun h => hfree h.2⟩)
  | targetDirectory hsees hkind => exact absurd (hsees.isDirectory hkind) hdir
  | targetMarked _ _ _ hsees hmarked =>
    rw [hmarked.1] at hsees
    exact absurd (hsees.isDirectory rfl) hdir
  | notCopied _ hcopy =>
    refine Or.inr ⟨rfl, Or.inl rfl, ?_⟩
    rintro rfl
    exact absurd (by simp [Request.hasKey, Request.target, hroot]) hcopy
  | copied hfinds _ _ _ _ hobject hdelete =>
    refine Or.inr ⟨rfl, Or.inr ⟨_, hobject, rfl⟩, ?_⟩
    exact fun hplan => absurd (passes_delete_of_quiet hplan hfinds.ne_nil) hdelete
  | moved _ _ _ _ _ hobject _ => exact Or.inl ⟨rfl, _, hobject, rfl⟩

/-! ### What a rename costs -/

/-- A rename *keeps* the objects when every object but the source still has its body, and the body
of the source is stored at the source or at the target. -/
structure Keeps (source target : Key) (objects objects' : Objects) : Prop where
  others : ∀ k o, k ≠ source → objects[k]? = some o → objects'.body? k = some o.body
  source : ∀ o, objects[source]? = some o →
    objects'.body? source = some o.body ∨ objects'.body? target = some o.body

theorem Keeps.refl (source target : Key) (objects : Objects) :
    Keeps source target objects objects :=
  ⟨fun _ _ _ h => Objects.body?_of_getElem? h, fun _ h => Or.inl (Objects.body?_of_getElem? h)⟩

/-- The refusals that cost an object: the source is seen, and the object at the target is not. -/
inductive Destroys (fs : FileSystem) (plan : Plan) (earlier : List Request) (objects : Objects)
    (source target : Key) : Prop
  /-- The marker of the target is not seen either, keys below the target are, and writing the marker
  empties the one that is stored. -/
  | marker {later object} (hsource : plan.Finds earlier objects source) (hroot : target ≠ [])
      (htarget : ¬ plan.Finds (.head source :: earlier) objects target)
      (hsees : fs.Sees plan (.head target :: .head source :: earlier) objects target
        .implicitDirectory later)
      (hmarked : fs.Materializes plan target .implicitDirectory later)
      (hobject : objects[Key.marker fs.config.suffix target]? = some object)
      (hbody : object.body ≠ [])
      (hother : Key.marker fs.config.suffix target = source →
        objects.body? target ≠ some object.body)
  /-- The target is seen as free, and the copy replaces another body. -/
  | target {later object} (hsource : plan.Finds earlier objects source) (hroot : target ≠ [])
      (htarget : ¬ plan.Finds (.head source :: earlier) objects target)
      (hsees : fs.Sees plan (.head target :: .head source :: earlier) objects target .missing later)
      (hcopy : plan.Passes later (.copy source target)) (hother : target ≠ source)
      (hobject : objects[target]? = some object) (hbody : objects.body? source ≠ some object.body)
  /-- The target is the source and seen as free, and the only copy is removed. -/
  | source {later} (hsource : plan.Finds earlier objects source)
      (htarget : ¬ plan.Finds (.head source :: earlier) objects target)
      (hsees : fs.Sees plan (.head target :: .head source :: earlier) objects target .missing later)
      (hcopy : plan.Passes later (.copy source target)) (hsame : target = source)
      (hdelete : plan.Passes (.copy source target :: later) (.delete source))

variable {earlier : List Request} {store : Store} {S T : Key}

/-- Writing the marker of the target keeps the objects unless it empties a marker. -/
theorem keeps_put_marker_iff {later : List Request} (hsource : plan.Finds earlier store.objects S)
    (hroot : T ≠ []) (htarget : ¬ plan.Finds (.head S :: earlier) store.objects T)
    (hsees : fs.Sees plan (.head T :: .head S :: earlier) store.objects T .implicitDirectory later)
    (hmarked : fs.Materializes plan T .implicitDirectory later) :
    Keeps S T store.objects (store.put (marker fs.config.suffix T) []).objects ↔
      ¬ fs.Destroys plan earlier store.objects S T := by
  have hself := Objects.body?_put_self store (marker fs.config.suffix T) []
  have hmarker := fs.ne_marker T
  have hrest : ∀ k, k ≠ marker fs.config.suffix T →
      (store.put (marker fs.config.suffix T) []).objects.body? k = store.objects.body? k :=
    fun k => Objects.body?_put_of_ne store []
  constructor
  · rintro hkeeps
      (⟨-, -, -, -, -, hobject, hbody, hother⟩ | ⟨-, -, -, hsees', -⟩ | ⟨-, -, hsees', -⟩)
    · by_cases hsame : marker fs.config.suffix T = S
      · subst hsame
        rcases hkeeps.source _ hobject with h | h
        · rw [hself] at h
          exact hbody (Option.some.inj h).symm
        · rw [hrest T hmarker] at h
          exact hother rfl h
      · have h := hkeeps.others _ _ hsame hobject
        rw [hself] at h
        exact hbody (Option.some.inj h).symm
    · exact absurd (hsees.unique hsees').1 (by decide)
    · exact absurd (hsees.unique hsees').1 (by decide)
  · intro hsafe
    have hempty : ∀ o, store.objects[marker fs.config.suffix T]? = some o → o.body = [] ∨
        (marker fs.config.suffix T = S ∧ store.objects.body? T = some o.body) := by
      intro o ho
      by_contra h
      obtain ⟨hbody, hother⟩ := not_or.mp h
      exact hsafe (.marker hsource hroot htarget hsees hmarked ho hbody
        fun hsame hsaved => hother ⟨hsame, hsaved⟩)
    refine ⟨fun k o hk ho => ?_, fun o ho => ?_⟩
    · by_cases hkm : k = marker fs.config.suffix T
      · subst hkm
        rcases hempty o ho with hbody | ⟨hsame, -⟩
        · rw [hself, hbody]
        · exact absurd hsame hk
      · rw [hrest k hkm]
        exact Objects.body?_of_getElem? ho
    · by_cases hkm : S = marker fs.config.suffix T
      · subst hkm
        rcases hempty o ho with hbody | ⟨-, hsaved⟩
        · exact Or.inl (by rw [hself, hbody])
        · exact Or.inr (by rw [hrest T hmarker, hsaved])
      · exact Or.inl (by rw [hrest S hkm]; exact Objects.body?_of_getElem? ho)

/-- Once the body of the source is at another target, nothing is lost unless the target had another
body. -/
theorem keeps_iff_of_body?_target {object : Object} {objects objects' : Objects}
    (hobject : objects[S]? = some object) (hne : T ≠ S)
    (hbody : objects'.body? T = some object.body)
    (hrest : ∀ k, k ≠ S → k ≠ T → objects'[k]? = objects[k]?) :
    Keeps S T objects objects' ↔
      ∀ o, objects[T]? = some o → objects.body? S = some o.body := by
  have hS : objects.body? S = some object.body := Objects.body?_of_getElem? hobject
  constructor
  · intro hkeeps o ho
    rw [hS, ← hbody]
    exact hkeeps.others T o hne ho
  · intro hsame
    refine ⟨fun k o hk ho => ?_, fun o ho => ?_⟩
    · by_cases hkT : k = T
      · subst hkT
        rw [hbody, ← hS]
        exact hsame o ho
      · exact Objects.body?_of_getElem? ((hrest k hk hkT).trans ho)
    · obtain rfl := Option.some.inj (hobject.symm.trans ho)
      exact Or.inr hbody

/-- A rename to another key that comes to the copy loses what has another body at the target. -/
theorem destroys_iff_of_ne {later : List Request} (hsource : plan.Finds earlier store.objects S)
    (hroot : T ≠ []) (htarget : ¬ plan.Finds (.head S :: earlier) store.objects T)
    (hsees : fs.Sees plan (.head T :: .head S :: earlier) store.objects T .missing later)
    (hcopy : plan.Passes later (.copy S T)) (hne : T ≠ S) :
    fs.Destroys plan earlier store.objects S T ↔
      ∃ o, store.objects[T]? = some o ∧ store.objects.body? S ≠ some o.body := by
  constructor
  · rintro (⟨-, -, -, hsees', -⟩ | ⟨-, -, -, -, -, -, hobject, hbody⟩ | ⟨-, -, -, -, hsame, -⟩)
    · exact absurd (hsees.unique hsees').1 (by decide)
    · exact ⟨_, hobject, hbody⟩
    · exact absurd hsame hne
  · rintro ⟨o, hobject, hbody⟩
    exact .target hsource hroot htarget hsees hcopy hne hobject hbody

/-- How a rename of a file that has come to the copy ends, when the target is another key. -/
theorem keeps_iff_of_ne {later : List Request} {object : Object} {objects' : Objects}
    (hsource : plan.Finds earlier store.objects S) (hroot : T ≠ [])
    (htarget : ¬ plan.Finds (.head S :: earlier) store.objects T)
    (hsees : fs.Sees plan (.head T :: .head S :: earlier) store.objects T .missing later)
    (hcopy : plan.Passes later (.copy S T)) (hne : T ≠ S)
    (hobject : store.objects[S]? = some object) (hbody : objects'.body? T = some object.body)
    (hrest : ∀ k, k ≠ S → k ≠ T → objects'[k]? = store.objects[k]?) :
    Keeps S T store.objects objects' ↔ ¬ fs.Destroys plan earlier store.objects S T := by
  rw [keeps_iff_of_body?_target hobject hne hbody hrest,
    destroys_iff_of_ne hsource hroot htarget hsees hcopy hne]
  push Not
  rfl

/-- A rename of a file loses a body exactly by the refusals listed. -/
theorem RenamesFile.keeps_iff {done : Bool} {after : Store}
    (h : fs.RenamesFile plan earlier store S T done after) :
    Keeps S T store.objects after.objects ↔ ¬ fs.Destroys plan earlier store.objects S T := by
  cases h with
  | sourceMissing hsource =>
    refine iff_of_true (.refl ..) ?_
    rintro (⟨h, -⟩ | ⟨h, -⟩ | ⟨h, -⟩) <;> exact hsource h
  | targetTaken htarget =>
    refine iff_of_true (.refl ..) ?_
    rintro (⟨-, hroot, h, -⟩ | ⟨-, hroot, h, -⟩ | ⟨hfinds, h, -, -, hsame, -⟩)
    · exact htarget.elim hroot h
    · exact htarget.elim hroot h
    · exact htarget.elim (fun hnil => hfinds.ne_nil (hsame.symm.trans hnil)) h
  | targetDirectory hsees hkind hmarked =>
    refine iff_of_true (.refl ..) ?_
    rintro (⟨-, -, -, hsees', hmarked', -⟩ | ⟨-, -, -, hsees', -⟩ | ⟨-, -, hsees', -⟩)
    · obtain ⟨rfl, rfl⟩ := hsees.unique hsees'
      exact hmarked hmarked'
    · rw [(hsees.unique hsees').1] at hkind
      exact absurd hkind (by decide)
    · rw [(hsees.unique hsees').1] at hkind
      exact absurd hkind (by decide)
  | targetMarked hsource hroot htarget hsees hmarked =>
    obtain rfl := hmarked.1
    exact keeps_put_marker_iff hsource hroot htarget hsees hmarked
  | notCopied hsees hcopy =>
    refine iff_of_true (.refl ..) ?_
    rintro (⟨-, -, -, hsees', -⟩ | ⟨-, -, -, hsees', hcopy', -⟩ | ⟨-, -, hsees', hcopy', -⟩)
    · exact absurd (hsees.unique hsees').1 (by decide)
    · rw [← (hsees.unique hsees').2] at hcopy'
      exact hcopy hcopy'
    · rw [← (hsees.unique hsees').2] at hcopy'
      exact hcopy hcopy'
  | @copied later object hsource hroot htarget hsees hcopy hobject hdelete =>
    have hbody := Objects.body?_put_self store T object.body
    by_cases hsame : T = S
    · subst hsame
      refine iff_of_true ⟨fun k o hk ho => ?_, fun o ho => Or.inl ?_⟩ ?_
      · exact Objects.body?_of_getElem? ((Objects.getElem?_put_of_ne store _ hk).trans ho)
      · rw [hbody, Option.some.inj (hobject.symm.trans ho)]
      · rintro (⟨-, -, -, hsees', -⟩ | ⟨-, -, -, -, -, hother, -⟩ | ⟨-, -, hsees', -, -, hdelete'⟩)
        · exact absurd (hsees.unique hsees').1 (by decide)
        · exact hother rfl
        · rw [← (hsees.unique hsees').2] at hdelete'
          exact hdelete hdelete'
    · exact keeps_iff_of_ne hsource hroot htarget hsees hcopy hsame hobject hbody
        fun k _ hk => Objects.getElem?_put_of_ne store _ hk
  | @moved later object hsource hroot htarget hsees hcopy hobject hdelete =>
    by_cases hsame : T = S
    · subst hsame
      refine iff_of_false (fun hkeeps => ?_)
        (not_not_intro (.source hsource htarget hsees hcopy rfl hdelete))
      have hgone := hkeeps.source object hobject
      rw [Objects.body?_remove_self, or_self] at hgone
      exact Option.some_ne_none _ hgone.symm
    · have hbody : ((store.put T object.body).remove S).objects.body? T = some object.body :=
        (Objects.body?_congr (Objects.getElem?_remove_of_ne _ hsame)).trans
          (Objects.body?_put_self ..)
      exact keeps_iff_of_ne hsource hroot htarget hsees hcopy hsame hobject hbody
        fun k hkS hkT => (Objects.getElem?_remove_of_ne _ hkS).trans
          (Objects.getElem?_put_of_ne store _ hkT)

/-- If nothing is refused, a rename of a file destroys nothing. -/
theorem not_destroys_quiet {objects : Objects} : ¬ fs.Destroys .quiet earlier objects S T := by
  rintro (⟨-, -, -, hsees, -, hobject, -⟩ | ⟨-, hroot, htarget, -, -, -, hobject, -⟩ |
    ⟨hsource, htarget, -, -, rfl, -⟩)
  · exact hsees.notMem_marker (by decide) (Objects.mem_of_getElem? hobject)
  · exact htarget ((Plan.finds_quiet_iff hroot).mpr (Objects.mem_of_getElem? hobject))
  · exact htarget ((Plan.finds_quiet_iff hsource.ne_nil).mpr hsource.2)

include hr hm in
/-- Under a plan that refuses, a rename of a file answers, and it loses a body exactly by the
refusals listed. -/
theorem renameFile_keeps_iff (hsource : normalize? fs.root source = some sourceKey)
    (htarget : normalize? fs.root target = some targetKey) :
    (fs.renameFile source target).Returns plan world fun _ after =>
      Keeps sourceKey targetKey world.store.objects after.store.objects ↔
        ¬ fs.Destroys plan world.requests world.store.objects sourceKey targetKey :=
  (returns_renameFile hr hm hsource htarget).mono fun _ _ h => h.keeps_iff

/-- The bucket `s3://b` without further configuration. -/
def plainBucket : FileSystem := { bucket := ⟨['b']⟩ }

/-- A bucket with two files. -/
def twoFiles : World := { store := .holding ['b'] [(['a'], [1]), (['c'], [2])] }

/-- The first look-up of the file `c` is refused. -/
def targetUnseen : Plan :=
  Script.plan [{ method := some .head, key := some ['c'], times := some 1,
                 effect := .fail (.store (.refused (some "503") none)) false }]

/-- After a refused look-up of the target a rename succeeds and replaces the file there. -/
theorem renameFile_replaces_unseen_target :
    ∃ after, (plainBucket.renameFile ['a'] ['c']).exec targetUnseen twoFiles = (.ok true, after) ∧
      twoFiles.store.objects.body? ['c'] = some [2] ∧ after.store.objects.body? ['c'] = some [1] :=
  ⟨_, rfl, by decide +kernel, by decide +kernel⟩

theorem refuses_targetUnseen : targetUnseen.Refuses :=
  Script.refuses_plan_singleton rfl

theorem destroys_targetUnseen :
    plainBucket.Destroys targetUnseen [] twoFiles.store.objects ['a'] ['c'] := by
  have hkeeps : (plainBucket.renameFile ['a'] ['c']).Returns targetUnseen twoFiles fun _ after =>
      Keeps ['a'] ['c'] twoFiles.store.objects after.store.objects ↔
        ¬ plainBucket.Destroys targetUnseen [] twoFiles.store.objects ['a'] ['c'] :=
    renameFile_keeps_iff refuses_targetUnseen ⟨rfl, 'b', by decide, by decide⟩ rfl rfl
  obtain ⟨done, -, hiff⟩ := hkeeps.of_exec rfl
  by_contra hdestroys
  have hbody : ((plainBucket.renameFile ['a'] ['c']).exec targetUnseen
      twoFiles).2.store.objects.body? ['c'] = some [2] :=
    (hiff.mpr hdestroys).others ['c'] ⟨[2], 2⟩ (by decide) (by decide +kernel)
  exact absurd hbody (by decide +kernel)

end KeyTree.FileSystem
