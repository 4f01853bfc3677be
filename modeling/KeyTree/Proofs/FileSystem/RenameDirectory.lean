import KeyTree.Proofs.FileSystem.RenameStep

/-!
# Renaming a directory

A rename of a directory to a vacant target moves the tree tail by tail. While the entries are moved,
what belongs to entries that have been moved is at the target, and what belongs to the others is
still at the source, with nothing at the target. The deletion at the end therefore removes only
copies and what was not carried over.

## Main definitions

* `Objects.TailMoves`, `Objects.DirectoryMoves` — what a rename makes of one tail, and of all.
* `FileSystem.Movable` — what a rename of a directory is asked to move.
* `FileSystem.Progress` — the store while the entries are moved.

## Main results

* `FileSystem.returns_renameWithin` — a rename of a directory keeps what it carries over, and
  succeeds in a well-formed tree if nothing is refused.
-/

namespace KeyTree

open Key

namespace Objects

variable {suffix : List Char} {source target : Key} {before after : Objects} {done : Bool} {t : Key}

/-- What a rename of a directory makes of a tail. What is carried over is at the source or at the
target, and at the target if the rename is done; an object at the target is a copy. -/
structure TailMoves (suffix : List Char) (source target : Key) (before after : Objects)
    (done : Bool) (t : Key) : Prop where
  kept : before.Carries suffix source t → ∀ o, before[source ++ t]? = some o →
    after.body? (source ++ t) = some o.body ∨ after.body? (target ++ t) = some o.body
  copied : ∀ o o', before[source ++ t]? = some o → after[target ++ t]? = some o' → o'.body = o.body
  carried : target ++ t ∈ after → before.Carries suffix source t
  arrived : done = true → before.Carries suffix source t →
    ∀ o, before[source ++ t]? = some o → after.body? (target ++ t) = some o.body

/-- A tail that has not been touched. -/
theorem TailMoves.untouched (hsource : after[source ++ t]? = before[source ++ t]?)
    (htarget : target ++ t ∉ after) : TailMoves suffix source target before after false t where
  kept _ _ ho := Or.inl (body?_of_getElem? (hsource.trans ho))
  copied _ _ _ ho' := absurd (mem_of_getElem? ho') htarget
  carried h := absurd h htarget
  arrived h := Bool.noConfusion h

/-- A tail whose body is at the target. -/
theorem TailMoves.of_body (hcarries : before.Carries suffix source t)
    (hbody : ∀ o, before[source ++ t]? = some o → after.body? (target ++ t) = some o.body)
    (done : Bool) : TailMoves suffix source target before after done t where
  kept _ o ho := Or.inr (hbody o ho)
  copied o _ ho ho' := Option.some.inj ((body?_of_getElem? ho').symm.trans (hbody o ho))
  carried _ := hcarries
  arrived _ _ := hbody

/-- A tail that has been copied. -/
theorem TailMoves.of_copy (hcarries : before.Carries suffix source t) {o : Object}
    (hobject : before[source ++ t]? = some o) (hbody : after.body? (target ++ t) = some o.body)
    (done : Bool) : TailMoves suffix source target before after done t :=
  .of_body hcarries (fun o' ho' => by rw [hbody, Option.some.inj (hobject.symm.trans ho')]) done

/-- A tail that has arrived stays so whatever happens at the source. -/
theorem TailMoves.of_arrived {between : Objects}
    (h : TailMoves suffix source target before between true t)
    (htarget : after[target ++ t]? = between[target ++ t]?) (done : Bool) :
    TailMoves suffix source target before after done t where
  kept hcarries o ho := Or.inr ((body?_congr htarget).trans (h.arrived rfl hcarries o ho))
  copied o o' ho ho' := h.copied o o' ho (htarget.symm.trans ho')
  carried hmem := h.carried ((mem_congr htarget).mp hmem)
  arrived _ hcarries o ho := (body?_congr htarget).trans (h.arrived rfl hcarries o ho)

/-- What holds for the finished rename holds for an unfinished one. -/
theorem TailMoves.unfinished (h : TailMoves suffix source target before after done t) :
    TailMoves suffix source target before after false t :=
  ⟨h.kept, h.copied, h.carried, fun hdone => Bool.noConfusion hdone⟩

/-- A tail of a child is a tail of its directory. -/
theorem TailMoves.of_child {between : Objects} {name : Key}
    (h : TailMoves suffix (source ++ separator :: name) (target ++ separator :: name) between after
      done t)
    (hsame : between[source ++ separator :: name ++ t]? = before[source ++ separator :: name ++ t]?)
    (hcarries : before.Carries suffix source (separator :: (name ++ t)) ↔
      between.Carries suffix (source ++ separator :: name) t) :
    TailMoves suffix source target before after done (separator :: (name ++ t)) := by
  have hchild : ∀ key : Key, key ++ separator :: (name ++ t) = key ++ separator :: name ++ t := by
    simp
  refine ⟨fun hc o ho => ?_, fun o o' ho ho' => ?_, fun hmem => ?_, fun hdone hc o ho => ?_⟩
  · rw [hchild] at ho ⊢
    rw [hchild]
    exact h.kept (hcarries.mp hc) o (hsame.trans ho)
  · rw [hchild] at ho ho'
    exact h.copied o o' (hsame.trans ho) ho'
  · rw [hchild] at hmem
    exact hcarries.mpr (h.carried hmem)
  · rw [hchild] at ho ⊢
    exact h.arrived hdone (hcarries.mp hc) o (hsame.trans ho)

/-- What a rename makes of all tails; outside the two trees nothing changes. -/
structure DirectoryMoves (suffix : List Char) (source target : Key) (before after : Objects)
    (done : Bool) : Prop where
  frame : ∀ k, ¬ InTree suffix source k → ¬ InTree suffix target k → after[k]? = before[k]?
  tail : ∀ t, IsTail suffix t → TailMoves suffix source target before after done t

end Objects

namespace FileSystem

open Objects

variable {fs : FileSystem} {plan : Plan} {source target : Key}

/-- What a rename of a directory is asked to move: the keys are normal, the target is vacant and not
in the source, the tree has at most `depth` levels, and if requests can be refused its markers are
empty. -/
structure Movable (fs : FileSystem) (plan : Plan) (depth : Nat) (source target : Key)
    (objects : Objects) : Prop where
  source_normal : IsNormal source
  target_normal : IsNormal target
  target_ne : target ≠ source
  not_inside : ¬ childPrefix source <+: target
  vacant : objects.IsVacant fs.config.suffix target
  depth_pos : 0 < depth
  depth_le : ∀ k ∈ objects, childPrefix source <+: k →
    k.count separator < depth + source.count separator
  markers_empty : plan = .quiet ∨ ∀ k o, InTree fs.config.suffix source k →
    fs.config.suffix <:+ k → objects[k]? = some o → o.body = []

/-- The store while the entries of a directory are moved, with the entries that have been moved. -/
structure Progress (fs : FileSystem) (source target : Key) (before : Objects) (past : List Status)
    (now : Store) : Prop where
  mounted : fs.Mounted now
  frame : ∀ k, ¬ InTree fs.config.suffix source k → ¬ InTree fs.config.suffix target k →
    now.objects[k]? = before[k]?
  /-- The marker of the target has been established. -/
  marker : TailMoves fs.config.suffix source target before now.objects true fs.config.suffix
  waiting : ∀ t, IsTail fs.config.suffix t → t ≠ fs.config.suffix →
    (∀ entry ∈ past, ¬ Status.Covers fs.config.suffix entry t) →
    now.objects[source ++ t]? = before[source ++ t]? ∧ target ++ t ∉ now.objects
  moved : ∀ entry ∈ past, ∀ t, Status.Covers fs.config.suffix entry t →
    TailMoves fs.config.suffix source target before now.objects true t

variable {before : Objects} {past : List Status} {now next : Store} {entry : Status} {t : Key}

theorem not_covers_suffix (fs : FileSystem) (entry : Status) :
    ¬ Status.Covers fs.config.suffix entry fs.config.suffix := by
  intro h
  generalize ht : fs.config.suffix = t at h
  have hmem : separator ∈ t := by
    cases h with
    | file => exact List.mem_cons_self
    | directory => exact List.mem_cons_self
  exact fs.config.separator_notMem_suffix (ht ▸ hmem)

/-- What belongs to an entry that has not been moved is where it was. -/
theorem Progress.untouched (h : fs.Progress source target before past now)
    (hentry : Status.IsEntry fs.config.suffix entry)
    (hpast : ∀ e ∈ past, Status.IsEntry fs.config.suffix e ∧ e.name ≠ entry.name)
    (hcovers : Status.Covers fs.config.suffix entry t) :
    now.objects[source ++ t]? = before[source ++ t]? ∧ target ++ t ∉ now.objects := by
  refine h.waiting t hcovers.isTail ?_ fun e he hcovers' => ?_
  · rintro rfl
    exact fs.not_covers_suffix entry hcovers
  · obtain ⟨he, hne⟩ := hpast e he
    exact hne (hcovers'.name_eq fs.config.separator_notMem_suffix hcovers he hentry)

/-- A move of one entry that leaves everything else alone, finished or not. -/
theorem Progress.step (h : fs.Progress source target before past now) (hm : fs.Mounted next)
    (hpast : ∀ e ∈ past, ∀ t, Status.Covers fs.config.suffix e t →
      ¬ Status.Covers fs.config.suffix entry t)
    (hframe : ∀ k, ¬ InTree fs.config.suffix source k → ¬ InTree fs.config.suffix target k →
      next.objects[k]? = now.objects[k]?)
    (hrest : ∀ t, IsTail fs.config.suffix t → ¬ Status.Covers fs.config.suffix entry t →
      next.objects[source ++ t]? = now.objects[source ++ t]? ∧
        next.objects[target ++ t]? = now.objects[target ++ t]?)
    {done : Bool} (hentry : ∀ t, Status.Covers fs.config.suffix entry t →
      TailMoves fs.config.suffix source target before next.objects done t) :
    (done = true → fs.Progress source target before (past ++ [entry]) next) ∧
      DirectoryMoves fs.config.suffix source target before next.objects false := by
  have hmarker := h.marker.of_arrived
    (hrest _ (Or.inl rfl) (fs.not_covers_suffix entry)).2
  have hmoved : ∀ e ∈ past, ∀ t, Status.Covers fs.config.suffix e t →
      ∀ done, TailMoves fs.config.suffix source target before next.objects done t :=
    fun e he t ht done =>
      (h.moved e he t ht).of_arrived (hrest t ht.isTail (hpast e he t ht)).2 done
  have hwaiting : ∀ t, IsTail fs.config.suffix t → t ≠ fs.config.suffix →
      (∀ e ∈ past, ¬ Status.Covers fs.config.suffix e t) →
      ¬ Status.Covers fs.config.suffix entry t →
      next.objects[source ++ t]? = before[source ++ t]? ∧ target ++ t ∉ next.objects := by
    intro t ht hne hnone hnot
    obtain ⟨hsource, htarget⟩ := h.waiting t ht hne hnone
    obtain ⟨hsource', htarget'⟩ := hrest t ht hnot
    exact ⟨hsource'.trans hsource, (mem_congr htarget').not.mpr htarget⟩
  have hframe' : ∀ k, ¬ InTree fs.config.suffix source k → ¬ InTree fs.config.suffix target k →
      next.objects[k]? = before[k]? :=
    fun k hk hk' => (hframe k hk hk').trans (h.frame k hk hk')
  refine ⟨?_, hframe', fun t ht => ?_⟩
  · rintro rfl
    refine ⟨hm, hframe', hmarker true, fun t ht hne hnone => ?_, fun e he t ht => ?_⟩
    · exact hwaiting t ht hne (fun e he => hnone e (List.mem_append_left _ he))
        (hnone entry (by simp))
    · rcases List.mem_append.mp he with he | he
      · exact hmoved e he t ht true
      · rw [List.mem_singleton.mp he] at ht
        exact hentry t ht
  · by_cases hsuffix : t = fs.config.suffix
    · rw [hsuffix]
      exact hmarker false
    · by_cases hcovered : ∃ e ∈ past, Status.Covers fs.config.suffix e t
      · obtain ⟨e, he, hcovers⟩ := hcovered
        exact hmoved e he t hcovers false
      · by_cases hcovers : Status.Covers fs.config.suffix entry t
        · exact (hentry t hcovers).unfinished
        · obtain ⟨hsource, htarget⟩ := hwaiting t ht hsuffix
            (fun e he hcovers => hcovered ⟨e, he, hcovers⟩) hcovers
          exact .untouched hsource htarget

/-! ### Moving one entry -/

/-- The trees of unrelated directories have no key in common. -/
theorem append_notMem_tree (hsource : source ≠ []) (htarget : target ≠ [])
    (h : Unrelated source target) (ht : IsTail fs.config.suffix t) :
    ¬ InTree fs.config.suffix target (source ++ t) :=
  h.not_inTree fs.config.separator_notMem_suffix hsource htarget
    ((inTree_append_iff hsource).mpr ht)

theorem append_child (key name t : Key) :
    key ++ separator :: (name ++ t) = key ++ separator :: name ++ t := by
  simp

variable {world : World} {rest : List Status} (hsource : IsNormal source)
  (htarget : IsNormal target) (hunrelated : Unrelated source target)

include hsource htarget hunrelated in
/-- A change of one file and of nothing else. -/
theorem Progress.step_file (h : fs.Progress source target before past now) (hm : fs.Mounted next)
    (hentry : Status.IsEntry fs.config.suffix entry)
    (hpast : ∀ e ∈ past, Status.IsEntry fs.config.suffix e ∧ e.name ≠ entry.name)
    (hfile : entry.isDirectory = false)
    (hagree : ∀ k, k ≠ source ++ separator :: entry.name → k ≠ target ++ separator :: entry.name →
      next.objects[k]? = now.objects[k]?)
    {done : Bool} (hmoves : TailMoves fs.config.suffix source target before next.objects done
      (separator :: entry.name)) :
    (done = true → fs.Progress source target before (past ++ [entry]) next) ∧
      DirectoryMoves fs.config.suffix source target before next.objects false := by
  have htail : IsTail fs.config.suffix (separator :: entry.name) := Or.inr ⟨_, rfl⟩
  refine h.step hm (fun e he t ht ht' => ?_) (fun k hk hk' => ?_) (fun t ht hnot => ?_)
    fun t ht => ?_
  · obtain ⟨he, hne⟩ := hpast e he
    exact hne (ht.name_eq fs.config.separator_notMem_suffix ht' he hentry)
  · refine hagree k ?_ ?_
    · rintro rfl
      exact hk ((inTree_append_iff hsource.1).mpr htail)
    · rintro rfl
      exact hk' ((inTree_append_iff htarget.1).mpr htail)
  · have hne : t ≠ separator :: entry.name := by
      rintro rfl
      exact hnot (.file hfile)
    refine ⟨hagree _ ?_ ?_, hagree _ ?_ ?_⟩
    · exact fun heq => hne (List.append_cancel_left heq)
    · intro heq
      refine append_notMem_tree hsource.1 htarget.1 hunrelated ht ?_
      rw [heq]
      exact (inTree_append_iff htarget.1).mpr htail
    · intro heq
      refine append_notMem_tree htarget.1 hsource.1 hunrelated.symm ht ?_
      rw [heq]
      exact (inTree_append_iff hsource.1).mpr htail
    · exact fun heq => hne (List.append_cancel_left heq)
  · cases ht with
    | file => exact hmoves
    | directory hdir =>
      rw [hfile] at hdir
      exact Bool.noConfusion hdir

/-- What lies in the tree of a name that has not been moved is where it was. -/
theorem Progress.untouched_tree (h : fs.Progress source target before past now) {name : Key}
    (hname : IsName name)
    (hpast : ∀ e ∈ past, Status.IsEntry fs.config.suffix e ∧ e.name ≠ name)
    (ht : IsTail fs.config.suffix t) :
    now.objects[source ++ separator :: name ++ t]? = before[source ++ separator :: name ++ t]? ∧
      target ++ separator :: name ++ t ∉ now.objects := by
  have hentry : Status.IsEntry fs.config.suffix (Status.directory name) :=
    ⟨hname, fun h => Bool.noConfusion h⟩
  have huntouched := h.untouched hentry hpast (.directory rfl ht)
  rwa [append_child, append_child] at huntouched

theorem Progress.getElem?_of_inTree (h : fs.Progress source target before past now) {name k : Key}
    (hname : IsName name)
    (hpast : ∀ e ∈ past, Status.IsEntry fs.config.suffix e ∧ e.name ≠ name)
    (hk : InTree fs.config.suffix (source ++ separator :: name) k) :
    now.objects[k]? = before[k]? := by
  obtain ⟨t, ht, rfl⟩ := hk.exists_tail (by simp)
  exact (h.untouched_tree hname hpast ht).1

/-- A name that has not been moved has a vacant target. -/
theorem Progress.isVacant (h : fs.Progress source target before past now) {name : Key}
    (hname : IsName name)
    (hpast : ∀ e ∈ past, Status.IsEntry fs.config.suffix e ∧ e.name ≠ name) :
    now.objects.IsVacant fs.config.suffix (target ++ separator :: name) := by
  intro k hk
  obtain ⟨t, ht, rfl⟩ := hk.exists_tail (by simp)
  exact (h.untouched_tree hname hpast ht).2

variable (hr : plan.Refuses)

include hr hsource htarget hunrelated in
/-- Moving a file keeps it, and it succeeds if nothing is refused. -/
theorem returns_moveFile_entry (h : fs.Progress source target before past world.store)
    (hlisting : Status.IsListing fs.config.suffix before (childPrefix source)
      (past ++ entry :: rest))
    (hfile : entry.isDirectory = false) :
    (fs.renameFile (source ++ separator :: entry.name) (target ++ separator :: entry.name)).Returns
      plan world fun done after => fs.Mounted after.store ∧
        (done = true → fs.Progress source target before (past ++ [entry]) after.store) ∧
        DirectoryMoves fs.config.suffix source target before after.store.objects false ∧
        (plan = .quiet → done = true) := by
  have hm := h.mounted
  have hreads := (hlisting.mem_iff entry).mp (by simp)
  have hentry := hreads.isEntry
  have hpast := hlisting.name_ne
  have hname := hreads.isName
  obtain ⟨hsame, hfree⟩ := h.untouched hentry hpast (.file hfile)
  have hcarries := hreads.carries_file hfile
  have hne : target ++ separator :: entry.name ≠ source ++ separator :: entry.name :=
    fun heq => hunrelated.ne (List.append_cancel_right heq).symm
  refine (returns_renameFile_vacant hr hm (hm.normalize? (hsource.child hname))
    (hm.normalize? (htarget.child hname)) (by simp) (by simp) hfree
    (h.isVacant hname hpast)).mono ?_
  have hmem := (mem_congr hsame).mpr (hreads.mem_file hsource.1 hfile)
  intro done after hafter
  obtain ⟨hm', hagree, hmoves, hquiet⟩ : fs.Mounted after.store ∧
      (∀ k, k ≠ source ++ separator :: entry.name → k ≠ target ++ separator :: entry.name →
        after.store.objects[k]? = world.store.objects[k]?) ∧
      TailMoves fs.config.suffix source target before after.store.objects done
        (separator :: entry.name) ∧ (plan = .quiet → done = true) := by
    rcases hafter with ⟨rfl, o, ho, hstore⟩ | ⟨rfl, hstore | ⟨o, ho, hstore⟩, hquiet⟩
    · refine ⟨hstore ▸ (hm.put _ _).remove _, fun k hk hk' => ?_, ?_, fun _ => rfl⟩
      · rw [hstore, getElem?_remove_of_ne _ hk, getElem?_put_of_ne _ _ hk']
      · refine .of_copy hcarries (hsame.symm.trans ho) ?_ true
        rw [hstore, body?_congr (getElem?_remove_of_ne _ hne), body?_put_self]
    · refine ⟨hstore ▸ hm, fun k _ _ => by rw [hstore], ?_, fun hplan => absurd hmem (hquiet hplan)⟩
      rw [hstore]
      exact .untouched hsame hfree
    · refine ⟨hstore ▸ hm.put _ _, fun k _ hk' => ?_, ?_, fun hplan => absurd hmem (hquiet hplan)⟩
      · rw [hstore, getElem?_put_of_ne _ _ hk']
      · refine .of_copy hcarries (hsame.symm.trans ho) ?_ false
        rw [hstore, body?_put_self]
  obtain ⟨hprogress, hkept⟩ :=
    h.step_file hsource htarget hunrelated hm' hentry hpast hfile hagree hmoves
  exact ⟨hm', hprogress, hkept, hquiet⟩

/-- What a rename of a directory comes to. -/
structure Renamed (fs : FileSystem) (plan : Plan) (source target : Key) (before : Objects)
    (done : Bool) (after : Store) : Prop where
  mounted : fs.Mounted after
  moves : DirectoryMoves fs.config.suffix source target before after.objects done
  vacated : done = true → after.objects.IsVacant fs.config.suffix source
  /-- If nothing is refused, a well-formed directory is renamed to a target that is not there. -/
  succeeds : plan = .quiet → WellFormedIn fs.config.suffix before source →
    before.IsDirectory fs.config.suffix source → target ∉ before →
    target ≠ marker fs.config.suffix source → done = true

/-- A directory among the entries is moved as a whole, one level less deep. -/
theorem Movable.child {depth : Nat} (hmovable : fs.Movable plan (depth + 1) source target before)
    (h : fs.Progress source target before past now)
    (hlisting : Status.IsListing fs.config.suffix before (childPrefix source)
      (past ++ entry :: rest))
    (hdir : entry.isDirectory = true) :
    fs.Movable plan depth (source ++ separator :: entry.name) (target ++ separator :: entry.name)
      now.objects := by
  have hsource := hmovable.source_normal
  have hreads := (hlisting.mem_iff entry).mp (by simp)
  have hpast := hlisting.name_ne
  have hname := hreads.isName
  have hseparator := hname.separator_notMem
  obtain ⟨hne, hnotInside⟩ := not_prefix_child hsource.1 hseparator hmovable.target_ne
    hmovable.not_inside
  have hsame : ∀ k, InTree fs.config.suffix (source ++ separator :: entry.name) k →
      now.objects[k]? = before[k]? := fun k => h.getElem?_of_inTree hname hpast
  have hdepth : ∀ k ∈ before, InTree fs.config.suffix (source ++ separator :: entry.name) k →
      k.count separator < depth + 1 + source.count separator :=
    fun k hk htree => hmovable.depth_le k hk (htree.of_child hsource.1)
  refine ⟨hsource.child hname, hmovable.target_normal.child hname, hne, hnotInside,
    h.isVacant hname hpast, ?_, fun k hk hbelow => ?_, ?_⟩
  · obtain ⟨k, hk, htree⟩ : ∃ k ∈ before,
        InTree fs.config.suffix (source ++ separator :: entry.name) k := by
      rcases hreads.isDirectory hsource.1 hdir with hnil | hmarker | ⟨k, hk, hbelow⟩
      · exact absurd hnil (by simp)
      · exact ⟨_, hmarker, Or.inl rfl⟩
      · exact ⟨k, hk, Or.inr hbelow⟩
    have hlt := hdepth k hk htree
    have hle := count_le_of_inTree fs.config.separator_notMem_suffix (by simp) htree
    rw [count_child _ _ hseparator] at hle
    omega
  · have hlt := hdepth k ((mem_congr (hsame k (Or.inr hbelow))).mp hk) (Or.inr hbelow)
    rw [count_child _ _ hseparator]
    omega
  · refine hmovable.markers_empty.imp_right fun hempty k o htree hsuffix hk => ?_
    exact hempty k o (Or.inr (htree.of_child hsource.1)) hsuffix ((hsame k htree).symm.trans hk)

include hsource htarget hunrelated in
/-- A rename of a directory among the entries is a move of that entry. -/
theorem Progress.step_directory (h : fs.Progress source target before past now)
    (hlisting : Status.IsListing fs.config.suffix before (childPrefix source)
      (past ++ entry :: rest))
    (hdir : entry.isDirectory = true) {done : Bool}
    (hrenamed : fs.Renamed plan (source ++ separator :: entry.name)
      (target ++ separator :: entry.name) now.objects done next) :
    (done = true → fs.Progress source target before (past ++ [entry]) next) ∧
      DirectoryMoves fs.config.suffix source target before next.objects false := by
  have hs := fs.config.separator_notMem_suffix
  have hreads := (hlisting.mem_iff entry).mp (by simp)
  have hpast := hlisting.name_ne
  have hname := hreads.isName
  -- a tail in the tree of the entry belongs to the entry
  have houtside : ∀ {key : Key} {t}, key ≠ [] → ¬ Status.Covers fs.config.suffix entry t →
      ¬ InTree fs.config.suffix (key ++ separator :: entry.name) (key ++ t) := by
    intro key t hkey hnot htree
    obtain ⟨t', ht', heq⟩ := htree.exists_tail (by simp)
    rw [← append_child] at heq
    rw [List.append_cancel_left heq] at hnot
    exact hnot (.directory hdir ht')
  have hcross : ∀ {a b : Key} {t}, a ≠ [] → b ≠ [] → Unrelated a b → IsTail fs.config.suffix t →
      ¬ InTree fs.config.suffix (b ++ separator :: entry.name) (a ++ t) := fun ha hb hab ht htree =>
    append_notMem_tree ha hb hab ht (Or.inr (htree.of_child hb))
  refine h.step hrenamed.mounted (fun e he t ht ht' => ?_) (fun k hk hk' => ?_)
    (fun t ht hnot => ?_) fun t ht => ?_
  · obtain ⟨he, hne⟩ := hpast e he
    exact hne (ht.name_eq hs ht' he hreads.isEntry)
  · exact hrenamed.moves.frame k (fun htree => hk (Or.inr (htree.of_child hsource.1)))
      fun htree => hk' (Or.inr (htree.of_child htarget.1))
  · exact ⟨hrenamed.moves.frame _ (houtside hsource.1 hnot)
        (hcross hsource.1 htarget.1 hunrelated ht),
      hrenamed.moves.frame _ (hcross htarget.1 hsource.1 hunrelated.symm ht)
        (houtside htarget.1 hnot)⟩
  · cases ht with
    | file hfile =>
      rw [hfile] at hdir
      exact Bool.noConfusion hdir
    | @directory t _ ht =>
      have hmem : ∀ k, childPrefix (source ++ separator :: entry.name) <+: k →
          (k ∈ now.objects ↔ k ∈ before) :=
        fun k hk => mem_congr (h.getElem?_of_inTree hname hpast (Or.inr hk))
      refine (hrenamed.moves.tail t ht).of_child (h.untouched_tree hname hpast ht).1 ?_
      refine (hreads.carries_directory_iff hs hsource.1 hdir ht).trans ⟨fun hc => ?_, fun hc => ?_⟩
      · exact hc.congr (by simp) hmem
      · exact hc.congr (by simp) fun k hk => (hmem k hk).symm

/-- In a well-formed tree the preconditions of a directory among the entries hold. -/
theorem Progress.succeeds_directory (h : fs.Progress source target before past now)
    (hsource : IsNormal source)
    (hlisting : Status.IsListing fs.config.suffix before (childPrefix source)
      (past ++ entry :: rest))
    (hdir : entry.isDirectory = true) {done : Bool}
    (hrenamed : fs.Renamed plan (source ++ separator :: entry.name)
      (target ++ separator :: entry.name) now.objects done next)
    (hplan : plan = .quiet) (hwf : WellFormedIn fs.config.suffix before source) : done = true := by
  have hreads := (hlisting.mem_iff entry).mp (by simp)
  have hpast := hlisting.name_ne
  have hname := hreads.isName
  have hplain := hwf.not_suffix_of_reads fs.config.separator_notMem_suffix hsource.1 hreads
  have hsame : ∀ k, InTree fs.config.suffix (source ++ separator :: entry.name) k →
      now.objects[k]? = before[k]? := fun k => h.getElem?_of_inTree hname hpast
  have hfile : Status.IsEntry fs.config.suffix { name := entry.name, isDirectory := false } :=
    ⟨hname, fun _ => hplain⟩
  refine hrenamed.succeeds hplan ((hwf.child hsource.1 entry.name).congr (by simp) hsame)
    ((hreads.isDirectory hsource.1 hdir).congr hsame) (h.untouched hfile hpast (.file rfl)).2 ?_
  rw [marker_child]
  intro heq
  have hpieces := congrArg pieces heq
  have hseparator : separator ∉ entry.name ++ fs.config.suffix := by
    simp [hname.separator_notMem, fs.config.separator_notMem_suffix]
  rw [pieces_append_separator, pieces_append_separator, pieces_of_notMem hname.separator_notMem,
    pieces_of_notMem hseparator] at hpieces
  have hlast := (List.append_inj' hpieces rfl).2
  exact fs.config.suffix_ne_nil (by simpa using hlast)

include hr hsource htarget hunrelated in
/-- Moving an entry keeps what belongs to it, and it succeeds in a well-formed tree if nothing is
refused. -/
theorem returns_moveEntry {depth : Nat} {sourcePath targetPath : Path}
    (hmovable : fs.Movable plan (depth + 1) source target before)
    (ih : ∀ {source target : Key} {world : World}, fs.Mounted world.store →
      fs.Movable plan depth source target world.store.objects →
      (fs.renameWithin depth source target).Returns plan world fun done after =>
        fs.Renamed plan source target world.store.objects done after.store)
    (h : fs.Progress source target before past world.store)
    (hlisting : Status.IsListing fs.config.suffix before (childPrefix source)
      (past ++ entry :: rest)) :
    (fs.moveEntry depth sourcePath targetPath source target entry).Returns plan world
      fun done after => fs.Mounted after.store ∧
        (done = true → fs.Progress source target before (past ++ [entry]) after.store) ∧
        DirectoryMoves fs.config.suffix source target before after.store.objects false ∧
        (plan = .quiet → WellFormedIn fs.config.suffix before source → done = true) := by
  have hname := ((hlisting.mem_iff entry).mp (by simp)).isName
  rw [moveEntry, hsource.concat hname, htarget.concat hname]
  dsimp only
  by_cases hdir : entry.isDirectory = true
  · rw [if_pos hdir]
    refine (ih h.mounted (hmovable.child h hlisting hdir)).bind fun done between hrenamed => ?_
    obtain ⟨hprogress, hkept⟩ := h.step_directory hsource htarget hunrelated hlisting hdir hrenamed
    refine StoreM.returns_recorded fun after hafter => ?_
    rw [hafter]
    exact ⟨hrenamed.mounted, hprogress, hkept, fun hplan hwf =>
      h.succeeds_directory hsource hlisting hdir hrenamed hplan hwf⟩
  · rw [if_neg hdir]
    refine (returns_moveFile_entry hsource htarget hunrelated hr h hlisting
      (by simpa using hdir)).bind ?_
    rintro done between ⟨hm, hprogress, hkept, hquiet⟩
    refine StoreM.returns_recorded fun after hafter => ?_
    rw [hafter]
    exact ⟨hm, hprogress, hkept, fun hplan _ => hquiet hplan⟩

/-! ### Beginning and finishing -/

section

variable {depth : Nat} {store listed looked : Store} {entries : List Status} {body : Bytes}

/-- A directory and a vacant target outside of it are unrelated. -/
theorem Movable.unrelated (h : fs.Movable plan depth source target before)
    (hdir : before.IsDirectory fs.config.suffix source) : Unrelated source target := by
  refine ⟨h.target_ne.symm, h.not_inside, fun habove => ?_⟩
  rcases hdir with hnil | hmarker | ⟨k, hk, hbelow⟩
  · exact h.source_normal.1 hnil
  · exact h.vacant _ (Or.inr (habove.trans (List.prefix_append ..))) hmarker
  · exact h.vacant k (Or.inr ((habove.trans (prefix_childPrefix source)).trans hbelow)) hk

/-- The marker of a vacant target is not touched before it is established. -/
theorem Movable.vacant_of_settles (h : fs.Movable plan depth source target store.objects)
    (hlisted : fs.Settles plan source store listed) :
    listed.objects.IsVacant fs.config.suffix target := by
  cases hlisted with
  | same => exact h.vacant
  | marked _ _ hbelow _ =>
    refine h.vacant.congr fun k hk => getElem?_put_of_ne store [] ?_
    rintro rfl
    exact append_notMem_tree h.source_normal.1 h.target_normal.1 (h.unrelated hbelow.isDirectory)
      (Or.inl rfl) hk

/-- A rename that has only looked at the source has moved nothing. -/
theorem Movable.directoryMoves_of_settles (h : fs.Movable plan depth source target store.objects)
    (hlisted : fs.Settles plan source store listed) :
    DirectoryMoves fs.config.suffix source target store.objects listed.objects false := by
  have hvacant := h.vacant_of_settles hlisted
  have hfree : ∀ t, IsTail fs.config.suffix t → target ++ t ∉ listed.objects :=
    fun t ht => hvacant _ ((inTree_append_iff h.target_normal.1).mpr ht)
  refine ⟨fun k hk _ => hlisted.getElem?_of_ne ?_, fun t ht => ?_⟩
  · rintro rfl
    exact hk (Or.inl rfl)
  · by_cases hsuffix : t = fs.config.suffix
    · subst hsuffix
      refine ⟨fun _ o ho => Or.inl ?_, fun o o' _ ho' => ?_, fun hmem => ?_,
        fun h => Bool.noConfusion h⟩
      · cases hlisted with
        | same => exact body?_of_getElem? ho
        | marked _ _ _ hquiet =>
          rcases h.markers_empty with hplan | hempty
          · exact absurd (mem_of_getElem? ho) (hquiet hplan)
          · rw [hempty _ o (Or.inl rfl) (suffix_marker _ source) ho]
            exact body?_put_self ..
      · exact absurd (mem_of_getElem? ho') (hfree _ ht)
      · exact absurd hmem (hfree _ ht)
    · refine .untouched (hlisted.getElem?_of_ne fun heq => hsuffix ?_) (hfree t ht)
      exact List.append_cancel_left heq

/-- When a rename begins, nothing but the markers has changed. -/
theorem Begins.progress
    (hbegins : fs.Begins plan source target store entries listed looked body)
    (h : fs.Movable plan depth source target store.objects) (hm : fs.Mounted store) :
    Status.IsListing fs.config.suffix store.objects (childPrefix source) entries ∧
      fs.Progress source target store.objects []
        (looked.put (marker fs.config.suffix target) body) := by
  have hsource := h.source_normal.1
  have htarget := h.target_normal.1
  have hunrelated := h.unrelated hbegins.isDirectory
  have hlisted := hbegins.listing
  obtain rfl := hbegins.looking.eq_of_vacant (h.vacant_of_settles hlisted)
  have hsame : ∀ k, k ≠ marker fs.config.suffix source → k ≠ marker fs.config.suffix target →
      (looked.put (marker fs.config.suffix target) body).objects[k]? = store.objects[k]? :=
    fun k hk hk' => (getElem?_put_of_ne _ _ hk').trans (hlisted.getElem?_of_ne hk)
  refine ⟨hbegins.isListing.congr fun k hk => (hlisted.getElem?_of_below hk).symm,
    (hlisted.mounted hm).put _ _, fun k hk hk' => ?_, ?_, fun t ht hne _ => ⟨?_, ?_⟩, by simp⟩
  · refine hsame k ?_ ?_
    · rintro rfl
      exact hk (Or.inl rfl)
    · rintro rfl
      exact hk' (Or.inl rfl)
  · refine .of_body .marker (fun o ho => ?_) true
    have hbody : body = o.body := by
      rcases h.markers_empty with hplan | hempty
      · refine hbegins.body_eq_of_quiet hplan o ?_
        cases hlisted with
        | same => exact ho
        | marked _ _ _ hquiet => exact absurd (mem_of_getElem? ho) (hquiet hplan)
      · have hnil := hempty _ o (Or.inl rfl) (suffix_marker _ source) ho
        rw [hnil]
        rcases hbegins.body_eq with hbody | hbody
        · exact hbody
        · cases hlisted with
          | same => rw [← hnil, ← Option.some.inj (hbody.symm.trans (body?_of_getElem? ho))]
          | marked => exact (Option.some.inj (hbody.symm.trans (body?_put_self ..)))
    rw [← hbody]
    exact body?_put_self ..
  · refine hsame _ (fun heq => hne (List.append_cancel_left heq)) fun heq => ?_
    refine append_notMem_tree hsource htarget hunrelated ht ?_
    rw [heq]
    exact Or.inl rfl
  · have hkeep := hsame (target ++ t) (fun heq => ?_) fun heq => hne (List.append_cancel_left heq)
    · exact (mem_congr hkeep).not.mpr (h.vacant _ ((inTree_append_iff htarget).mpr ht))
    · refine append_notMem_tree htarget hsource hunrelated.symm ht ?_
      rw [heq]
      exact Or.inl rfl

/-- Once all entries have been moved, what is removed at the source has arrived or was not carried
over. -/
theorem Progress.finish (h : fs.Progress source target before entries now)
    (hsource : source ≠ []) (htarget : target ≠ []) (hunrelated : Unrelated source target)
    (hlisting : Status.IsListing fs.config.suffix before (childPrefix source) entries)
    (hprunes : Prunes (InTree fs.config.suffix source) now.objects next.objects) (done : Bool) :
    DirectoryMoves fs.config.suffix source target before next.objects done := by
  refine ⟨fun k hk hk' => (hprunes.getElem?_eq hk).trans (h.frame k hk hk'), fun t ht => ?_⟩
  have hkeep : next.objects[target ++ t]? = now.objects[target ++ t]? :=
    hprunes.getElem?_eq (append_notMem_tree htarget hsource hunrelated.symm ht)
  by_cases hsuffix : t = fs.config.suffix
  · subst hsuffix
    exact h.marker.of_arrived hkeep done
  · by_cases hcovered : ∃ e ∈ entries, Status.Covers fs.config.suffix e t
    · obtain ⟨e, he, hcovers⟩ := hcovered
      exact (h.moved e he t hcovers).of_arrived hkeep done
    · obtain ⟨-, hfree⟩ := h.waiting t ht hsuffix fun e he hcovers => hcovered ⟨e, he, hcovers⟩
      have hfree' := (mem_congr hkeep).not.mpr hfree
      have hnone : before.Carries fs.config.suffix source t → ∀ o, before[source ++ t]? ≠ some o :=
        fun hcarries o ho =>
          hcovered (hlisting.exists_covers hsource hcarries hsuffix (mem_of_getElem? ho))
      exact ⟨fun hc o ho => absurd ho (hnone hc o),
        fun _ _ _ ho' => absurd (mem_of_getElem? ho') hfree', fun hmem => absurd hmem hfree',
        fun _ hc o ho => absurd ho (hnone hc o)⟩

/-- A rename that declines has moved nothing. -/
theorem Declines.renamed (h : fs.Declines plan source target store listed)
    (hmovable : fs.Movable plan depth source target store.objects) (hm : fs.Mounted store) :
    fs.Renamed plan source target store.objects false listed := by
  have hmoves : ∀ {listed looked : Store}, fs.Settles plan source store listed →
      fs.Settles plan target listed looked → fs.Mounted looked ∧
        DirectoryMoves fs.config.suffix source target store.objects looked.objects false := by
    intro listed looked hlisted hlooked
    rw [hlooked.eq_of_vacant (hmovable.vacant_of_settles hlisted)]
    exact ⟨hlisted.mounted hm, hmovable.directoryMoves_of_settles hlisted⟩
  cases h with
  | root h => exact absurd h (not_or.mpr ⟨hmovable.source_normal.1, hmovable.target_normal.1⟩)
  | inside h => exact absurd h (not_or.mpr ⟨hmovable.target_ne, hmovable.not_inside⟩)
  | unlisted hlisted h =>
    exact ⟨hlisted.mounted hm, hmovable.directoryMoves_of_settles hlisted,
      fun hdone => Bool.noConfusion hdone, fun hplan _ hdir => absurd hdir (h hplan)⟩
  | @taken listed _ hlisted hlooked h =>
    obtain ⟨hm', hmoves⟩ := hmoves hlisted hlooked
    refine ⟨hm', hmoves, fun hdone => Bool.noConfusion hdone, fun _ _ _ hfree hne => ?_⟩
    have hvacant := hmovable.vacant_of_settles hlisted
    rcases h with hmem | hdir
    · exact absurd ((mem_congr (hlisted.getElem?_of_ne hne)).mp hmem) hfree
    · exact absurd hdir ((not_isDirectory_iff hmovable.target_normal.1).mpr hvacant)
  | unestablished hlisted hlooked h =>
    obtain ⟨hm', hmoves⟩ := hmoves hlisted hlooked
    exact ⟨hm', hmoves, fun hdone => Bool.noConfusion hdone, fun hplan => absurd hplan h⟩

include hr in
/-- Moving all entries and deleting what is left. -/
theorem returns_moveEntries {sourcePath targetPath : Path}
    (hmovable : fs.Movable plan (depth + 1) source target before)
    (hunrelated : Unrelated source target)
    (ih : ∀ {source target : Key} {world : World}, fs.Mounted world.store →
      fs.Movable plan depth source target world.store.objects →
      (fs.renameWithin depth source target).Returns plan world fun done after =>
        fs.Renamed plan source target world.store.objects done after.store)
    (h : fs.Progress source target before [] world.store)
    (hlisting : Status.IsListing fs.config.suffix before (childPrefix source) entries) :
    (fs.moveEntries depth sourcePath targetPath source target entries).Returns plan world
      fun done after => fs.Renamed plan source target before done after.store := by
  have hsource := hmovable.source_normal
  have htarget := hmovable.target_normal
  rw [moveEntries]
  -- the entries of earlier rounds have been moved
  have hloop : (entries.allM (fs.moveEntry depth sourcePath targetPath source target)).Returns plan
      world fun done after => fs.Mounted after.store ∧
        (done = true → fs.Progress source target before entries after.store) ∧
        (done = false →
          DirectoryMoves fs.config.suffix source target before after.store.objects false) ∧
        (plan = .quiet → WellFormedIn fs.config.suffix before source → done = true) := by
    refine StoreM.returns_allM (fun rest (between : World) => ∃ past, past ++ rest = entries ∧
      fs.Progress source target before past between.store) ?_ ?_ entries world ⟨[], rfl, h⟩
    · rintro entry rest between ⟨past, rfl, hprogress⟩
      refine (returns_moveEntry hsource htarget hunrelated hr hmovable ih hprogress
        hlisting).mono ?_
      rintro done after ⟨hm, hnext, hkept, hquiet⟩
      exact ⟨fun hdone => ⟨past ++ [entry], by simp, hnext hdone⟩, fun hdone =>
        ⟨hm, fun h => Bool.noConfusion h, fun _ => hkept,
          fun hplan hwf => hdone.symm.trans (hquiet hplan hwf)⟩⟩
    · rintro between ⟨past, hpast, hprogress⟩
      rw [List.append_nil] at hpast
      subst hpast
      exact ⟨hprogress.mounted, fun _ => hprogress, fun h => Bool.noConfusion h, fun _ _ => rfl⟩
  refine hloop.bind fun done between ⟨hm, hprogress, hkept, hquiet⟩ => ?_
  cases done with
  | false =>
    exact StoreM.returns_pure_iff.mpr
      ⟨hm, hkept rfl, fun hdone => Bool.noConfusion hdone, fun hplan hwf _ _ _ => hquiet hplan hwf⟩
  | true =>
    refine (returns_deleteDirectory hr hm (hm.normalize? hsource) hsource.1).mono ?_
    rintro done after ⟨hm', hprunes, hvacant, hquiet'⟩
    exact ⟨hm', (hprogress rfl).finish hsource.1 htarget.1 hunrelated hlisting hprunes done,
      hvacant, fun hplan _ _ _ _ => hquiet' hplan⟩

end

include hr in
/-- Under a plan that refuses, a rename of a directory to a vacant target answers. It keeps what it
carries over, and in a well-formed tree it succeeds if nothing is refused. -/
theorem returns_renameWithin : ∀ (depth : Nat) {sourcePath targetPath : Path} {source target : Key}
    {world : World}, normalize? fs.root sourcePath = some source →
    normalize? fs.root targetPath = some target → fs.Mounted world.store →
    fs.Movable plan depth source target world.store.objects →
    (fs.renameWithin depth sourcePath targetPath).Returns plan world fun done after =>
      fs.Renamed plan source target world.store.objects done after.store
  | 0, _, _, _, _, _, _, _, _, hmovable => absurd hmovable.depth_pos (Nat.lt_irrefl 0)
  | depth + 1, _, _, _, _, world, hsource, htarget, hm, hmovable => by
      refine returns_renameWithin_succ hr hm hsource htarget
        (fun after hdeclines => hdeclines.renamed hmovable hm) ?_
      intro entries listed looked body between hbegins hstore
      obtain ⟨hlisting, hprogress⟩ := hbegins.progress hmovable hm
      rw [← hstore] at hprogress
      refine returns_moveEntries hr hmovable (hmovable.unrelated hbegins.isDirectory) ?_ hprogress
        hlisting
      intro source target world hm hmovable
      exact returns_renameWithin depth (hm.normalize? hmovable.source_normal)
        (hm.normalize? hmovable.target_normal) hm hmovable

end FileSystem

end KeyTree
