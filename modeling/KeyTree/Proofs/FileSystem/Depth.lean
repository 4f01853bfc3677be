import KeyTree.Proofs.FileSystem.Failing
import KeyTree.Proofs.FileSystem.Reflected
import KeyTree.Proofs.FileSystem.RenameTree

/-!
# The depth of a rename

A rename of a directory descends at most as many levels as the bucket has below its source. Each
level takes a separator of a key below the source, and what the rename writes there lies less deep
than what it has come to, even if a failed look-up lets it move a directory to a place above its
source. So the levels that a rename is given are enough whichever requests fail, and more of them
change nothing.

## Main definitions

* `StoreM.Extends` — computations that run alike unless the first one runs out of levels.
* `FileSystem.Shallow` — stores whose keys below a directory are not too deep.
* `FileSystem.Within` — renames that have enough levels left.

## Main results

* `FileSystem.returns_renameDirectory_of_onlyFails` — a rename of a directory returns under every
  plan that only fails requests.
* `FileSystem.exec_renameWithin_of_le` — more levels change nothing.
-/

namespace KeyTree

open Key

/-! ### More levels -/

/-- A computation *extends* another one when it runs alike unless that runs out of levels. -/
def StoreM.Extends {α : Type} (x y : StoreM α) : Prop :=
  ∀ plan world, (x.exec plan world).1 ≠ .error .endlessTree → y.exec plan world = x.exec plan world

namespace StoreM

variable {α β : Type}

theorem Extends.refl (x : StoreM α) : x.Extends x := fun _ _ _ => rfl

theorem Extends.bind {x y : StoreM α} {f g : α → StoreM β} (h : x.Extends y)
    (hnext : ∀ a, (f a).Extends (g a)) : (x >>= f).Extends (y >>= g) := by
  intro plan world hends
  rw [exec_bind] at hends
  have hrun : y.exec plan world = x.exec plan world := by
    refine h plan world fun hx => hends ?_
    rw [exec_eq_of_fst hx]
  rw [exec_bind, exec_bind, hrun]
  generalize x.exec plan world = outcome at hends
  rcases outcome with ⟨error | a, after⟩
  · rfl
  · exact hnext a plan after hends

theorem Extends.trans {x y z : StoreM α} (h : x.Extends y) (h' : y.Extends z) : x.Extends z := by
  intro plan world hends
  have hy := h plan world hends
  exact (h' plan world (hy ▸ hends)).trans hy

theorem extends_allM {f g : α → StoreM Bool} (h : ∀ a, (f a).Extends (g a)) (l : List α) :
    (l.allM f).Extends (l.allM g) := by
  induction l with
  | nil => exact .refl _
  | cons a l ih =>
    rw [List.allM, List.allM]
    refine (h a).bind fun more => ?_
    cases more with
    | true => exact ih
    | false => exact .refl _

end StoreM

namespace FileSystem

variable {fs : FileSystem} {plan : Plan} {world : World} {source target : Path} {S T top : Key}
  {levels : Nat}

open StoreM (Extends)

theorem extends_moveEntry {depth more : Nat} (entry : Status)
    (h : ∀ source target, (fs.renameWithin depth source target).Extends
      (fs.renameWithin more source target)) :
    (fs.moveEntry depth source target S T entry).Extends
      (fs.moveEntry more source target S T entry) := by
  rw [moveEntry, moveEntry]
  cases entry.isDirectory with
  | true => exact (h _ _).bind fun _ => .refl _
  | false => exact .refl _

/-- A rename runs alike with one level more, unless it runs out of levels. -/
theorem extends_renameWithin_succ (depth : Nat) (source target : Path) :
    (fs.renameWithin depth source target).Extends (fs.renameWithin (depth + 1) source target) := by
  induction depth generalizing source target with
  | zero => exact fun plan world h => absurd rfl h
  | succ depth ih =>
    rw [renameWithin, renameWithin]
    refine (Extends.refl _).bind fun S => (Extends.refl _).bind fun T => ?_
    split
    · exact .refl _
    split
    · exact .refl _
    refine (Extends.refl _).bind fun children => ?_
    cases children with
    | none => exact .refl _
    | some children =>
      refine (Extends.refl _).bind fun taken => ?_
      split
      · exact .refl _
      refine (Extends.refl _).bind fun established => ?_
      split
      · exact .refl _
      refine Extends.bind ?_ fun _ => .refl _
      exact StoreM.extends_allM (fun entry => extends_moveEntry entry ih) children

/-- A rename that does not run out of levels runs alike with more of them. -/
theorem exec_renameWithin_of_le {depth more : Nat} (hle : depth ≤ more)
    (h : ((fs.renameWithin depth source target).exec plan world).1 ≠ .error .endlessTree) :
    (fs.renameWithin more source target).exec plan world =
      (fs.renameWithin depth source target).exec plan world := by
  have hextends : (fs.renameWithin depth source target).Extends
      (fs.renameWithin more source target) := by
    induction hle with
    | refl => exact .refl _
    | step _ ih => exact ih.trans (extends_renameWithin_succ _ source target)
  exact hextends plan world h

/-! ### Enough levels -/

/-- A store of the bucket is *shallow* below a directory when no key there has more than a number of
separators. -/
structure Shallow (fs : FileSystem) (top : Key) (levels : Nat) (store : Store) : Prop where
  bucket_eq : fs.bucket.name = store.bucket
  count_le : ∀ k ∈ store.objects, childPrefix top <+: k → k.count separator ≤ levels

/-- The keys that can be stored in a shallow store. -/
def KeepsShallow (top : Key) (levels : Nat) (key : Key) : Prop :=
  childPrefix top <+: key → key.count separator ≤ levels

theorem Shallow.put {store : Store} (h : fs.Shallow top levels store) {key : Key} (body : Bytes)
    (hkey : KeepsShallow top levels key) : fs.Shallow top levels (store.put key body) := by
  refine ⟨h.bucket_eq, fun k hk hbelow => ?_⟩
  rcases Objects.mem_put_iff.mp hk with rfl | hk
  · exact hkey hbelow
  · exact h.count_le k hk hbelow

theorem Shallow.remove {store : Store} (h : fs.Shallow top levels store) (key : Key) :
    fs.Shallow top levels (store.remove key) :=
  ⟨h.bucket_eq, fun k hk => h.count_le k (Objects.mem_remove_iff.mp hk).2⟩

/-- A rename of `source` to `target` that has come down from the directory `top` is *within* the
levels that it has: the source is the directory or lies below it, at a depth at which there are
keys, and the target lies outside of the directory or less deep than the source. -/
structure Within (fs : FileSystem) (top : Key) (levels depth : Nat) (source target : Path)
    (S T : Key) : Prop where
  source_eq : normalize? fs.root source = some S
  target_eq : normalize? fs.root target = some T
  source_in : (S = top ∧ 0 < depth) ∨ (childPrefix top <+: S ∧ S.count separator ≤ levels)
  target_above : T = top ∨ childPrefix top <+: T → T.count separator < S.count separator
  enough : levels < S.count separator + depth

namespace Within

variable {depth : Nat} (h : fs.Within top levels depth source target S T)

include h

/-- There is a level left. -/
theorem depth_pos : 0 < depth := by
  rcases h.source_in with ⟨-, hpos⟩ | ⟨-, hle⟩
  · exact hpos
  · have := h.enough
    omega

theorem keepsShallow_source (htop : top ≠ []) : KeepsShallow top levels S := by
  intro hbelow
  rcases h.source_in with ⟨rfl, -⟩ | ⟨-, hle⟩
  · exact absurd (count_separator_lt htop hbelow) (lt_irrefl _)
  · exact hle

theorem keepsShallow_target (htop : top ≠ []) : KeepsShallow top levels T := by
  intro hbelow
  have habove := h.target_above (Or.inr hbelow)
  rcases h.source_in with ⟨rfl, -⟩ | ⟨-, hle⟩
  · have := count_separator_lt htop hbelow
    omega
  · omega

end Within

/-- What may be stored under a key may be stored under its marker. -/
theorem KeepsShallow.marker {key : Key} (h : KeepsShallow top levels key) (htop : top ≠ []) :
    KeepsShallow top levels (marker fs.config.suffix key) := by
  intro hbelow
  rw [count_marker fs.config.separator_notMem_suffix]
  exact h (childPrefix_prefix_of_marker fs.config.separator_notMem_suffix htop hbelow)

theorem KeepsShallow.opens {key : Key} (h : KeepsShallow top levels key) (htop : top ≠ []) :
    Mirror.Opens fs.config.suffix (fun _ => True) (KeepsShallow top levels) key :=
  ⟨trivial, h, trivial, h.marker htop, fun _ _ => trivial⟩

/-- Below a directory there is a key at least as deep as each of its entries. -/
theorem exists_of_mem_entriesOf {objects : Objects} (hS : S ≠ []) {entry : Status}
    (h : entry ∈ Status.entriesOf fs.config.suffix objects S false) :
    ∃ k ∈ objects, childPrefix S <+: k ∧
      (S ++ separator :: entry.name).count separator ≤ k.count separator := by
  have hreads := ((Status.isListing_entriesOf fs.config.suffix_ne_nil
    fs.config.separator_notMem_suffix).mem_iff entry).mp h
  cases hreads with
  | file _ _ hstored =>
    rw [childPrefix_append hS] at hstored
    exact ⟨_, Objects.mem_of_getElem? hstored, (childPrefix_prefix_iff hS).mpr ⟨_, rfl⟩, le_rfl⟩
  | directory _ _ hshown =>
    rcases hshown with hmarker | ⟨k, hk, hbelow⟩
    · refine ⟨_, hmarker, List.prefix_append .., ?_⟩
      rw [childPrefix_append hS, ← List.cons_append, ← List.append_assoc]
      exact (List.prefix_append ..).sublist.count_le separator
    · refine ⟨k, hk, (List.prefix_append ..).trans hbelow, ?_⟩
      rw [← List.append_assoc, childPrefix_append hS] at hbelow
      exact ((List.prefix_append ..).trans hbelow).sublist.count_le separator

/-- The entries of a source in a shallow store can be renamed within the levels that are left. -/
theorem Within.entry {depth : Nat} (h : fs.Within top levels (depth + 1) source target S T)
    {store : Store} (hshallow : fs.Shallow top levels store) (htop : top ≠ []) (hS : IsNormal S)
    (hT : IsNormal T) (hnamed : ∃ ch ∈ fs.bucket.name, ch ≠ separator) {entry : Status}
    (hentry : entry ∈ Status.entriesOf fs.config.suffix store.objects S false) :
    fs.Within top levels depth (S ++ separator :: entry.name) (T ++ separator :: entry.name)
      (S ++ separator :: entry.name) (T ++ separator :: entry.name) := by
  have hname := Status.isName_of_mem_entriesOf fs.config.suffix_ne_nil
    fs.config.separator_notMem_suffix hentry
  have hself : ∀ key : Key, IsNormal key → normalize? fs.root key = some key :=
    fun key => normalize?_of_isNormal ⟨fs.bucket.name, rfl, hnamed⟩
  have hcountS := count_child S entry.name hname.separator_notMem
  have hcountT := count_child T entry.name hname.separator_notMem
  obtain ⟨k, hk, hbelow, hle⟩ := exists_of_mem_entriesOf hS.1 hentry
  have htopS : childPrefix top <+: childPrefix S := by
    rcases h.source_in with ⟨rfl, -⟩ | ⟨hbelow, -⟩
    · exact List.prefix_rfl
    · exact hbelow.trans (prefix_childPrefix S)
  refine ⟨hself _ (hS.child hname), hself _ (hT.child hname), Or.inr ⟨?_, ?_⟩, ?_, ?_⟩
  · exact htopS.trans ((childPrefix_prefix_iff hS.1).mpr ⟨_, rfl⟩)
  · exact hle.trans (hshallow.count_le k hk (htopS.trans hbelow))
  · intro hin
    have hTin : T ++ separator :: entry.name = top ∨ T = top ∨ childPrefix top <+: T :=
      hin.imp_right fun hbelow =>
        (eq_or_prefix_of_prefix_child htop hname.separator_notMem hbelow).imp_left Eq.symm
    rcases hTin with rfl | hTin
    · have hpos : (T ++ separator :: entry.name).count separator ≤ S.count separator := by
        rcases h.source_in with ⟨hS, -⟩ | ⟨hbelow, -⟩
        · rw [← hS]
        · exact (count_separator_lt htop hbelow).le
      omega
    · have := h.target_above hTin
      omega
  · have := h.enough
    omega

/-- Renames within their levels can be followed downwards in a shallow store. -/
theorem descends_within (plan : Plan) (htop : top ≠ [])
    (hnamed : ∃ ch ∈ fs.bucket.name, ch ≠ separator) :
    Mirror.Descends (ownRuns plan (fs.Shallow top levels) fun _ => False) fs (fun _ => True)
      (KeepsShallow top levels)
      fun depth source target => ∃ S T, fs.Within top levels depth source target S T where
  outside := by
    rintro depth source target ⟨S, T, h⟩ path hmem hnone
    rcases List.mem_pair.mp hmem with rfl | rfl
    · exact absurd (h.source_eq.symm.trans hnone) nofun
    · exact absurd (h.target_eq.symm.trans hnone) nofun
  opens := by
    rintro depth source target ⟨S, T, h⟩ path hmem key hkey -
    rcases List.mem_pair.mp hmem with rfl | rfl
    · obtain rfl := Option.some.inj (h.source_eq.symm.trans hkey)
      exact (h.keepsShallow_source htop).opens htop
    · obtain rfl := Option.some.inj (h.target_eq.symm.trans hkey)
      exact (h.keepsShallow_target htop).opens htop
  ends := by
    rintro source target ⟨S, T, h⟩
    exact absurd h.depth_pos (lt_irrefl 0)
  entry := by
    rintro depth source target S T ⟨S', T', h⟩ hS hT hSnil hTnil - world other entry hrelated hentry
    obtain rfl := Option.some.inj (h.source_eq.symm.trans hS)
    obtain rfl := Option.some.inj (h.target_eq.symm.trans hT)
    have hchild := h.entry hrelated.2 htop ((isNormal_of_normalize? hS).resolve_left hSnil)
      ((isNormal_of_normalize? hT).resolve_left hTnil) hnamed hentry
    exact ⟨(hchild.keepsShallow_source htop).opens htop,
      (hchild.keepsShallow_target htop).opens htop, fun _ => ⟨_, _, hchild⟩⟩

/-- Under a plan that only fails requests, a rename of a directory has levels enough for every tree
in the bucket, and returns. -/
theorem returns_renameDirectory_of_onlyFails (hplan : plan.OnlyFails)
    (hm : fs.Mounted world.store) (hsource : normalize? fs.root source = some S)
    (htarget : normalize? fs.root target = some T) :
    (fs.renameDirectory source target).Returns plan world fun _ after =>
      fs.Mounted after.store := by
  refine returns_renameDirectory fun depth hdepth => ?_
  by_cases hroot : S = [] ∨ T = []
  · rw [renameWithin, key_eq hsource, key_eq htarget, pure_bind, pure_bind,
      if_pos (by simpa [isRoot] using hroot)]
    exact (returns_refuse _).mono fun _ after h => hm.of_eq h.2
  by_cases hinside : T = S ∨ childPrefix S <+: T
  · rw [renameWithin, key_eq hsource, key_eq htarget, pure_bind, pure_bind,
      if_neg (by simpa [isRoot] using hroot), if_pos hinside]
    exact (returns_refuse _).mono fun _ after h => hm.of_eq h.2
  have hS : S ≠ [] := fun h => hroot (Or.inl h)
  have hshallow : fs.Shallow S depth world.store := by
    refine ⟨hm.bucket_eq, fun k hk _ => ?_⟩
    have := hdepth k hk
    have := List.count_le_length (a := separator) (l := k)
    omega
  have hwithin : fs.Within S depth (depth + 1) source target S T :=
    ⟨hsource, htarget, Or.inl ⟨rfl, Nat.succ_pos _⟩, fun h => absurd h hinside,
      by omega⟩
  have m : Mirror (ownRuns plan (fs.Shallow S depth) fun _ => False) fs fs.config.pageSize
      fs.config.pageSize_pos id (fun _ => True) (KeepsShallow S depth) :=
    mirror_ownRuns hplan hm.named (fun _ h => h.bucket_eq) (fun _ _ body h => h.put body)
      fun _ key h => h.remove key
  have hmatches := m.matches_renameWithin (descends_within plan hS hm.named) (depth + 1)
    ⟨S, T, hwithin⟩
  obtain ⟨hafter, hends⟩ := outcome_of_matches_ownRuns hmatches hshallow
  unfold StoreM.Returns
  generalize (fs.renameWithin (depth + 1) source target).exec plan world = outcome at hafter hends
  rcases outcome with ⟨error | done, after⟩
  · exact absurd (hends error rfl) id
  · exact ⟨done, after, rfl, hafter.bucket_eq, hm.named⟩

end FileSystem

end KeyTree
