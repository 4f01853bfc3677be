import KeyTree.Proofs.FileSystem.Reflected

/-!
# Runs in which nothing fails

If nothing fails, what a request comes back with depends on the store alone. So two runs from
stores of a similar look mirror each other as soon as similar stores hold objects of the same look
under the keys that may be looked at, and stay similar when one object is stored or removed in
both.

## Main definitions

* `FileSystem.Similarity` — relations between stores that are kept by the changes to both.
* `FileSystem.quietRuns` — runs in which nothing fails, from similar stores.

## Main results

* `FileSystem.Similarity.mirror` — these runs mirror each other, whatever the page sizes.
-/

namespace KeyTree.FileSystem

open Key Listing

/-- Relations between stores with the bucket of a file system that are kept by changes to both, and
under which the keys that may be looked at hold objects of the same look. -/
structure Similarity (fs : FileSystem) (view : Instant → Instant) (reads writes : Key → Prop)
    (similar : Store → Store → Prop) : Prop where
  mounted : ∀ store other, similar store other → fs.Mounted store ∧ fs.Mounted other
  agree : ∀ store other, similar store other →
    Objects.Agree view reads store.objects other.objects
  put : ∀ store other key body, similar store other → writes key →
    similar (store.put key body) (other.put key body)
  remove : ∀ store other key, similar store other → reads key →
    similar (store.remove key) (other.remove key)

/-- The comparison of runs in which nothing fails, from similar stores. -/
def quietRuns (similar : Store → Store → Prop) (raises : Error → Prop) : Comparison where
  plan := .quiet
  related world other := similar world.store other.store
  raises

variable {fs : FileSystem} {view : Instant → Instant} {reads writes : Key → Prop}
  {similar : Store → Store → Prop} {raises : Error → Prop}

/-- If nothing fails, a request with a key is served by the store, and one without a key is not
sent. -/
theorem exec_send_quiet {bucket : List Char} {world : World} (hbucket : bucket = world.store.bucket)
    (request : Request) :
    (send bucket request).exec .quiet world =
      if request.hasKey = true then
        (.ok ((world.store.perform request).1.mapError (⟨request, ·⟩)),
          { store := (world.store.perform request).2
            journal := .request request :: world.journal })
      else
        (.ok (.error ⟨request, .emptyKey⟩),
          { store := world.store, journal := .request request :: world.journal }) := by
  rw [exec_send]
  by_cases hkey : request.hasKey = true
  · rw [if_pos hkey, serve_of_passes (Plan.passes_quiet_iff.mpr hkey) hbucket]
    rcases (world.store.perform request).1 with error | reply <;> rfl
  · rw [if_neg hkey, serve, if_neg hkey]

namespace Similarity

variable (h : Similarity fs view reads writes similar)

include h

/-- A request ends alike if the stores answer it alike and stay similar. -/
theorem matches_send (request : Request) {same : request.Reply → request.Reply → Prop}
    (hperform : ∀ store other, similar store other →
      SameReply same (store.perform request).1 (other.perform request).1 ∧
        similar (store.perform request).2 (other.perform request).2) :
    (quietRuns similar raises).Matches (SameReply same) (send fs.bucket.name request)
      (send fs.bucket.name request) := by
  intro world other hrelated
  obtain ⟨hm, hm'⟩ := h.mounted _ _ hrelated
  change Comparison.Outcomes _ _ ((send fs.bucket.name request).exec .quiet world)
    ((send fs.bucket.name request).exec .quiet other)
  rw [exec_send_quiet hm.bucket_eq, exec_send_quiet hm'.bucket_eq]
  split
  · obtain ⟨hreply, hafter⟩ := hperform _ _ hrelated
    refine .ok ?_ hafter
    generalize (world.store.perform request).1 = reply at hreply
    generalize (other.store.perform request).1 = reply' at hreply
    cases hreply with
    | ok hsame => exact .ok hsame
    | error error => exact .error _
  · exact .ok (.error _) hrelated

/-- Whether keys lie below a directory is seen alike. -/
theorem matches_listOne {key : Key} (hbelow : ∀ k, childPrefix key <+: k → reads k) :
    (quietRuns similar raises).Matches
      (SameReply fun page page' : Page => page.isEmpty = page'.isEmpty)
      (fs.bucket.list (childPrefix key) [separator] 1 none)
      (fs.bucket.list (childPrefix key) [separator] 1 none) := by
  have hone : ∀ {world : World}, fs.Mounted world.store →
      (fs.bucket.list (childPrefix key) [separator] 1 none).Returns .quiet world
        fun reply after => after.store = world.store ∧
          ∃ page, reply = .ok page ∧ (page.isEmpty = false ↔ world.store.objects.HasBelow key) := by
    intro world hm
    refine (Bucket.returns_list Plan.refuses_quiet hm.bucket_eq (childPrefix key) false 1 rfl).mono
      fun reply after ⟨hstore, _, hreply⟩ => ⟨hstore, ?_⟩
    cases reply with
    | error fault => exact absurd (Plan.passes_quiet_iff.mpr rfl) hreply
    | ok page =>
      refine ⟨page, rfl, ?_⟩
      rw [hreply.2, isEmpty_pageOfItems, Objects.HasBelow,
        ← @items_ne_nil_iff world.store.objects (childPrefix key) false]
      cases items world.store.objects (childPrefix key) (delimiterOf false) <;> simp
  refine Comparison.matches_of_returns fun world other hrelated => ?_
  obtain ⟨hm, hm'⟩ := h.mounted _ _ hrelated
  refine (hone hm).mono ?_
  rintro _ after ⟨hstore, page, rfl, hpage⟩
  refine (hone hm').mono ?_
  rintro _ after' ⟨hstore', page', rfl, hpage'⟩
  refine ⟨.ok ?_, ?_⟩
  · have hiff := ((h.agree _ _ hrelated).hasBelow_iff hbelow).symm
    rw [← Bool.not_inj_iff, Bool.eq_iff_iff, Bool.not_eq_true', Bool.not_eq_true', hpage, hpage',
      hiff]
  · change similar after.store after'.store
    rw [hstore, hstore']
    exact hrelated

theorem matches_allPages {size : Nat} (hsize : 0 < size) {key : Key} (recursive : Bool) :
    (quietRuns similar raises).Matches
      (Option.Rel fun found found' => ∃ world other,
        (quietRuns similar raises).related world other ∧ found = pages fs.config.pageSize
          (items world.store.objects (childPrefix key) (delimiterOf recursive)) ∧
        found' = pages size
          (items other.store.objects (childPrefix key) (delimiterOf recursive)))
      (fs.allPages key recursive) ((fs.withPageSize size hsize).allPages key recursive) := by
  refine Comparison.matches_of_returns fun world other hrelated => ?_
  obtain ⟨hm, hm'⟩ := h.mounted _ _ hrelated
  have hm'' : (fs.withPageSize size hsize).Mounted other.store := ⟨hm'.bucket_eq, hm'.named⟩
  refine (returns_allPages_quiet hm recursive).mono ?_
  rintro _ after ⟨hstore, rfl⟩
  refine (returns_allPages_quiet hm'' recursive).mono ?_
  rintro _ after' ⟨hstore', rfl⟩
  refine ⟨.some ⟨world, other, hrelated, rfl, rfl⟩, ?_⟩
  change similar after.store after'.store
  rw [hstore, hstore']
  exact hrelated

/-- Runs in which nothing fails mirror each other from similar stores, whatever the page sizes. -/
theorem mirror (hnamed : ∃ ch ∈ fs.bucket.name, ch ≠ separator) (size : Nat) (hsize : 0 < size) :
    Mirror (quietRuns similar raises) fs size hsize view reads writes where
  named := hnamed
  notes := fun _ _ _ hrelated => hrelated
  agree := fun _ _ hrelated => h.agree _ _ hrelated
  metadata key hkey := by
    refine matches_metadata_of_send (h.matches_send (.head key) fun store other hsimilar => ?_)
    rw [store.perform_snd_of_not_writes rfl, other.perform_snd_of_not_writes rfl]
    refine ⟨?_, hsimilar⟩
    have hagree := h.agree _ _ hsimilar key hkey
    simp only [Store.perform]
    rcases ho : store.objects[key]? with _ | o
    · rw [ho, Option.map_none] at hagree
      rw [Option.map_eq_none_iff.mp hagree.symm]
      exact .error _
    · obtain ⟨o', ho', hseen⟩ := (h.agree _ _ hsimilar).exists_getElem? hkey ho
      rw [ho']
      exact .ok ⟨o, o', hseen, rfl, rfl⟩
  read key hkey := by
    refine (h.matches_send (.get key) fun store other hsimilar => ?_).mono fun _ _ => SameReply.eq
    rw [store.perform_snd_of_not_writes rfl, other.perform_snd_of_not_writes rfl]
    refine ⟨?_, hsimilar⟩
    have hbody := (h.agree _ _ hsimilar).body?_eq hkey
    simp only [Objects.body?] at hbody
    simp only [Store.perform]
    rcases ho : store.objects[key]? with _ | o <;> rcases ho' : other.objects[key]? with _ | o' <;>
      simp only [ho, ho'] at hbody ⊢
    · exact .error _
    · cases hbody
    · cases hbody
    · exact .ok (Option.some.inj hbody)
  write key body length hkey :=
    (h.matches_send (.put key body _) fun store other hsimilar =>
      ⟨.ok rfl, h.put _ _ key body hsimilar hkey⟩).mono fun _ _ => SameReply.eq
  upload key body hkey :=
    (h.matches_send (.upload key body) fun store other hsimilar =>
      ⟨.ok rfl, h.put _ _ key body hsimilar hkey⟩).mono fun _ _ => SameReply.eq
  delete key hkey :=
    (h.matches_send (.delete key) fun store other hsimilar =>
      ⟨.ok rfl, h.remove _ _ key hsimilar hkey⟩).mono fun _ _ => SameReply.eq
  copy source target hsource htarget := by
    refine (h.matches_send (.copy source target) fun store other hsimilar => ?_).mono
      fun _ _ => SameReply.eq
    have hbody := (h.agree _ _ hsimilar).body?_eq hsource
    simp only [Objects.body?] at hbody
    simp only [Store.perform]
    rcases ho : store.objects[source]? with _ | o <;>
      rcases ho' : other.objects[source]? with _ | o' <;> simp only [ho, ho'] at hbody ⊢
    · exact ⟨.error _, hsimilar⟩
    · cases hbody
    · cases hbody
    · have hsame : o.body = o'.body := Option.some.inj hbody
      rw [hsame]
      exact ⟨.ok rfl, h.put _ _ target o'.body hsimilar htarget⟩
  listOne _ hbelow := h.matches_listOne hbelow
  allPages _ recursive _ := h.matches_allPages hsize recursive

end Similarity

end KeyTree.FileSystem
