import KeyTree.Proofs.Contents
import KeyTree.Proofs.Listing.Pages

/-!
# Operations on single objects

What the operations of a bucket return under a plan that refuses. An operation on an object sends
one request; the result and the change to the store depend only on whether that request passes and
on what is stored.

## Main definitions

* `Plan.Finds`, `Plan.FindsBelow` — look-ups that pass and find what they look for.

## Main results

* `Bucket.returns_metadata`, `Bucket.returns_list_one` — looking up an object, and a key below a
  directory.
* `Bucket.returns_write`, `Bucket.returns_delete`, `Bucket.returns_copy` — the changes.
-/

namespace KeyTree

open Key Listing

/-- A look-up *finds* an object when the request passes and the object is stored. -/
def Plan.Finds (plan : Plan) (earlier : List Request) (objects : Objects) (key : Key) : Prop :=
  plan.Passes earlier (.head key) ∧ key ∈ objects

/-- The request for one name below a key. -/
def Listing.requestOne (key : Key) : Request :=
  Listing.request (childPrefix key) false 1 none

/-- A listing of one name *finds* a key below a directory when the request passes and there is such
a key. -/
def Plan.FindsBelow (plan : Plan) (earlier : List Request) (objects : Objects) (key : Key) : Prop :=
  plan.Passes earlier (requestOne key) ∧ objects.HasBelow key

theorem Plan.finds_quiet_iff {earlier : List Request} {objects : Objects} {key : Key}
    (hkey : key ≠ []) : Plan.quiet.Finds earlier objects key ↔ key ∈ objects := by
  simp [Finds, Request.hasKey, Request.target, hkey]

theorem Plan.Finds.ne_nil {plan : Plan} {earlier : List Request} {objects : Objects} {key : Key}
    (h : plan.Finds earlier objects key) : key ≠ [] := by
  rintro rfl
  exact absurd h.1.1 (by decide)

theorem Plan.findsBelow_quiet_iff {earlier : List Request} {objects : Objects} {key : Key} :
    Plan.quiet.FindsBelow earlier objects key ↔ objects.HasBelow key := by
  simp [FindsBelow, requestOne, Listing.request, Request.hasKey]

/-- A listing shows something exactly when a key starts with its text. -/
theorem Listing.items_ne_nil_iff {objects : Objects} {under : Key} {recursive : Bool} :
    items objects under (delimiterOf recursive) ≠ [] ↔ ∃ k ∈ objects, under <+: k := by
  constructor
  · intro hne
    obtain ⟨item, hitem⟩ := List.exists_mem_of_ne_nil _ hne
    obtain ⟨k, o, hk, hunder, -⟩ := mem_items_iff.mp hitem
    exact ⟨k, Objects.mem_of_getElem? hk, hunder⟩
  · rintro ⟨k, hk, hunder⟩
    obtain ⟨o, ho⟩ := Objects.exists_getElem?_of_mem hk
    exact List.ne_nil_of_mem (mem_items_iff.mpr ⟨k, o, ho, hunder, rfl⟩)

theorem Listing.isEmpty_pageOfItems (shown remaining : List Item) :
    (pageOfItems shown remaining).isEmpty = shown.isEmpty := by
  cases shown with
  | nil => rfl
  | cons item shown => cases item <;> simp [pageOfItems, Page.isEmpty, Item.summary?, Item.group?]

namespace Bucket

variable {plan : Plan} (hr : plan.Refuses) {bucket : Bucket} {world : World}
  (hbucket : bucket.name = world.store.bucket)

include hr hbucket

/-- A look-up returns metadata exactly if it finds the object. -/
theorem returns_metadata (key : Key) :
    (bucket.metadata key).Returns plan world fun reply after =>
      after.store = world.store ∧ after.requests = .head key :: world.requests ∧
      ((plan.Finds world.requests world.store.objects key ∧
          ∃ metadata, reply = .ok (some metadata)) ∨
        (¬ plan.Finds world.requests world.store.objects key ∧
          (reply = .ok none ∨ ∃ fault, reply = .error fault))) := by
  rw [metadata]
  refine (returns_send hr hbucket (.head key)).bind fun reply between hreply => ?_
  obtain ⟨hrequests, ⟨hpass, rfl, hstore⟩ | ⟨hpass, ⟨fault, rfl⟩, hstore⟩⟩ := hreply
  · rcases ho : world.store.objects[key]? with _ | o
    · have hnone : ¬ plan.Finds world.requests world.store.objects key :=
        fun h => Objects.notMem_iff.mpr ho h.2
      have hperform : world.store.perform (.head key) = (.error .missingHead, world.store) := by
        simp only [Store.perform, ho]
      rw [hperform] at hstore ⊢
      exact StoreM.returns_pure_iff.mpr ⟨hstore, hrequests, Or.inr ⟨hnone, Or.inl rfl⟩⟩
    · have hperform : world.store.perform (.head key) =
          (.ok ⟨o.body.length, .known o.modified⟩, world.store) := by
        simp only [Store.perform, ho]
      rw [hperform] at hstore ⊢
      exact StoreM.returns_pure_iff.mpr
        ⟨hstore, hrequests, Or.inl ⟨⟨hpass, Objects.mem_of_getElem? ho⟩, _, rfl⟩⟩
  · have hnone : ¬ plan.Finds world.requests world.store.objects key := fun h => hpass h.1
    refine StoreM.returns_pure_iff.mpr ⟨hstore, hrequests, Or.inr ⟨hnone, ?_⟩⟩
    by_cases hfound : fault.error.isNotFound = true
    · exact Or.inl (if_pos hfound)
    · exact Or.inr ⟨fault, if_neg hfound⟩

/-- A listing of one name shows something exactly if it finds a key. -/
theorem returns_list_one (key : Key) :
    (bucket.list (childPrefix key) [separator] 1 none).Returns plan world fun reply after =>
      after.store = world.store ∧ after.requests = requestOne key :: world.requests ∧
      ((plan.FindsBelow world.requests world.store.objects key ∧
          ∃ page, reply = .ok page ∧ page.isEmpty = false) ∨
        (¬ plan.FindsBelow world.requests world.store.objects key ∧
          ((∃ page, reply = .ok page ∧ page.isEmpty = true) ∨ ∃ fault, reply = .error fault))) := by
  have htoken : itemsAfter? ((none : Option (List Char)).bind sent?)
      (items world.store.objects (childPrefix key) (delimiterOf false)) =
        some (items world.store.objects (childPrefix key) (delimiterOf false)) := rfl
  refine (returns_list hr hbucket (childPrefix key) false 1 htoken).mono ?_
  rintro reply after ⟨hstore, hrequests, hreply⟩
  refine ⟨hstore, hrequests, ?_⟩
  cases reply with
  | error fault => exact Or.inr ⟨fun h => hreply h.1, Or.inr ⟨fault, rfl⟩⟩
  | ok page =>
    obtain ⟨hpass, rfl⟩ := hreply
    by_cases hnil : items world.store.objects (childPrefix key) (delimiterOf false) = []
    · refine Or.inr ⟨fun h => items_ne_nil_iff.mpr h.2 hnil, Or.inl ⟨_, rfl, ?_⟩⟩
      rw [isEmpty_pageOfItems, hnil]
      rfl
    · refine Or.inl ⟨⟨hpass, items_ne_nil_iff.mp hnil⟩, _, rfl, ?_⟩
      rw [isEmpty_pageOfItems]
      simp [hnil]

/-- A body is read exactly if the request passes and its object is stored. -/
theorem returns_read (key : Key) :
    (bucket.read key).Returns plan world fun reply after =>
      after.store = world.store ∧
      ((plan.Passes world.requests (.get key) ∧
          ∃ o, world.store.objects[key]? = some o ∧ reply = .ok o.body) ∨
        (¬ (plan.Passes world.requests (.get key) ∧ key ∈ world.store.objects) ∧
          ∃ fault, reply = .error fault)) := by
  refine (returns_send hr hbucket (.get key)).mono fun reply after hreply => ?_
  obtain ⟨-, ⟨hpass, rfl, hstore⟩ | ⟨hpass, hfault, hstore⟩⟩ := hreply
  · rcases ho : world.store.objects[key]? with _ | o
    · have hperform : world.store.perform (.get key) = (.error .missingKey, world.store) := by
        simp only [Store.perform, ho]
      rw [hperform] at hstore ⊢
      exact ⟨hstore, Or.inr ⟨fun h => Objects.notMem_iff.mpr ho h.2, _, rfl⟩⟩
    · have hperform : world.store.perform (.get key) = (.ok o.body, world.store) := by
        simp only [Store.perform, ho]
      rw [hperform] at hstore ⊢
      exact ⟨hstore, Or.inl ⟨hpass, o, rfl, rfl⟩⟩
  · exact ⟨hstore, Or.inr ⟨fun h => hpass h.1, hfault⟩⟩

/-- Storing an object succeeds exactly if the request passes. -/
theorem returns_write (key : Key) (body : Bytes) (declaredLength : Int) :
    (bucket.write key body (some declaredLength)).Returns plan world fun reply after =>
      after.requests = .put key body declaredLength :: world.requests ∧
      ((plan.Passes world.requests (.put key body declaredLength) ∧ reply = .ok () ∧
          after.store = world.store.put key body) ∨
        (¬ plan.Passes world.requests (.put key body declaredLength) ∧
          (∃ fault, reply = .error fault) ∧ after.store = world.store)) :=
  returns_send hr hbucket (.put key body declaredLength)

/-- Removing an object succeeds exactly if the request passes. -/
theorem returns_delete (key : Key) :
    (bucket.delete key).Returns plan world fun reply after =>
      after.requests = .delete key :: world.requests ∧
      ((plan.Passes world.requests (.delete key) ∧ reply = .ok () ∧
          after.store = world.store.remove key) ∨
        (¬ plan.Passes world.requests (.delete key) ∧
          (∃ fault, reply = .error fault) ∧ after.store = world.store)) :=
  returns_send hr hbucket (.delete key)

/-- A copy succeeds exactly if the request passes and its source is stored. -/
theorem returns_copy (source target : Key) :
    (bucket.copy source target).Returns plan world fun reply after =>
      after.requests = .copy source target :: world.requests ∧
      ((plan.Passes world.requests (.copy source target) ∧ reply = .ok () ∧
          ∃ o, world.store.objects[source]? = some o ∧
            after.store = world.store.put target o.body) ∨
        (¬ (plan.Passes world.requests (.copy source target) ∧ source ∈ world.store.objects) ∧
          (∃ fault, reply = .error fault) ∧ after.store = world.store)) := by
  refine (returns_send hr hbucket (.copy source target)).mono fun reply after hreply => ?_
  obtain ⟨hrequests, ⟨hpass, rfl, hstore⟩ | ⟨hpass, hfault, hstore⟩⟩ := hreply
  · refine ⟨hrequests, ?_⟩
    rcases ho : world.store.objects[source]? with _ | o
    · have hperform : world.store.perform (.copy source target) =
          (.error .missingKey, world.store) := by
        simp only [Store.perform, ho]
      rw [hperform] at hstore ⊢
      exact Or.inr ⟨fun h => Objects.notMem_iff.mpr ho h.2, ⟨_, rfl⟩, hstore⟩
    · have hperform : world.store.perform (.copy source target) =
          (.ok (), world.store.put target o.body) := by
        simp only [Store.perform, ho]
      rw [hperform] at hstore ⊢
      exact Or.inl ⟨hpass, rfl, o, rfl, hstore⟩
  · exact ⟨hrequests, Or.inr ⟨fun h => hpass h.1, hfault, hstore⟩⟩

end Bucket

end KeyTree
