import KeyTree.Store.Listing

/-!
# The store

A store holds one bucket and a clock. The clock advances by a fixed step whenever something is
stored, and the stored object carries the new time.

## Main definitions

* `Store`, `Store.put`, `Store.remove` — the state and its changes.
* `Store.perform` — carrying a request out.
-/

namespace KeyTree

/-- A store with one bucket. -/
structure Store where
  bucket : List Char
  objects : Objects
  clock : Instant
  /-- How far the clock advances before something is stored. -/
  tick : Int
deriving DecidableEq

namespace Store

/-- The store after an object has been stored, with the advanced time. -/
def put (store : Store) (key : Key) (body : Bytes) : Store :=
  let now := store.clock + store.tick
  { store with clock := now, objects := store.objects.insert key ⟨body, now⟩ }

/-- The store without an object. -/
def remove (store : Store) (key : Key) : Store :=
  { store with objects := store.objects.erase key }

@[simp]
theorem objects_put (store : Store) (key : Key) (body : Bytes) :
    (store.put key body).objects =
      store.objects.insert key ⟨body, store.clock + store.tick⟩ := rfl

@[simp]
theorem objects_remove (store : Store) (key : Key) :
    (store.remove key).objects = store.objects.erase key := rfl

/-- Carries a request out. Only writes that succeed change the store. -/
def perform (store : Store) : (request : Request) → Except StoreError request.Reply × Store
  | .head key =>
    match store.objects[key]? with
    | some object => (.ok ⟨object.body.length, .known object.modified⟩, store)
    | none => (.error .missingHead, store)
  | .get key =>
    match store.objects[key]? with
    | some object => (.ok object.body, store)
    | none => (.error .missingKey, store)
  | .put key body _ => (.ok (), store.put key body)
  | .upload key body => (.ok (), store.put key body)
  | .delete key => (.ok (), store.remove key)
  | .copy source target =>
    match store.objects[source]? with
    | some object => (.ok (), store.put target object.body)
    | none => (.error .missingKey, store)
  | .list query => (Listing.pageOf store.objects query, store)

/-- Requests that do not write leave the store alone. -/
theorem perform_snd_of_not_writes (store : Store) {request : Request}
    (h : request.writes = false) : (store.perform request).2 = store := by
  cases request with
  | head key | get key => simp only [perform]; split <;> rfl
  | list query => rfl
  | _ => simp [Request.writes] at h

/-- The bucket and the step of the clock never change. -/
theorem perform_snd_bucket (store : Store) (request : Request) :
    (store.perform request).2.bucket = store.bucket ∧
      (store.perform request).2.tick = store.tick := by
  cases request with
  | head key | get key => simp only [perform]; split <;> exact ⟨rfl, rfl⟩
  | copy source target => simp only [perform]; split <;> exact ⟨rfl, rfl⟩
  | _ => exact ⟨rfl, rfl⟩

end Store

end KeyTree
