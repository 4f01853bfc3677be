import KeyTree.Bucket

/-!
# Cursors

A cursor goes through the pages of a listing, one request a page, and cannot go back. It holds no
page until it is first moved. It ends after a page that is not truncated, or when a request fails,
and the end is final. A cursor that has ended on a truncated page has stopped early.

## Main definitions

* `Cursor`, `Cursor.new` — the state of a listing.
* `Cursor.next` — the next page.
* `Cursor.drain` — all remaining pages.
-/

namespace KeyTree

/-- The state of a listing. -/
structure Cursor where
  bucket : Bucket
  under : Key
  delimiter : List Char
  pageSize : Int
  /-- The page that was fetched last. -/
  page : Option Page := none
  /-- Whether the listing has ended. -/
  done : Bool := false
deriving DecidableEq, Repr

namespace Cursor

/-- A listing of the whole subtree under a text, or of one level of it. -/
def new (bucket : Bucket) (under : Key) (recursive : Bool) (pageSize : Int) : Cursor :=
  { bucket, under, delimiter := if recursive then [] else [separator], pageSize }

/-- Whether the page that was fetched last says that there is more. -/
def truncated (cursor : Cursor) : Bool :=
  cursor.page.any Page.truncated

/-- Moves to the next page: whether there is one, and the cursor on it. The listing ends when there
is none or when the request fails. -/
def next (cursor : Cursor) : StoreM (Option Page × Cursor) := do
  if cursor.done || (cursor.page.isSome && !cursor.truncated) then
    return (none, { cursor with done := true })
  let token := cursor.page.bind Page.token
  match ← cursor.bucket.list cursor.under cursor.delimiter cursor.pageSize token with
  | .ok page => return (some page, { cursor with page := some page })
  | .error fault =>
    log .error "Failed to list path".toList
      [("prefix", .text cursor.under), ("error", .text fault.message)]
    return (none, { cursor with done := true })

/-- All remaining pages and the cursor at the end of them, within a number of moves. -/
def drainWithin : Nat → Cursor → StoreM (List Page × Cursor)
  | 0, _ => throw .endlessListing
  | moves + 1, cursor => do
    match ← cursor.next with
    | (none, cursor) => return ([], cursor)
    | (some page, cursor) =>
      let (pages, cursor) ← drainWithin moves cursor
      return (page :: pages, cursor)

/-- All remaining pages and the cursor at the end of them. -/
def drain (cursor : Cursor) : StoreM (List Page × Cursor) := do
  drainWithin (← StoreM.pageBound) cursor

end Cursor

end KeyTree
