import KeyTree.Cursor
import KeyTree.Proofs.Computation
import KeyTree.Proofs.Listing.Items

/-!
# Going through the pages of a listing

A listing is handed out in pages, consecutive blocks of its names. A token says after which name the
next page starts, so a cursor that holds a page waits for the names after it, and the pages that it
delivers are an initial part of the pages of the listing. The listing is complete exactly when the
last page delivered is not truncated.

## Main definitions

* `Listing.pages` — the pages of a listing.
* `Cursor.Asks` — the items that a cursor goes on with.
* `Cursor.Awaits` — the items that a cursor has still to deliver while the contents do not change.
* `Cursor.Drains` — how going through the pages of a listing ends.

## Main results

* `Bucket.returns_list` — what a request for a page returns.
* `Cursor.returns_next` — what moving a cursor returns.
* `Cursor.returns_drain` — what all pages of a cursor are.
-/

namespace KeyTree

namespace Listing

/-- The object that an item shows. -/
def Item.summary? : Item → Option Summary
  | .object key o => some ⟨key, o.body.length, some o.modified⟩
  | .group _ => none

/-- The group that an item shows. -/
def Item.group? : Item → Option Key
  | .object .. => none
  | .group name => some name

/-- A page that shows some items while others remain. -/
def pageOfItems (shown remaining : List Item) : Page where
  objects := shown.filterMap Item.summary?
  groups := shown.filterMap Item.group?
  truncated := !shown.isEmpty && !remaining.isEmpty
  token := if remaining.isEmpty then none else shown.getLast?.map fun item => tokenAfter item.name

theorem truncated_pageOfItems_iff {shown remaining : List Item} :
    (pageOfItems shown remaining).truncated = true ↔ shown ≠ [] ∧ remaining ≠ [] := by
  simp [pageOfItems]

/-- The token of a page with items behind it names the last item of the page. -/
theorem token_pageOfItems {shown remaining : List Item} {last : Item} (hmore : remaining ≠ [])
    (hlast : shown.getLast? = some last) :
    (pageOfItems shown remaining).token = some (tokenAfter last.name) := by
  simp [pageOfItems, hmore, hlast]

/-- The pages of a listing: blocks of a given size, and one page at least. -/
def pages (size : Nat) (items : List Item) : List Page :=
  pageOfItems (items.take size) (items.drop size) ::
    if 0 < size ∧ items.drop size ≠ [] then pages size (items.drop size) else []
termination_by items.length
decreasing_by
  rename_i h
  have : size < items.length := by simpa using h.2
  simp only [List.length_drop]
  omega

theorem pages_ne_nil (size : Nat) (items : List Item) : pages size items ≠ [] := by
  rw [pages]
  simp

theorem pages_of_drop_eq_nil {size : Nat} {items : List Item} (h : items.drop size = []) :
    pages size items = [pageOfItems (items.take size) (items.drop size)] := by
  rw [pages, if_neg (by simp [h])]

theorem pages_of_drop_ne_nil {size : Nat} {items : List Item} (hsize : 0 < size)
    (h : items.drop size ≠ []) :
    pages size items =
      pageOfItems (items.take size) (items.drop size) :: pages size (items.drop size) := by
  rw [pages, if_pos ⟨hsize, h⟩]

theorem take_ne_nil {size : Nat} (hsize : 0 < size) {items : List Item}
    (h : items.drop size ≠ []) : items.take size ≠ [] := by
  intro hnil
  rcases List.take_eq_nil_iff.mp hnil with hzero | hnil
  · omega
  · exact h (by rw [hnil, List.drop_nil])

/-- The pages of a listing show the objects of all its items, in order. -/
theorem flatMap_objects_pages {size : Nat} (hsize : 0 < size) (items : List Item) :
    (pages size items).flatMap Page.objects = items.filterMap Item.summary? := by
  by_cases hlast : items.drop size = []
  · rw [pages_of_drop_eq_nil hlast, List.flatMap_cons, List.flatMap_nil, List.append_nil,
      pageOfItems, List.take_of_length_le (List.drop_eq_nil_iff.mp hlast)]
  · have hshorter : size < items.length := by simpa using hlast
    have ih := flatMap_objects_pages hsize (items.drop size)
    rw [pages_of_drop_ne_nil hsize hlast, List.flatMap_cons, ih, pageOfItems,
      ← List.filterMap_append, List.take_append_drop]
termination_by items.length

/-- A map that never fails on a list succeeds on it. -/
private theorem mapM_eq_ok {α β : Type} {f : α → Except Error β} {g : α → β} (l : List α)
    (h : ∀ a ∈ l, f a = .ok (g a)) : l.mapM f = .ok (l.map g) := by
  induction l with
  | nil => rfl
  | cons a l ih =>
    rw [List.mapM_cons, h a (by simp), ih fun b hb => h b (by simp [hb])]
    rfl

/-- The replies of the store can be read as pages. -/
theorem ofReply_replyOf (shown remaining : List Item) :
    Page.ofReply (replyOf shown remaining) = .ok (pageOfItems shown remaining) := by
  rw [Page.ofReply,
    mapM_eq_ok (g := fun object => ⟨object.key.getD [], object.size, object.modified⟩)
      (replyOf shown remaining).objects, mapM_eq_ok (g := fun group => group.getD [])
      (replyOf shown remaining).groups]
  · simp only [replyOf, List.map_filterMap]
    refine congrArg Except.ok ?_
    rw [pageOfItems]
    congr 1
    · exact congrArg (List.filterMap · shown) (funext fun item => by cases item <;> rfl)
    · exact congrArg (List.filterMap · shown) (funext fun item => by cases item <;> rfl)
  · simp only [replyOf, List.mem_filterMap]
    rintro group ⟨⟨key, o⟩ | name, -, hgroup⟩
    · simp at hgroup
    · obtain rfl := Option.some.inj hgroup
      rfl
  · simp only [replyOf, List.mem_filterMap]
    rintro object ⟨⟨key, o⟩ | _, -, hobject⟩
    · obtain rfl := Option.some.inj hobject
      rfl
    · simp at hobject

/-- The token after a name asks for the items of greater names. -/
theorem itemsAfter?_tokenAfter (name : Key) (items : List Item) :
    itemsAfter? (some (tokenAfter name)) items =
      some (items.filter fun item => name < item.name) := by
  simp [itemsAfter?, tokenAfter]

/-- The items after the last one of a block are those behind it. -/
theorem filter_after_last {front back : List Item} {last : Item}
    (hsorted : (front ++ back).Pairwise fun a b => a.name < b.name)
    (hlast : front.getLast? = some last) :
    (front ++ back).filter (fun item => last.name < item.name) = back := by
  obtain ⟨init, rfl⟩ := List.getLast?_eq_some_iff.mp hlast
  obtain ⟨hfront, -, hcross⟩ := List.pairwise_append.mp hsorted
  have hdropped : (init ++ [last]).filter (fun item => last.name < item.name) = [] := by
    rw [List.filter_eq_nil_iff]
    intro item hitem
    rw [decide_eq_true_iff]
    rcases List.mem_append.mp hitem with hitem | hitem
    · exact List.lt_asymm ((List.pairwise_append.mp hfront).2.2 item hitem last (by simp))
    · rw [List.mem_singleton.mp hitem]
      exact List.lt_irrefl _
  have hkept : back.filter (fun item => last.name < item.name) = back := by
    rw [List.filter_eq_self]
    intro item hitem
    rw [decide_eq_true_iff]
    exact hcross last (by simp) item hitem
  rw [List.filter_append, hdropped, hkept, List.nil_append]

end Listing

open Listing

/-! ### Requests for pages -/

theorem getD_sent? (text : List Char) : (Bucket.sent? text).getD [] = text := by
  rw [Bucket.sent?]
  split <;> simp_all

/-- The tokens of the store are sent. -/
theorem sent?_tokenAfter (name : Key) :
    Bucket.sent? (tokenAfter name) = some (tokenAfter name) := by
  simp [Bucket.sent?, tokenAfter, tokenMark]

/-- The request for a page of the subtree under a text, or of one level of it. -/
def Listing.request (under : Key) (recursive : Bool) (size : Int) (token : Option (List Char)) :
    Request :=
  .list ⟨Bucket.sent? under, delimiterOf recursive, size, token.bind Bucket.sent?⟩

/-- A request for a page returns the block of items after its token, unless it is refused. -/
theorem Bucket.returns_list {plan : Plan} (hr : plan.Refuses) {bucket : Bucket} {world : World}
    (hbucket : bucket.name = world.store.bucket) (under : Key) (recursive : Bool) (size : Int)
    {token : Option (List Char)} {rest : List Item}
    (htoken : itemsAfter? (token.bind sent?)
      (items world.store.objects under (delimiterOf recursive)) = some rest) :
    (bucket.list under (if recursive then [] else [separator]) size token).Returns plan world
      fun reply after => after.store = world.store ∧
        after.requests = Listing.request under recursive size token :: world.requests ∧
        match reply with
        | .ok page => plan.Passes world.requests (Listing.request under recursive size token) ∧
            page = pageOfItems (rest.take size.toNat) (rest.drop size.toNat)
        | .error _ =>
          ¬ plan.Passes world.requests (Listing.request under recursive size token) := by
  have hdelimiter : sent? (if recursive then [] else [separator]) = delimiterOf recursive := by
    cases recursive <;> rfl
  have hpage : (world.store.perform (Listing.request under recursive size token)) =
      (.ok (replyOf (rest.take size.toNat) (rest.drop size.toNat)), world.store) := by
    have : pageOf world.store.objects
        ⟨sent? under, delimiterOf recursive, size, token.bind sent?⟩ =
        .ok (replyOf (rest.take size.toNat) (rest.drop size.toNat)) := by
      rw [items] at htoken
      simp only [pageOf, getD_sent?, htoken]
    exact congrArg (fun reply => (reply, world.store)) this
  rw [Bucket.list, hdelimiter]
  refine (returns_send hr hbucket (Listing.request under recursive size token)).bind
    fun reply between hreply => ?_
  obtain ⟨hrequests, ⟨hpass, rfl, hstore⟩ | ⟨hpass, ⟨fault, rfl⟩, hstore⟩⟩ := hreply
  · rw [hpage] at hstore ⊢
    simp only [Except.mapError, ofReply_replyOf]
    refine StoreM.returns_log_bind fun after hafter hrequests' => ?_
    exact StoreM.returns_pure_iff.mpr ⟨hafter.trans hstore, hrequests'.trans hrequests, hpass, rfl⟩
  · exact StoreM.returns_pure_iff.mpr ⟨hstore, hrequests, hpass⟩

/-! ### Cursors -/

namespace Cursor

/-- A cursor that has not ended *asks* for the items of some contents that its token says to go on
with. -/
structure Asks (objects : Objects) (recursive : Bool) (cursor : Cursor) (rest : List Item) :
    Prop where
  goes_on : (cursor.done || (cursor.page.isSome && !cursor.truncated)) = false
  delimiter_eq : cursor.delimiter = if recursive then [] else [separator]
  itemsAfter?_eq : itemsAfter? ((cursor.page.bind Page.token).bind Bucket.sent?)
    (items objects cursor.under (delimiterOf recursive)) = some rest

/-- The request that moves a cursor. -/
def nextRequest (cursor : Cursor) (recursive : Bool) : Request :=
  Listing.request cursor.under recursive cursor.pageSize (cursor.page.bind Page.token)

/-- The page that a cursor gets from the items that it asks for. -/
def nextPage (cursor : Cursor) (rest : List Item) : Page :=
  pageOfItems (rest.take cursor.pageSize.toNat) (rest.drop cursor.pageSize.toNat)

variable {objects : Objects} {recursive : Bool} {cursor : Cursor} {rest : List Item}

/-- Moving a cursor sends one request. It delivers the block of items at the front of what the
cursor asks for, or the request fails and the cursor ends. -/
theorem returns_next {plan : Plan} (hr : plan.Refuses) {world : World}
    (hbucket : cursor.bucket.name = world.store.bucket)
    (h : cursor.Asks world.store.objects recursive rest) :
    cursor.next.Returns plan world fun reply after =>
      after.store = world.store ∧
      after.requests = cursor.nextRequest recursive :: world.requests ∧
      ((plan.Passes world.requests (cursor.nextRequest recursive) ∧
          reply = (some (cursor.nextPage rest), { cursor with page := some (cursor.nextPage rest) })) ∨
        (¬ plan.Passes world.requests (cursor.nextRequest recursive) ∧
          reply = (none, { cursor with done := true }))) := by
  rw [next, if_neg (by simp [h.goes_on])]
  dsimp only
  rw [h.delimiter_eq]
  refine (Bucket.returns_list hr hbucket cursor.under recursive cursor.pageSize
    h.itemsAfter?_eq).bind fun reply between hreply => ?_
  obtain ⟨hstore, hrequests, hreply⟩ := hreply
  cases reply with
  | ok page =>
    obtain ⟨hpass, rfl⟩ := hreply
    exact StoreM.returns_pure_iff.mpr ⟨hstore, hrequests, Or.inl ⟨hpass, rfl⟩⟩
  | error fault =>
    refine StoreM.returns_log_bind fun after hafter hrequests' => ?_
    exact StoreM.returns_pure_iff.mpr
      ⟨hafter.trans hstore, hrequests'.trans hrequests, Or.inr ⟨hreply, rfl⟩⟩

/-- Moving a cursor that has ended does nothing. -/
theorem next_of_done (h : cursor.done = true) : cursor.next = pure (none, cursor) := by
  obtain ⟨bucket, under, delimiter, pageSize, page, done⟩ := cursor
  obtain rfl : done = true := h
  rfl

/-- Moving a cursor that has come to its last page ends it. -/
theorem next_of_not_truncated {page : Page} (hpage : cursor.page = some page)
    (htruncated : page.truncated = false) :
    cursor.next = pure (none, { cursor with done := true }) := by
  simp [next, hpage, truncated, htruncated]

/-! ### Listings of contents that do not change -/

/-- A cursor over a listing of some contents *awaits* the items that it has not delivered yet. -/
structure Awaits (objects : Objects) (recursive : Bool) (cursor : Cursor) (rest : List Item) :
    Prop where
  not_done : cursor.done = false
  delimiter_eq : cursor.delimiter = if recursive then [] else [separator]
  pageSize_pos : 0 < cursor.pageSize
  /-- What has been delivered ends with the name in the token of the page that the cursor holds. -/
  position : ∃ delivered,
    items objects cursor.under (delimiterOf recursive) = delivered ++ rest ∧
    ((cursor.page = none ∧ delivered = []) ∨
      ∃ page last, cursor.page = some page ∧ page.truncated = true ∧
        page.token = some (tokenAfter last.name) ∧ delivered.getLast? = some last)

theorem awaits_new (objects : Objects) (bucket : Bucket) (under : Key) (recursive : Bool)
    {pageSize : Int} (h : 0 < pageSize) :
    (new bucket under recursive pageSize).Awaits objects recursive
      (items objects under (delimiterOf recursive)) :=
  ⟨rfl, rfl, h, [], rfl, Or.inl ⟨rfl, rfl⟩⟩

theorem Awaits.pageSize_toNat_pos (h : cursor.Awaits objects recursive rest) :
    0 < cursor.pageSize.toNat := by
  have := h.pageSize_pos
  omega

/-- A cursor asks for the items that it awaits. -/
theorem Awaits.asks (h : cursor.Awaits objects recursive rest) :
    cursor.Asks objects recursive rest := by
  obtain ⟨delivered, hitems, ⟨hpage, rfl⟩ | ⟨page, last, hpage, htruncated, htoken, hlast⟩⟩ :=
    h.position
  · refine ⟨by simp [h.not_done, hpage], h.delimiter_eq, ?_⟩
    simp [hpage, Listing.itemsAfter?, hitems]
  · refine ⟨by simp [h.not_done, hpage, truncated, htruncated], h.delimiter_eq, ?_⟩
    have hsorted := items_sorted objects cursor.under recursive
    rw [hitems] at hsorted ⊢
    rw [hpage, Option.bind_some, htoken, Option.bind_some, sent?_tokenAfter, itemsAfter?_tokenAfter,
      filter_after_last hsorted hlast]

/-- After a page with items behind it a cursor awaits those. -/
theorem Awaits.step (h : cursor.Awaits objects recursive rest)
    (hmore : rest.drop cursor.pageSize.toNat ≠ []) :
    ({ cursor with page := some (cursor.nextPage rest) } : Cursor).Awaits objects recursive
      (rest.drop cursor.pageSize.toNat) := by
  have hshown := take_ne_nil h.pageSize_toNat_pos hmore
  obtain ⟨last, hlast⟩ : ∃ last, (rest.take cursor.pageSize.toNat).getLast? = some last :=
    ⟨_, List.getLast?_eq_some_getLast hshown⟩
  obtain ⟨delivered, hitems, -⟩ := h.position
  refine ⟨h.not_done, h.delimiter_eq, h.pageSize_pos,
    delivered ++ rest.take cursor.pageSize.toNat, ?_, Or.inr ⟨_, last, rfl, ?_, ?_, ?_⟩⟩
  · rw [List.append_assoc, List.take_append_drop]
    exact hitems
  · exact truncated_pageOfItems_iff.mpr ⟨hshown, hmore⟩
  · exact token_pageOfItems hmore hlast
  · rw [List.getLast?_append, hlast, Option.some_or]

/-- A cursor that has come to its last page delivers nothing more. -/
theorem drainWithin_of_not_truncated {page : Page} (moves : Nat) (hpage : cursor.page = some page)
    (htruncated : page.truncated = false) :
    drainWithin (moves + 1) cursor = pure ([], { cursor with done := true }) := by
  rw [drainWithin, next_of_not_truncated hpage htruncated]
  rfl

/-- How a cursor that holds a page or none goes through the pages that are expected, between two
points of the journal: all of them are delivered, or an initial part up to a request that fails. -/
structure Drains (plan : Plan) (held : Option Page) (expected : List Page)
    (before after : List Request) (delivered : List Page) (ended : Cursor) : Prop where
  requests : before <:+ after
  done : ended.done = true
  initial : delivered <+: expected
  truncated_iff : held ≠ none ∨ delivered ≠ [] →
    (ended.truncated = false ↔ delivered = expected)
  complete_or_fails :
    (delivered = expected ∧ ∀ request, ¬ plan.Fails before after request) ∨
      (delivered ≠ expected ∧ ∃ query, plan.Fails before after (.list query))

variable {plan : Plan} {before between after : List Request}

/-- The last page is delivered, and the cursor has ended. -/
theorem Awaits.drains_last (hmore : rest.drop cursor.pageSize.toNat = [])
    (hpass : plan.Passes before (cursor.nextRequest recursive)) :
    Drains plan cursor.page (Listing.pages cursor.pageSize.toNat rest) before
      (cursor.nextRequest recursive :: before) [cursor.nextPage rest]
      { cursor with page := some (cursor.nextPage rest), done := true } := by
  have htruncated : (cursor.nextPage rest).truncated = false := by
    simp [nextPage, pageOfItems, hmore]
  have hpages : [cursor.nextPage rest] = Listing.pages cursor.pageSize.toNat rest :=
    (pages_of_drop_eq_nil hmore).symm
  refine ⟨List.suffix_cons .., rfl, by rw [hpages], fun _ => ?_, Or.inl ⟨hpages, ?_⟩⟩
  · exact iff_of_true (by simp [truncated, htruncated]) hpages
  · exact fun request hfails => (Plan.fails_cons_iff.mp hfails).2 hpass

/-- A page is delivered, and the pages after it are gone through. -/
theorem Awaits.drains_cons (h : cursor.Awaits objects recursive rest)
    (hmore : rest.drop cursor.pageSize.toNat ≠ [])
    (hpass : plan.Passes before (cursor.nextRequest recursive)) {delivered : List Page}
    {ended : Cursor}
    (hdrains : Drains plan (some (cursor.nextPage rest))
      (Listing.pages cursor.pageSize.toNat (rest.drop cursor.pageSize.toNat))
      (cursor.nextRequest recursive :: before) after delivered ended) :
    Drains plan cursor.page (Listing.pages cursor.pageSize.toNat rest) before after
      (cursor.nextPage rest :: delivered) ended := by
  have hpages : Listing.pages cursor.pageSize.toNat rest = cursor.nextPage rest ::
      Listing.pages cursor.pageSize.toNat (rest.drop cursor.pageSize.toNat) :=
    pages_of_drop_ne_nil h.pageSize_toNat_pos hmore
  have hfails : ∀ request, plan.Fails before after request ↔
      plan.Fails (cursor.nextRequest recursive :: before) after request := fun _ =>
    Plan.fails_iff_of_passed (List.suffix_cons _ before)
      (fun _ h => (Plan.fails_cons_iff.mp h).2 hpass) hdrains.requests
  refine ⟨(List.suffix_cons ..).trans hdrains.requests, hdrains.done, ?_, fun _ => ?_, ?_⟩
  · rw [hpages]
    exact (List.prefix_cons_inj _).mpr hdrains.initial
  · rw [hpages, hdrains.truncated_iff (Or.inl (by simp)), List.cons.injEq, eq_self_iff_true,
      true_and]
  · simp only [hpages, hfails, List.cons.injEq, true_and, ne_eq]
    exact hdrains.complete_or_fails

/-- The request for a page fails, and the cursor has ended. -/
theorem Awaits.drains_nil (h : cursor.Awaits objects recursive rest)
    (hpass : ¬ plan.Passes before (cursor.nextRequest recursive)) :
    Drains plan cursor.page (Listing.pages cursor.pageSize.toNat rest) before
      (cursor.nextRequest recursive :: before) [] { cursor with done := true } := by
  have hne : [] ≠ Listing.pages cursor.pageSize.toNat rest := (pages_ne_nil _ _).symm
  obtain ⟨query, hquery⟩ : ∃ query, cursor.nextRequest recursive = .list query := ⟨_, rfl⟩
  refine ⟨List.suffix_cons .., rfl, List.nil_prefix, fun hpage => ?_, Or.inr ⟨hne, query, ?_⟩⟩
  · obtain ⟨delivered, -, ⟨hnone, -⟩ | ⟨page, last, hsome, htruncated, -⟩⟩ := h.position
    · simp [hnone] at hpage
    · exact iff_of_false (by simp [truncated, hsome, htruncated]) hne
  · exact Plan.fails_cons_iff.mpr ⟨hquery.symm, hpass⟩

/-- Under a plan that refuses, the pages that a cursor awaits are gone through up to a request that
fails. -/
theorem returns_drainWithin (hr : plan.Refuses) (moves : Nat) (cursor : Cursor)
    (rest : List Item) (world : World) (hbucket : cursor.bucket.name = world.store.bucket)
    (h : cursor.Awaits world.store.objects recursive rest) (hmoves : rest.length + 2 ≤ moves) :
    (drainWithin moves cursor).Returns plan world fun reply after =>
      after.store = world.store ∧
      Drains plan cursor.page (Listing.pages cursor.pageSize.toNat rest) world.requests
        after.requests reply.1 reply.2 := by
  induction moves generalizing cursor rest world with
  | zero => omega
  | succ moves ih =>
    rw [drainWithin]
    refine (returns_next hr hbucket h.asks).bind fun reply between hreply => ?_
    obtain ⟨hstore, hrequests, ⟨hpass, rfl⟩ | ⟨hpass, rfl⟩⟩ := hreply
    · by_cases hmore : rest.drop cursor.pageSize.toNat = []
      · -- the page was the last one, and the next move ends the cursor
        obtain ⟨moves, rfl⟩ : ∃ more, moves = more + 1 := ⟨moves - 1, by omega⟩
        have htruncated : (cursor.nextPage rest).truncated = false := by
          simp [nextPage, pageOfItems, hmore]
        dsimp only
        rw [drainWithin_of_not_truncated moves rfl htruncated]
        refine StoreM.returns_pure_iff.mpr ⟨hstore, ?_⟩
        rw [hrequests]
        exact Awaits.drains_last hmore hpass
      · have hpos := h.pageSize_toNat_pos
        have hlen : (rest.drop cursor.pageSize.toNat).length + 2 ≤ moves := by
          have : rest.length ≠ 0 :=
            fun hzero => hmore (by simp [List.length_eq_zero_iff.mp hzero])
          rw [List.length_drop]
          omega
        have hnext := h.step hmore
        rw [← hstore] at hbucket hnext
        refine (ih _ _ between (by exact hbucket) hnext hlen).bind ?_
        rintro ⟨pages, ended⟩ after ⟨hstore', hdrains⟩
        rw [hrequests] at hdrains
        exact StoreM.returns_pure_iff.mpr
          ⟨hstore'.trans hstore, h.drains_cons hmore hpass hdrains⟩
    · refine StoreM.returns_pure_iff.mpr ⟨hstore, ?_⟩
      rw [hrequests]
      exact h.drains_nil hpass

/-- Under a plan that refuses, the pages of a listing are gone through up to a request that
fails. -/
theorem returns_drain (hr : plan.Refuses) {world : World} {bucket : Bucket}
    (hbucket : bucket.name = world.store.bucket) (under : Key) (recursive : Bool) {size : Nat}
    (hsize : 0 < size) :
    (new bucket under recursive size).drain.Returns plan world fun reply after =>
      after.store = world.store ∧
      Drains plan none
        (Listing.pages size (items world.store.objects under (delimiterOf recursive)))
        world.requests after.requests reply.1 reply.2 := by
  have hbound : (items world.store.objects under (delimiterOf recursive)).length + 2 ≤
      (plan.patience + 1) * (world.store.objects.size + plan.patience + 2) := by
    have hlen := length_items_le world.store.objects under (delimiterOf recursive)
    calc (items world.store.objects under (delimiterOf recursive)).length + 2
        ≤ world.store.objects.size + plan.patience + 2 := by omega
      _ ≤ (plan.patience + 1) * (world.store.objects.size + plan.patience + 2) :=
          Nat.le_mul_of_pos_left _ (Nat.succ_pos _)
  have hrun : (new bucket under recursive size).drain.exec plan world =
      (drainWithin ((plan.patience + 1) * (world.store.objects.size + plan.patience + 2))
        (new bucket under recursive size)).exec plan world := rfl
  obtain ⟨reply, after, hexec, hpost⟩ :=
    returns_drainWithin hr _ (new bucket under recursive size) _ world hbucket
      (awaits_new world.store.objects bucket under recursive (by exact_mod_cast hsize)) hbound
  exact ⟨reply, after, hrun.trans hexec, hpost⟩

end Cursor

end KeyTree
