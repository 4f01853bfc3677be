import KeyTree.Proofs.Listing.Names

/-!
# Listings of contents that change

Between two pages of a listing anyone may store, copy and remove objects. Each page starts after the
last name of the page before it and shows what the bucket holds when it is requested, so the names
ascend over all pages and none is reported twice. Objects that come and go behind the name that the
cursor has reached are missed, but a name that every page could have shown is reported.

## Main definitions

* `Fetch` — a page with the contents that it shows a part of.
* `Cursor.Interleaves` — the runs of a cursor among the requests of others.
* `Cursor.Beyond` — the names that a cursor has not come to.
* `Cursor.Reports` — what holds between two steps of a run.

## Main results

* `Cursor.beyond_nextPage_iff` — what is beyond a cursor after a move.
* `Cursor.Reports.returns_next` — what a move of the cursor preserves.
* `Cursor.interleaves_consistent` — the pages of a run fit together.
-/

namespace KeyTree

open Listing

/-- A page with the contents of the bucket when it was requested. -/
structure Fetch where
  objects : Objects
  page : Page

namespace Cursor

/-! ### Runs -/

/-- The runs of a cursor from a first world, in which anyone may send requests to the store between
its moves: the pages that it has fetched so far, the cursor, and the world. -/
inductive Interleaves (plan : Plan) (start : Cursor) (world : World) :
    List Fetch → Cursor → World → Prop
  | start : Interleaves plan start world [] start world
  /-- Someone sends a request. What appears in the journal is left open. -/
  | outside {fetches : List Fetch} {cursor : Cursor} {before : World} (request : Request)
      (journal : List Entry) (hrun : Interleaves plan start world fetches cursor before) :
      Interleaves plan start world fetches cursor ⟨(before.store.perform request).2, journal⟩
  /-- The cursor moves to a page. -/
  | page {fetches : List Fetch} {cursor moved : Cursor} {page : Page} {before after : World}
      (hrun : Interleaves plan start world fetches cursor before)
      (hnext : cursor.next.exec plan before = (.ok (some page, moved), after)) :
      Interleaves plan start world (fetches ++ [⟨before.store.objects, page⟩]) moved after
  /-- The cursor is moved and there is no page. -/
  | ended {fetches : List Fetch} {cursor moved : Cursor} {before after : World}
      (hrun : Interleaves plan start world fetches cursor before)
      (hnext : cursor.next.exec plan before = (.ok (none, moved), after)) :
      Interleaves plan start world fetches moved after

/-- A name is *beyond* a cursor that holds no page yet, or that has to go on after a smaller name. -/
def Beyond (cursor : Cursor) (name : Key) : Prop :=
  ∀ page, cursor.page = some page →
    page.truncated = true ∧ ∃ mark, page.token = some (tokenAfter mark) ∧ mark < name

/-! ### The names that a move reports -/

section Asked

variable {cursor : Cursor} {objects : Objects} {recursive : Bool} {rest : List Item} {name : Key}

/-- A cursor that goes on asks for the names that are beyond it. -/
theorem exists_asks (hdone : cursor.done = false)
    (hdelimiter : cursor.delimiter = if recursive then [] else [separator])
    (hpage : ∀ page, cursor.page = some page →
      page.truncated = true ∧ ∃ mark, page.token = some (tokenAfter mark)) (objects : Objects) :
    ∃ rest, cursor.Asks objects recursive rest ∧
      (rest.Pairwise fun a b => a.name < b.name) ∧
      ∀ name, name ∈ rest.map Item.name ↔
        Shows objects cursor.under recursive name ∧ cursor.Beyond name := by
  have hsorted := items_sorted objects cursor.under recursive
  cases hcursor : cursor.page with
  | none =>
    refine ⟨_, ⟨by simp [hdone, hcursor], hdelimiter, by simp [hcursor, itemsAfter?]⟩, hsorted,
      fun name => ?_⟩
    rw [← mem_names_iff, names, and_iff_left]
    simp [Beyond, hcursor]
  | some page =>
    obtain ⟨htruncated, mark, htoken⟩ := hpage page hcursor
    refine ⟨_, ⟨by simp [hdone, hcursor, truncated, htruncated], hdelimiter, ?_⟩,
      hsorted.filter fun item => mark < item.name, fun name => ?_⟩
    · rw [hcursor, Option.bind_some, htoken, Option.bind_some, sent?_tokenAfter,
        itemsAfter?_tokenAfter]
    · have hbeyond : cursor.Beyond name ↔ mark < name := by
        simp [Beyond, hcursor, htruncated, htoken, tokenAfter]
      rw [hbeyond, ← mem_names_iff, names, List.mem_map, List.mem_map]
      simp only [List.mem_filter, decide_eq_true_iff]
      constructor
      · rintro ⟨item, ⟨hitem, hmark⟩, rfl⟩
        exact ⟨⟨item, hitem, rfl⟩, hmark⟩
      · rintro ⟨⟨item, hitem, rfl⟩, hmark⟩
        exact ⟨item, ⟨hitem, hmark⟩, rfl⟩

variable (hsorted : rest.Pairwise fun a b => a.name < b.name)

include hsorted in
theorem names_nextPage :
    (cursor.nextPage rest).names = (rest.take cursor.pageSize.toNat).map Item.name :=
  names_pageOfItems _ (hsorted.sublist (rest.take_sublist _))

/-- A page that is not the last one names in its token the last of its items. -/
theorem token_nextPage (h : (cursor.nextPage rest).truncated = true) :
    ∃ last, (rest.take cursor.pageSize.toNat).getLast? = some last ∧
      (cursor.nextPage rest).token = some (tokenAfter last.name) := by
  obtain ⟨hshown, hmore⟩ := truncated_pageOfItems_iff.mp h
  have hlast := List.getLast?_eq_some_getLast hshown
  exact ⟨_, hlast, token_pageOfItems hmore hlast⟩

include hsorted in
/-- After a move the names beyond the cursor are those greater than all names on its page, if the
page is not the last one. -/
theorem beyond_nextPage_iff :
    ({ cursor with page := some (cursor.nextPage rest) } : Cursor).Beyond name ↔
      (cursor.nextPage rest).truncated = true ∧
        ∀ shown ∈ (cursor.nextPage rest).names, shown < name := by
  have hpage : ({ cursor with page := some (cursor.nextPage rest) } : Cursor).Beyond name ↔
      (cursor.nextPage rest).truncated = true ∧
        ∃ mark, (cursor.nextPage rest).token = some (tokenAfter mark) ∧ mark < name := by
    simp [Beyond]
  rw [hpage, names_nextPage hsorted]
  refine and_congr_right fun htruncated => ?_
  obtain ⟨last, hlast, htoken⟩ := token_nextPage htruncated
  obtain ⟨init, htake⟩ := List.getLast?_eq_some_iff.mp hlast
  have hfront := hsorted.sublist (rest.take_sublist cursor.pageSize.toNat)
  rw [htake] at hfront
  rw [htoken, htake, List.forall_mem_map]
  constructor
  · rintro ⟨mark, hmark, hname⟩ item hitem
    obtain rfl : last.name = mark := by simpa [tokenAfter] using hmark
    rcases List.mem_append.mp hitem with hitem | hitem
    · exact List.lt_trans ((List.pairwise_append.mp hfront).2.2 item hitem last (by simp)) hname
    · rwa [List.mem_singleton.mp hitem]
  · exact fun hbefore => ⟨_, rfl, hbefore last (by simp)⟩

include hsorted in
/-- A name that a cursor asks for is on its next page, or still beyond it then. -/
theorem mem_nextPage_or_beyond (hsize : 0 < cursor.pageSize.toNat)
    (h : name ∈ rest.map Item.name) :
    name ∈ (cursor.nextPage rest).names ∨
      ({ cursor with page := some (cursor.nextPage rest) } : Cursor).Beyond name := by
  obtain ⟨item, hitem, rfl⟩ := List.mem_map.mp h
  rw [beyond_nextPage_iff hsorted, names_nextPage hsorted, List.forall_mem_map]
  rw [← List.take_append_drop cursor.pageSize.toNat rest] at hitem hsorted
  rcases List.mem_append.mp hitem with hitem | hitem
  · exact Or.inl (List.mem_map_of_mem hitem)
  · have hmore := List.ne_nil_of_mem hitem
    refine Or.inr ⟨truncated_pageOfItems_iff.mpr ⟨take_ne_nil hsize hmore, hmore⟩, ?_⟩
    exact fun earlier hearlier => (List.pairwise_append.mp hsorted).2.2 earlier hearlier item hitem

end Asked

/-! ### What holds between two steps -/

/-- The names that fetched pages report, in the order of the reports. -/
def reported (fetches : List Fetch) : List Key :=
  fetches.flatMap fun fetch => fetch.page.names

/-- What holds between two steps of a run: the names reported so far ascend up to those beyond the
cursor, each page has shown what there was, and a name that no page could have missed is still
beyond the cursor if it has not been reported. -/
structure Reports (plan : Plan) (start : Cursor) (recursive : Bool) (fetches : List Fetch)
    (cursor : Cursor) : Prop where
  cursor_eq : cursor = { start with page := cursor.page, done := cursor.done }
  sorted : (reported fetches).Pairwise (· < ·)
  shown : ∀ fetch ∈ fetches, ∀ name ∈ fetch.page.names,
    Shows fetch.objects start.under recursive name
  ahead : ∀ name ∈ reported fetches, ∀ later, cursor.Beyond later → name < later
  complete : ∀ name, (∀ fetch ∈ fetches, Shows fetch.objects start.under recursive name) →
    name ∈ reported fetches ∨ cursor.Beyond name
  token : ∀ page, cursor.page = some page → page.truncated = true →
    ∃ mark, page.token = some (tokenAfter mark)
  page_ne_none : fetches ≠ [] ∨ (plan = .quiet ∧ cursor.done = true) → cursor.page ≠ none

variable {plan : Plan} {start cursor : Cursor} {recursive : Bool} {fetches : List Fetch}
  {world after : World}

theorem reports_start (hdone : start.done = false) (hpage : start.page = none) :
    Reports plan start recursive [] start where
  cursor_eq := rfl
  sorted := .nil
  shown := nofun
  ahead := nofun
  complete _ _ := Or.inr (by simp [Beyond, hpage])
  token page h := by simp [hpage] at h
  page_ne_none h := by simp [hdone] at h

/-- A page that the cursor moves to reports the first names beyond it, and leaves the others beyond
it. -/
theorem Reports.page (h : Reports plan start recursive fetches cursor)
    (hsize : 0 < start.pageSize.toNat) {objects : Objects} {rest : List Item}
    (hsorted : rest.Pairwise fun a b => a.name < b.name)
    (hrest : ∀ name, name ∈ rest.map Item.name ↔
      Shows objects start.under recursive name ∧ cursor.Beyond name) :
    Reports plan start recursive (fetches ++ [⟨objects, cursor.nextPage rest⟩])
      { cursor with page := some (cursor.nextPage rest) } := by
  have hreported : reported (fetches ++ [⟨objects, cursor.nextPage rest⟩]) =
      reported fetches ++ (cursor.nextPage rest).names := by
    simp [reported]
  have hasked : ∀ name ∈ (cursor.nextPage rest).names,
      Shows objects start.under recursive name ∧ cursor.Beyond name := by
    rw [names_nextPage hsorted, List.forall_mem_map]
    exact fun item hitem => (hrest _).mp (List.mem_map_of_mem (List.mem_of_mem_take hitem))
  refine ⟨?_, ?_, ?_, ?_, ?_, ?_, fun _ => by simp⟩
  · rw [h.cursor_eq]
  · rw [hreported, List.pairwise_append]
    refine ⟨h.sorted, ?_, fun name hname later hlater => h.ahead name hname _ (hasked _ hlater).2⟩
    rw [names_nextPage hsorted, List.pairwise_map]
    exact hsorted.sublist (rest.take_sublist _)
  · intro fetch hfetch name hname
    rcases List.mem_append.mp hfetch with hfetch | hfetch
    · exact h.shown fetch hfetch name hname
    · obtain rfl := List.mem_singleton.mp hfetch
      exact (hasked name hname).1
  · intro name hname later hlater
    obtain ⟨htruncated, hbefore⟩ := (beyond_nextPage_iff hsorted).mp hlater
    rw [hreported, List.mem_append] at hname
    rcases hname with hname | hname
    · -- the last name of the page lies between
      obtain ⟨last, hlast, -⟩ := token_nextPage htruncated
      have hmem : last.name ∈ (cursor.nextPage rest).names := by
        rw [names_nextPage hsorted]
        exact List.mem_map_of_mem (List.mem_of_getLast? hlast)
      exact List.lt_trans (h.ahead name hname _ (hasked _ hmem).2) (hbefore _ hmem)
    · exact hbefore name hname
  · intro name hpersists
    rw [hreported, List.mem_append, or_assoc]
    refine (h.complete name fun fetch hfetch => hpersists fetch (by simp [hfetch])).imp_right
      fun hbeyond => ?_
    refine mem_nextPage_or_beyond hsorted (by rwa [h.cursor_eq]) ((hrest name).mpr ⟨?_, hbeyond⟩)
    exact hpersists ⟨objects, cursor.nextPage rest⟩ (by simp)
  · rintro page hpage htruncated
    obtain rfl := Option.some.inj hpage
    obtain ⟨last, -, htoken⟩ := token_nextPage htruncated
    exact ⟨_, htoken⟩

/-- A cursor that ends reports nothing more. -/
theorem Reports.ended (h : Reports plan start recursive fetches cursor)
    (hpage : plan = .quiet → cursor.page ≠ none) :
    Reports plan start recursive fetches { cursor with done := true } where
  cursor_eq := by rw [h.cursor_eq]
  sorted := h.sorted
  shown := h.shown
  ahead := h.ahead
  complete := h.complete
  token := h.token
  page_ne_none hended := hended.elim (fun hne => h.page_ne_none (Or.inl hne)) fun hend =>
    hpage hend.1

/-- What one move of the cursor does to a run. -/
theorem Reports.returns_next (h : Reports plan start recursive fetches cursor)
    (hr : plan.Refuses) (hsize : 0 < start.pageSize.toNat)
    (hdelimiter : start.delimiter = if recursive then [] else [separator])
    (hbucket : start.bucket.name = world.store.bucket) :
    cursor.next.Returns plan world fun reply after =>
      after.store = world.store ∧
      match reply with
      | (some page, moved) =>
        Reports plan start recursive (fetches ++ [⟨world.store.objects, page⟩]) moved
      | (none, moved) => Reports plan start recursive fetches moved := by
  have hpos : cursor.bucket = start.bucket ∧ cursor.under = start.under ∧
      cursor.delimiter = start.delimiter := by
    rw [h.cursor_eq]
    exact ⟨rfl, rfl, rfl⟩
  by_cases hdone : cursor.done = true
  · rw [next_of_done hdone]
    exact StoreM.returns_pure_iff.mpr ⟨rfl, h⟩
  by_cases hlast : ∃ page, cursor.page = some page ∧ page.truncated = false
  · obtain ⟨page, hpage, htruncated⟩ := hlast
    rw [next_of_not_truncated hpage htruncated]
    exact StoreM.returns_pure_iff.mpr ⟨rfl, h.ended fun _ => by simp [hpage]⟩
  push Not at hlast
  obtain ⟨rest, hasks, hsorted, hrest⟩ := exists_asks (by simpa using hdone)
    (hpos.2.2.trans hdelimiter) (fun page hpage =>
      have htruncated := by simpa using hlast page hpage
      ⟨htruncated, h.token page hpage htruncated⟩) world.store.objects
  rw [hpos.2.1] at hrest
  refine (Cursor.returns_next hr (by rw [hpos.1, hbucket]) hasks).mono ?_
  rintro reply after ⟨hstore, -, ⟨-, rfl⟩ | ⟨hpass, rfl⟩⟩
  · exact ⟨hstore, h.page hsize hsorted hrest⟩
  · refine ⟨hstore, h.ended ?_⟩
    rintro rfl
    exact absurd (Plan.passes_quiet_iff.mpr rfl) hpass

/-- What holds after every run. -/
theorem Interleaves.reports (hr : plan.Refuses) (hsize : 0 < start.pageSize.toNat)
    (hdelimiter : start.delimiter = if recursive then [] else [separator])
    (hdone : start.done = false) (hpage : start.page = none)
    (hbucket : start.bucket.name = world.store.bucket)
    (hrun : Interleaves plan start world fetches cursor after) :
    after.store.bucket = world.store.bucket ∧ Reports plan start recursive fetches cursor := by
  induction hrun with
  | start => exact ⟨rfl, reports_start hdone hpage⟩
  | outside request journal _ ih =>
    exact ⟨(Store.perform_snd_bucket _ _).1.trans ih.1, ih.2⟩
  | page _ hnext ih =>
    obtain ⟨hsame, hreports⟩ := ih
    obtain ⟨_, heq, hstore, hmoved⟩ := (hreports.returns_next hr hsize hdelimiter
      (hbucket.trans hsame.symm)).of_exec hnext
    obtain rfl := Except.ok.inj heq
    exact ⟨by rw [hstore, hsame], hmoved⟩
  | ended _ hnext ih =>
    obtain ⟨hsame, hreports⟩ := ih
    obtain ⟨_, heq, hstore, hmoved⟩ := (hreports.returns_next hr hsize hdelimiter
      (hbucket.trans hsame.symm)).of_exec hnext
    obtain rfl := Except.ok.inj heq
    exact ⟨by rw [hstore, hsame], hmoved⟩

/-- Whatever happens to the bucket between its pages, a listing reports no name twice, its names
ascend from page to page, and each was there when its page was requested. A listing that comes to
its end reports every name that was there at each of its requests. -/
theorem interleaves_consistent (hr : plan.Refuses) {bucket : Bucket}
    (hbucket : bucket.name = world.store.bucket) {under : Key} {size : Nat} (hsize : 0 < size)
    (hrun : Interleaves plan (new bucket under recursive size) world fetches cursor after) :
    (fetches.flatMap fun fetch => fetch.page.names).Nodup ∧
      fetches.Pairwise (fun earlier later =>
        ∀ name ∈ earlier.page.names, ∀ name' ∈ later.page.names, name < name') ∧
      (∀ fetch ∈ fetches, ∀ name ∈ fetch.page.names, Shows fetch.objects under recursive name) ∧
      (cursor.truncated = false → fetches ≠ [] ∨ (plan = .quiet ∧ cursor.done = true) →
        ∀ name, (∀ fetch ∈ fetches, Shows fetch.objects under recursive name) →
          ∃ fetch ∈ fetches, name ∈ fetch.page.names) := by
  obtain ⟨-, h⟩ := hrun.reports hr (by simpa [new] using hsize) rfl rfl rfl hbucket
  refine ⟨h.sorted.nodup, (List.pairwise_flatMap.mp h.sorted).2, h.shown, ?_⟩
  intro htruncated hended name hpersists
  obtain ⟨page, hpage⟩ := Option.ne_none_iff_exists'.mp (h.page_ne_none hended)
  rcases h.complete name hpersists with hreported | hbeyond
  · exact List.mem_flatMap.mp hreported
  · have htrue := (hbeyond page hpage).1
    rw [truncated, hpage, Option.any_some, htrue] at htruncated
    exact Bool.noConfusion htruncated

/-- A bucket with three keys. -/
def threeKeys : World := { store := .holding ['b'] [(['a'], [1]), (['b'], [2]), (['c'], [3])] }

/-- The page of the first key, with keys behind it. -/
def firstPage : Page :=
  { objects := [⟨['a'], 1, some 1⟩], truncated := true, token := some (tokenAfter ['a']) }

/-- The page of the third key, with none behind it. -/
def thirdPage : Page := { objects := [⟨['c'], 1, some 3⟩] }

/-- Before the second page is fetched, the second key is removed and one is stored that comes before
all others. The listing reports neither of them, and the two keys that were always there. -/
theorem interleaves_consistent_threeKeys :
    ∃ fetches cursor after,
      Interleaves .quiet (new ⟨['b']⟩ [] true (1 : Nat)) threeKeys fetches cursor after ∧
      fetches.map Fetch.page = [firstPage, thirdPage] ∧
      ∀ name, (∀ fetch ∈ fetches, Shows fetch.objects [] true name) →
        ∃ fetch ∈ fetches, name ∈ fetch.page.names := by
  have hfirst : Interleaves .quiet (new ⟨['b']⟩ [] true (1 : Nat)) threeKeys
      [⟨threeKeys.store.objects, firstPage⟩]
      { new ⟨['b']⟩ [] true (1 : Nat) with page := some firstPage } _ :=
    .page .start (StoreM.exec_eq_of_fst (by decide +kernel))
  have hchanged := (hfirst.outside (.delete ['b']) []).outside (.put ['0'] [] 0) []
  have hthird : Interleaves .quiet (new ⟨['b']⟩ [] true (1 : Nat)) threeKeys
      [⟨threeKeys.store.objects, firstPage⟩, ⟨_, thirdPage⟩]
      { new ⟨['b']⟩ [] true (1 : Nat) with page := some thirdPage } _ :=
    .page hchanged (StoreM.exec_eq_of_fst (by decide +kernel))
  have hended := hthird.ended rfl
  obtain ⟨-, -, -, hcomplete⟩ :=
    interleaves_consistent Plan.refuses_quiet rfl Nat.one_pos hended
  exact ⟨_, _, _, hended, rfl, hcomplete rfl (Or.inr ⟨rfl, rfl⟩)⟩

end Cursor

end KeyTree
