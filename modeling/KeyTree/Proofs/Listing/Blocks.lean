import KeyTree.Proofs.Listing.Names

/-!
# Pages as blocks of names

The pages of a listing are consecutive blocks of its names, all of the page size but the last one,
and each says whether blocks remain. A listing without names has one empty page. Going through the
pages delivers an initial part of them, all of them if no request fails.

## Main definitions

* `Listing.blockCount`, `Listing.blocks` — the blocks of a list of names.
* `Page.block` — what a page shows: its names, and whether there is more.

## Main results

* `Listing.flatMap_blocks` — the blocks cover the names once each.
* `Listing.map_block_pages` — the pages of a listing are the blocks of its names.
* `Cursor.drain_blocks` — the pages that going through a listing delivers.
-/

namespace KeyTree

open Key

namespace Listing

/-- The number of blocks that names are cut into. -/
def blockCount (size length : Nat) : Nat :=
  max 1 ((length + size - 1) / size)

/-- The blocks of a list of names, each with whether further blocks follow. -/
def blocks (size : Nat) (names : List Key) : List (List Key × Bool) :=
  (List.range (blockCount size names.length)).map fun i =>
    ((names.drop (i * size)).take size, decide (i + 1 < blockCount size names.length))

variable {size length : Nat}

theorem blockCount_of_le (hsize : 0 < size) (h : length ≤ size) : blockCount size length = 1 := by
  have hle : (length + size - 1) / size ≤ 1 := by
    rw [Nat.div_le_iff_le_mul_add_pred hsize]
    omega
  exact Nat.max_eq_left hle

theorem blockCount_of_lt (hsize : 0 < size) (h : size < length) :
    blockCount size length = blockCount size (length - size) + 1 := by
  have hdiv : (length + size - 1) / size = (length - size + size - 1) / size + 1 := by
    rw [← Nat.add_div_right _ hsize]
    congr 1
    omega
  have hpos : 1 ≤ (length - size + size - 1) / size := by
    rw [Nat.le_div_iff_mul_le hsize]
    omega
  rw [blockCount, blockCount, hdiv, Nat.max_eq_right hpos, Nat.max_eq_right (by omega)]

theorem blocks_of_le (hsize : 0 < size) {names : List Key} (h : names.length ≤ size) :
    blocks size names = [(names, false)] := by
  simp [blocks, blockCount_of_le hsize h, List.take_of_length_le h]

theorem blocks_of_lt (hsize : 0 < size) {names : List Key} (h : size < names.length) :
    blocks size names = (names.take size, true) :: blocks size (names.drop size) := by
  have hcount := blockCount_of_lt hsize h
  rw [← List.length_drop] at hcount
  have hpos : 0 < blockCount size (names.drop size).length := by
    simp [blockCount]
  rw [blocks, hcount, List.range_succ_eq_map, List.map_cons, List.map_map, blocks]
  refine congrArg₂ List.cons ?_ (List.map_congr_left fun i _ => ?_)
  · simpa using hpos
  · simp [Nat.succ_mul, Nat.add_comm]

/-- The blocks cover the names, once each and in order. -/
theorem flatMap_blocks (hsize : 0 < size) (names : List Key) :
    (blocks size names).flatMap Prod.fst = names := by
  rcases Nat.lt_or_ge size names.length with hlt | hle
  · have ih := flatMap_blocks hsize (names.drop size)
    rw [blocks_of_lt hsize hlt, List.flatMap_cons, ih, List.take_append_drop]
  · rw [blocks_of_le hsize hle]
    simp
termination_by names.length

example : blocks 2 [['a'], ['b'], ['c']] = [([['a'], ['b']], true), ([['c']], false)] := by decide

/-- Some first blocks that cover the names are all blocks. -/
theorem eq_blocks_of_flatMap (hsize : 0 < size) {names : List Key} {first : List (List Key × Bool)}
    (hfirst : first <+: blocks size names) (hne : first ≠ [])
    (hall : first.flatMap Prod.fst = names) : first = blocks size names := by
  rcases Nat.lt_or_ge size names.length with hlt | hle
  · rw [blocks_of_lt hsize hlt] at hfirst ⊢
    obtain ⟨more, rfl, hmore⟩ := (List.prefix_cons_iff.mp hfirst).resolve_left hne
    have hrest : more.flatMap Prod.fst = names.drop size := by
      rw [List.flatMap_cons] at hall
      exact List.append_cancel_left (hall.trans (List.take_append_drop size names).symm)
    have hne' : more ≠ [] := by
      rintro rfl
      exact absurd hrest (by simpa using hlt)
    rw [eq_blocks_of_flatMap hsize hmore hne' hrest]
  · rw [blocks_of_le hsize hle] at hfirst ⊢
    obtain ⟨more, rfl, hmore⟩ := (List.prefix_cons_iff.mp hfirst).resolve_left hne
    rw [List.prefix_nil.mp hmore]
termination_by names.length

end Listing

/-- What a page shows: its names, and whether there is more. -/
def Page.block (page : Page) : List Key × Bool :=
  (page.names, page.truncated)

namespace Listing

variable {size : Nat}

/-- The pages of a listing are the blocks of its names. -/
theorem map_block_pages (hsize : 0 < size) (items : List Item)
    (hsorted : items.Pairwise fun a b => a.name < b.name) :
    (pages size items).map Page.block = blocks size (items.map Item.name) := by
  have hblock := names_pageOfItems (items.drop size) (hsorted.sublist (items.take_sublist size))
  rcases Nat.lt_or_ge size items.length with hlt | hle
  · have hmore : items.drop size ≠ [] := by simpa using hlt
    have ih := map_block_pages hsize (items.drop size) (hsorted.sublist (items.drop_sublist size))
    rw [pages_of_drop_ne_nil hsize hmore, blocks_of_lt hsize (by simpa using hlt), List.map_cons,
      ih, Page.block, hblock, List.map_take, List.map_drop]
    refine congrArg₂ List.cons (Prod.ext rfl ?_) rfl
    exact truncated_pageOfItems_iff.mpr ⟨take_ne_nil hsize hmore, hmore⟩
  · have hlast : items.drop size = [] := List.drop_eq_nil_of_le hle
    rw [pages_of_drop_eq_nil hlast, blocks_of_le hsize (by simpa using hle), List.map_singleton,
      Page.block, hblock, List.take_of_length_le hle]
    simp [pageOfItems, hlast]
termination_by items.length

end Listing

open Listing

namespace Cursor

/-- Going through the pages of a listing delivers an initial part of its blocks, all of them unless
a request fails. At the end the cursor knows whether there was more, and it stays there. -/
theorem drain_blocks {plan : Plan} (hr : plan.Refuses) {world : World} {bucket : Bucket}
    (hbucket : bucket.name = world.store.bucket) {under : Key} {recursive : Bool} {size : Nat}
    (hsize : 0 < size) {names : List Key} (hsorted : names.Pairwise (· < ·))
    (hnames : ∀ name, name ∈ names ↔ Shows world.store.objects under recursive name) :
    (new bucket under recursive size).drain.Returns plan world fun (delivered, cursor) after =>
      after.store = world.store ∧
      delivered.map Page.block <+: blocks size names ∧
      ((∀ request, ¬ plan.Fails world.requests after.requests request) →
        delivered.map Page.block = blocks size names ∧ delivered.flatMap Page.names = names) ∧
      (delivered ≠ [] → (cursor.truncated = false ↔ delivered.flatMap Page.names = names)) ∧
      ∀ plan world, cursor.next.exec plan world = (.ok (none, cursor), world) := by
  obtain rfl : names = Listing.names world.store.objects under recursive :=
    hsorted.eq_of_mem_iff (names_sorted ..) fun name => (hnames name).trans mem_names_iff.symm
  refine (returns_drain hr hbucket under recursive hsize).mono ?_
  rintro ⟨delivered, cursor⟩ after ⟨hstore, hdrains⟩
  have hblocks := map_block_pages hsize _ (items_sorted world.store.objects under recursive)
  have hinitial := hdrains.initial.map Page.block
  rw [hblocks] at hinitial
  have hcover : delivered.flatMap Page.names = (delivered.map Page.block).flatMap Prod.fst := by
    rw [List.flatMap_map]
    rfl
  refine ⟨hstore, hinitial, fun hpass => ?_, fun hne => ?_, fun plan world => ?_⟩
  · obtain ⟨rfl, -⟩ := hdrains.complete_or_fails.resolve_right fun ⟨_, _, hfails⟩ => hpass _ hfails
    rw [hcover, hblocks]
    exact ⟨rfl, flatMap_blocks hsize _⟩
  · rw [hdrains.truncated_iff (Or.inr hne), hcover]
    constructor
    · rintro rfl
      rw [hblocks]
      exact flatMap_blocks hsize _
    · intro hall
      have heq := eq_blocks_of_flatMap hsize hinitial (by simpa using hne) hall
      refine hdrains.initial.eq_of_length ?_
      simpa using congrArg List.length (heq.trans hblocks.symm)
  · rw [next_of_done hdrains.done]
    rfl

/-- A bucket with two keys of one group and a key of its own. -/
def groupAndKey : World :=
  { store := .holding ['b'] [("a/x".toList, [1]), ("a/y".toList, [2]), (['c'], [3])] }

/-- No listing goes on after its first page. -/
def neverContinued : Plan :=
  Script.plan [{ method := some .list, continues := some true,
                 effect := .fail (.store (.refused (some "503") none)) false }]

/-- A listing whose second page is refused ends on the first one, and its cursor says that there is
more. -/
theorem drain_blocks_neverContinued :
    (new ⟨['b']⟩ [] false (1 : Nat)).drain.Returns neverContinued groupAndKey
      fun (delivered, cursor) _ =>
        delivered = [{ groups := [['a', separator]], truncated := true,
                       token := some (tokenAfter ['a', separator]) }] ∧
        cursor.truncated = true ∧
        ∀ plan world, cursor.next.exec plan world = (.ok (none, cursor), world) := by
  have hr : neverContinued.Refuses := Script.refuses_plan_singleton rfl
  have hlisted : Listing.names groupAndKey.store.objects [] false = [['a', separator], ['c']] := by
    decide +kernel
  have hnames : ∀ name, name ∈ [['a', separator], ['c']] ↔
      Shows groupAndKey.store.objects [] false name := fun name => by
    rw [← mem_names_iff, hlisted]
  have hpages : ((new ⟨['b']⟩ [] false (1 : Nat)).drain.exec neverContinued groupAndKey).1.map
      Prod.fst = .ok [{ groups := [['a', separator]], truncated := true,
                        token := some (tokenAfter ['a', separator]) }] := by
    decide +kernel
  have hblocks : (new ⟨['b']⟩ [] false (1 : Nat)).drain.Returns neverContinued groupAndKey _ :=
    drain_blocks hr rfl Nat.one_pos (by decide) hnames
  obtain ⟨⟨delivered, cursor⟩, after, hrun, -, -, -, hiff, hended⟩ := hblocks
  rw [hrun] at hpages
  obtain rfl := Except.ok.inj hpages
  refine ⟨_, _, hrun, rfl, ?_, hended⟩
  rw [← Bool.not_eq_false, hiff (by simp)]
  simp [Page.names]

end Cursor

end KeyTree
