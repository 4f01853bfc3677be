import KeyTree.Store.Request

/-!
# Pages of names

A listing shows the keys that start with a text. With a delimiter, keys that hold it after that text
are grouped: the group's name is the key up to and including the first delimiter. The names, of
objects and of groups, are sorted together by code point and handed out in pages; a token says after
which name the next page starts.

## Main definitions

* `Item`, `itemOf` — what a key is shown as.
* `itemsUnder` — all names under a text, with what they stand for.
* `pageOf` — one page.
-/

namespace KeyTree.Listing

/-- What a name of a listing stands for. -/
inductive Item where
  | object (key : Key) (object : Object)
  | group (name : Key)
deriving DecidableEq

/-- The name of an item. -/
def Item.name : Item → Key
  | object key _ => key
  | group name => name

/-- The text up to and including the first delimiter, if there is one. -/
def throughDelimiter? (delimiter : List Char) : List Char → Option (List Char)
  | [] => none
  | c :: rest =>
    if delimiter <+: c :: rest then some delimiter
    else (throughDelimiter? delimiter rest).map (c :: ·)

/-- What a key that starts with `under` is shown as. -/
def itemOf (under : Key) (delimiter : Option (List Char)) (key : Key) (object : Object) : Item :=
  match delimiter.bind fun delimiter => throughDelimiter? delimiter (key.drop under.length) with
  | some upTo => .group (under ++ upTo)
  | none => .object key object

/-- The names under a text, in order, with what they stand for. -/
def itemsUnder (objects : Objects) (under : Key) (delimiter : Option (List Char)) :
    Std.ExtTreeMap Key Item :=
  (objects.toList.filter fun entry => under <+: entry.1).foldl
    (fun items entry =>
      let item := itemOf under delimiter entry.1 entry.2
      items.insert item.name item) ∅

/-- What a token starts with. -/
def tokenMark : List Char := ['t', ':']

/-- The token that goes on after a name. -/
def tokenAfter (name : Key) : List Char :=
  tokenMark ++ name

/-- The items after the name in a token, all of them without a token; nothing if the token is none
that a listing gives out. -/
def itemsAfter? (token : Option (List Char)) (items : List Item) : Option (List Item) :=
  match token with
  | none => some items
  | some token =>
    if tokenMark <+: token then
      let name := token.drop tokenMark.length
      some (items.filter fun item => name < item.name)
    else none

/-- A page as a reply: the objects, the groups, and whether names remain. -/
def replyOf (page remaining : List Item) : ListReply where
  objects := page.filterMap fun
    | .object key object => some ⟨some key, object.body.length, some object.modified⟩
    | .group _ => none
  groups := page.filterMap fun
    | .object .. => none
    | .group name => some (some name)
  truncated := !page.isEmpty && !remaining.isEmpty
  nextToken :=
    if remaining.isEmpty then none else page.getLast?.map fun item => tokenAfter item.name

/-- One page of names. -/
def pageOf (objects : Objects) (query : Query) : Except StoreError ListReply :=
  let items := (itemsUnder objects (query.under.getD []) query.delimiter).toList.map Prod.snd
  match itemsAfter? query.token items with
  | none => .error .unknownToken
  | some items => .ok (replyOf (items.take query.maxKeys.toNat) (items.drop query.maxKeys.toNat))

end KeyTree.Listing
