import KeyTree.Store.Service

/-!
# Scripted disruptions

A script is a list of rules. A rule matches requests by kind, key and place in a listing, lets the
first few matching requests pass, and then disrupts a number of them, or all. For each request the
rules are tried in order, each matching rule counts the request, and the first that fires ends the
search.

## Main definitions

* `Rule`, `Rule.Effect` — a rule and what it does.
* `Script.step` — the counts after a request, and what fires for it.
* `Script.plan` — the plan of a script.
-/

namespace KeyTree

/-- What a rule does to a request. -/
inductive Rule.Effect where
  /-- The request fails, after it was carried out or before. -/
  | fail (failure : Failure) (after : Bool)
  /-- A request for length and time gets the one reply, a listing the other. Other requests are
  carried out, whatever bucket they are addressed to. -/
  | answer (head : HeadReply) (list : ListReply)
deriving DecidableEq, Repr

/-- A rule of a script; what is absent matches everything. -/
structure Rule where
  method : Option Method := none
  key : Option Key := none
  /-- Whether the request goes on from an earlier page. -/
  continues : Option Bool := none
  /-- How many matching requests pass first. -/
  skip : Nat := 0
  /-- How many matching requests are disrupted then. -/
  times : Option Nat := none
  effect : Rule.Effect
deriving DecidableEq, Repr

namespace Rule

/-- The disruption of a request that an effect stands for. -/
def Effect.disruption : Effect → (request : Request) → Disruption request.Reply
  | .fail failure after, _ => if after then .failAfter failure else .fail failure
  | .answer reply _, .head _ => .answer reply
  | .answer _ reply, .list _ => .answer reply
  | .answer .., _ => .carryOut

/-- Whether a rule counts a request. -/
def appliesTo (rule : Rule) (request : Request) : Bool :=
  rule.method.all (· = request.method) && rule.key.all (· = request.target) &&
    rule.continues.all (· = request.isContinuation)

/-- Whether a rule disrupts the request that it counts as number `count`. -/
def firesAt (rule : Rule) (count : Nat) : Bool :=
  rule.skip < count && rule.times.all fun times => count ≤ rule.skip + times

/-- The length of the longest name that a rule answers with. -/
def longestName (rule : Rule) : Nat :=
  match rule.effect with
  | .answer _ reply =>
    ((reply.objects.filterMap fun object => object.key) ++ reply.groups.filterMap id).foldl
      (fun longest name => max longest name.length) 0
  | _ => 0

end Rule

namespace Script

/-- The counts after a request, and the effect that fires for it. -/
def step : List (Rule × Nat) → Request → List (Rule × Nat) × Option Rule.Effect
  | [], _ => ([], none)
  | (rule, count) :: more, request =>
    if rule.appliesTo request then
      if rule.firesAt (count + 1) then ((rule, count + 1) :: more, some rule.effect)
      else
        let (more, effect) := step more request
        ((rule, count + 1) :: more, effect)
    else
      let (more, effect) := step more request
      ((rule, count) :: more, effect)

/-- The counts after requests, the latest first. Requests without a key never come to the rules. -/
def countsAfter (rules : List Rule) (earlier : List Request) : List (Rule × Nat) :=
  (earlier.reverse.filter Request.hasKey).foldl (fun counts request => (step counts request).1)
    (rules.map fun rule => (rule, 0))

/-- The plan of a script. -/
def plan (rules : List Rule) : Plan where
  disrupt earlier request :=
    (step (countsAfter rules earlier) request).2.map fun effect => effect.disruption request
  patience := rules.foldl (fun total rule => total + rule.skip + rule.times.getD 0 + 1) 0
  longestName := rules.foldl (fun longest rule => max longest rule.longestName) 0

end Script

end KeyTree
