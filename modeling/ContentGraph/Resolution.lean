import ContentGraph.Store

/-!
# Resolution of addresses

A list of addresses stands for the set of schemas that remain when every alias is replaced
by what it names, aliases of aliases too. The expansion of an address is a tree: its leaves
are schemas and failures, its branches are aliases. An alias that is met again below itself
is a failure; one that is met again beside itself is not. Where several leaves are failures,
the one reported is the first of those with the fewest aliases above them.

The parts of an alias are fetched side by side, so that resolution takes as long as the
longest way down, or as the shortest way to a failure (`Source.resolveRounds`).
-/

namespace ContentGraph

/-- What an address stands for. -/
inductive Expansion where
  /-- A schema. -/
  | schema (address : String) (schema : Schema)
  /-- An alias, with what it names. -/
  | alias (address : String) (parts : List Expansion)
  /-- Nothing that could be used. -/
  | failed (failure : Failure)

/-- The expansion of an address below a chain of aliases. `steps` exceeds the number of
addresses that hold something and are not on the chain. -/
def expand (fetch : String → Except Failure Resource) : Nat → List String → String → Expansion
  | 0, chain, address => .failed (.aliasCycle (chain ++ [address]))
  | steps + 1, chain, address =>
    if address ∈ chain then .failed (.aliasCycle (chain ++ [address]))
    else
      match fetch address with
      | .error f => .failed f
      | .ok (.schema s) => .schema address s
      | .ok (.alias a) => .alias address (a.schemas.map (expand fetch steps (chain ++ [address])))
      | .ok (.document _) => .failed (.unexpectedResource address "schema or alias" "document")

namespace Expansion

mutual

/-- The schemas at the leaves, from left to right. -/
def schemas : Expansion → List (String × Schema)
  | .schema address s => [(address, s)]
  | .alias _ parts => schemasOf parts
  | .failed _ => []

/-- The schemas at the leaves of several expansions. -/
def schemasOf : List Expansion → List (String × Schema)
  | [] => []
  | e :: rest => e.schemas ++ schemasOf rest

end

mutual

/-- The failures at the leaves, each with the number of aliases above it. -/
def failures (depth : Nat) : Expansion → List (Nat × Failure)
  | .schema _ _ => []
  | .alias _ parts => failuresOf (depth + 1) parts
  | .failed f => [(depth, f)]

/-- The failures at the leaves of several expansions. -/
def failuresOf (depth : Nat) : List Expansion → List (Nat × Failure)
  | [] => []
  | e :: rest => e.failures depth ++ failuresOf depth rest

end

mutual

/-- How many aliases with parts lie in each other in an expansion. -/
def height : Expansion → Nat
  | .alias _ parts => levels parts
  | _ => 0

/-- How many times something is fetched one after the other for several expansions that are
found side by side. -/
def levels : List Expansion → Nat
  | [] => 0
  | e :: rest => max (e.height + 1) (levels rest)

end

end Expansion

/-- The failure with the smallest depth, the first of several. -/
def shallowest : List (Nat × Failure) → Option (Nat × Failure)
  | [] => none
  | (d, f) :: rest =>
    match shallowest rest with
    | none => some (d, f)
    | some (d', f') => if d ≤ d' then some (d, f) else some (d', f')

/-- The pairs with a key that no earlier pair has, as a table. -/
def firstOfEach {α : Type} (es : List (String × α)) : Table α :=
  es.foldl (fun t e => if t.contains e.1 then t else t.insert e.1 e.2) .empty

namespace Source

/-- The expansions of a list of addresses. -/
def expansions (source : Source) (addresses : List String) : List Expansion :=
  addresses.map (expand source.fetch (source.addresses.length + 1) [])

/-- The schemas that a list of addresses stands for, each once, in the order of their first
leaves. -/
def resolve (source : Source) (addresses : List String) : Except Failure (Table Schema) :=
  let es := source.expansions addresses
  match shallowest (Expansion.failuresOf 0 es) with
  | some (_, f) => .error f
  | none => .ok (firstOfEach (Expansion.schemasOf es))

/-- How many rounds it takes until resolution has an outcome. What is done side by side takes
three rounds more than the longest of it: all of it begins, reports when it is done, and what
waits for it goes on. -/
def resolveRounds (source : Source) (addresses : List String) : Nat :=
  let es := source.expansions addresses
  match shallowest (Expansion.failuresOf 0 es) with
  | some (depth, _) => 3 * (depth + 1)
  | none => 3 * Expansion.levels es

end Source

end ContentGraph
