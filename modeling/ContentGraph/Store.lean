import ContentGraph.Canonical
import ContentGraph.Failure

/-!
# Content stores

A store keeps canonical texts under the digests of those texts, so that content stored
twice has one address. It remembers the addresses of its writes. A `Gateway` is what the
operations of this library reach a store through: it can be told to fail, in fetching an
address or in storing after some number of writes. What an operation reads through it, at
one moment, is a `Source`.
-/

namespace ContentGraph

/-- A content store. -/
structure Store where
  /-- What every issued address begins with. -/
  lead : String
  /-- The text at each address. -/
  contents : Table String
  /-- The addresses of all writes, in order. -/
  written : List String
  /-- The number of writes. -/
  writes : Nat

namespace Store

/-- The store that holds nothing. -/
def empty (lead : String) : Store := ⟨lead, .empty, [], 0⟩

/-- The store with a resource in it, and the resource's address. -/
def save (s : Store) (r : Resource) : Store × String :=
  let text := r.canonicalText
  let address := contentAddress s.lead text
  (⟨s.lead, s.contents.insert address text, s.written ++ [address], s.writes + 1⟩, address)

/-- The store with any value at a chosen address. This does not count as a write. -/
def putRaw (s : Store) (address : String) (v : Json) : Store :=
  { s with contents := s.contents.insert address v.toText }

/-- The value at an address. -/
def fetch? (s : Store) (address : String) : Option Json :=
  (s.contents.get? address).bind Json.parse?

/-- The reason why nothing is fetched from an address without content. -/
def missing (address : String) : String := "No resource stored at '" ++ address ++ "'"

/-- The number of addresses with content. -/
def size (s : Store) : Nat := s.contents.size

@[simp] theorem contents_save (s : Store) (r : Resource) :
    (s.save r).1.contents = s.contents.insert (r.address s.lead) r.canonicalText := rfl

@[simp] theorem written_save (s : Store) (r : Resource) :
    (s.save r).1.written = s.written ++ [r.address s.lead] := rfl

@[simp] theorem writes_save (s : Store) (r : Resource) : (s.save r).1.writes = s.writes + 1 := rfl

@[simp] theorem address_save (s : Store) (r : Resource) : (s.save r).2 = r.address s.lead := rfl

end Store

/-- How fetching from an address fails. -/
inductive FetchFault where
  /-- With a message of some unknown cause. -/
  | unknown (message : String)
  /-- With a cause of the store's own. -/
  | own (message : String)
  /-- By giving nothing. -/
  | nothing

/-- How storing fails. -/
structure StoreFault where
  /-- How many stores still succeed. -/
  after : Nat
  /-- The message of the cause. -/
  message : String
  /-- Whether it is a cause of the store's own. -/
  own : Bool

/-- A store and the failures it is told to have. -/
structure Gateway where
  /-- The store. -/
  store : Store
  /-- The addresses that cannot be fetched. -/
  fetchFaults : Table FetchFault
  /-- How storing fails, if it does. -/
  storeFault : Option StoreFault

/-- What can be read at one moment: the resource at each address. -/
structure Source where
  /-- Addresses among which are all that hold something. -/
  addresses : List String
  /-- The resource at an address. -/
  fetch : String → Except Failure Resource
  /-- Nothing is held elsewhere. -/
  error_of_not_mem : ∀ address, address ∉ addresses → ∃ f, fetch address = .error f

/-- The document at an address. -/
def Source.fetchDocument (source : Source) (address : String) : Except Failure Document :=
  match source.fetch address with
  | .ok (.document d) => .ok d
  | .ok r => .error (.unexpectedResource address "document" r.kindName)
  | .error f => .error f

namespace Gateway

/-- A gateway to a store that does not fail. -/
def ofStore (store : Store) : Gateway := ⟨store, .empty, none⟩

/-- The reason given where fetching gives nothing. -/
def nothingFetched : String := "fetcher returned nothing"

/-- The resource at an address. -/
def fetch (g : Gateway) (address : String) : Except Failure Resource :=
  match g.fetchFaults.get? address with
  | some (.unknown message) => .error (.fetchFailed address message)
  | some (.own message) => .error (.raised message)
  | some .nothing => .error (.fetchFailed address nothingFetched)
  | none =>
    match g.store.contents.get? address with
    | none => .error (.fetchFailed address (Store.missing address))
    | some text =>
      match Json.parse? text with
      | none => .error (.malformed address [])
      | some .null => .error (.fetchFailed address nothingFetched)
      | some v =>
        match Resource.ofJson v with
        | .ok r => .ok r
        | .refused first more => .error (.malformed address (first :: more))

/-- What can be read through the gateway. -/
def source (g : Gateway) : Source where
  addresses := g.store.contents.keys
  fetch := g.fetch
  error_of_not_mem := by
    intro address h
    have hn : g.store.contents.get? address = none := by
      cases hc : g.store.contents.get? address with
      | none => rfl
      | some a => exact absurd (Table.mem_keys_iff.2 ⟨a, hc⟩) h
    unfold fetch
    split <;> simp_all

/-- The outcome of storing a resource, and the gateway after it. -/
def save (g : Gateway) (r : Resource) : Except Failure String × Gateway :=
  match g.storeFault with
  | some ⟨0, message, own⟩ =>
    (.error (if own then .raised message else .storeFailed r.kindName message), g)
  | some ⟨n + 1, message, own⟩ =>
    let (store, address) := g.store.save r
    (.ok address, { g with store, storeFault := some ⟨n, message, own⟩ })
  | none =>
    let (store, address) := g.store.save r
    (.ok address, { g with store })

/-- The outcome of storing a resource, among all faults. -/
def saveResource (g : Gateway) (r : Resource) : Except Fault String × Gateway :=
  let (outcome, g) := g.save r
  (Except.ofFailure outcome, g)

end Gateway

end ContentGraph
