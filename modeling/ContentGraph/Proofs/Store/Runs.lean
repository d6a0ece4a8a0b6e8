import ContentGraph.Proofs.Resource.Content
import Mathlib.Data.List.Induction

/-!
# Runs of a store

A run is a row of actions on a store that begins empty: resources are saved, values are put at chosen
addresses, and addresses are fetched. What the store is at any moment is told by the actions so far
(`Store.Reflects`): there is one lemma for each kind of action that changes something, and the run
lemma is by induction from the last action on (`Store.reflects_run`).

From it follows what a reader of the store relies on (`Store.accounts_run`), as long as no value is
put at an address that is issued in the run, and no two of the texts that are saved have one digest.
-/

namespace ContentGraph

/-- What is done with a store. -/
inductive StoreAction where
  /-- A resource is saved. -/
  | save (r : Resource)
  /-- A value is put at a chosen address. -/
  | put (address : String) (v : Json)
  /-- An address is fetched. -/
  | fetch (address : String)

/-- The resource that is saved by an action. -/
def StoreAction.saved? : StoreAction → Option Resource
  | .save r => some r
  | _ => none

/-- The value that is put by an action, with its address. -/
def StoreAction.put? : StoreAction → Option (String × Json)
  | .put address v => some (address, v)
  | _ => none

/-- The resources that are saved, in order. -/
def savedIn (actions : List StoreAction) : List Resource := actions.filterMap StoreAction.saved?

/-- The values that are put, each with its address, in order. -/
def putIn (actions : List StoreAction) : List (String × Json) := actions.filterMap StoreAction.put?

/-- The value that was put last at an address. -/
def lastPut? (actions : List StoreAction) (address : String) : Option Json :=
  Table.find address (putIn actions).reverse

/-- The addresses that are issued for resources, in order. -/
def issuedIn (lead : String) (actions : List StoreAction) : List String :=
  (savedIn actions).map fun r => r.address lead

/-- The addresses that are issued or chosen. -/
def usedIn (lead : String) (actions : List StoreAction) : List String :=
  issuedIn lead actions ++ (putIn actions).map Prod.fst

/-- What a run has to keep to. -/
structure Disciplined (lead : String) (actions : List StoreAction) : Prop where
  /-- No value is put at an address that is issued, before or after. -/
  apart : ∀ address ∈ issuedIn lead actions, address ∉ (putIn actions).map Prod.fst
  /-- No object in a value that is put has a member twice. -/
  distinct : ∀ p ∈ putIn actions, p.2.Distinct
  /-- No two of the texts that are saved have one digest. -/
  noCollision : NoCollision ((savedIn actions).map Resource.canonicalText)

section

variable {lead : String} {actions before : List StoreAction}

theorem savedIn_concat (actions : List StoreAction) (a : StoreAction) :
    savedIn (actions ++ [a]) = savedIn actions ++ a.saved?.toList := by
  rw [savedIn, List.filterMap_append, ← savedIn]
  cases a <;> rfl

theorem putIn_concat (actions : List StoreAction) (a : StoreAction) :
    putIn (actions ++ [a]) = putIn actions ++ a.put?.toList := by
  rw [putIn, List.filterMap_append, ← putIn]
  cases a <;> rfl

theorem issuedIn_concat (lead : String) (actions : List StoreAction) (a : StoreAction) :
    issuedIn lead (actions ++ [a])
      = issuedIn lead actions ++ (a.saved?.map fun r => r.address lead).toList := by
  rw [issuedIn, savedIn_concat, List.map_append, ← issuedIn]
  cases a <;> rfl

theorem mem_putIn_of_lastPut? {address : String} {v : Json} (h : lastPut? actions address = some v) :
    (address, v) ∈ putIn actions :=
  List.mem_reverse.1 (Table.mem_of_find h)

/-- What begins a run that keeps to its discipline keeps to it. -/
theorem Disciplined.of_prefix (h : Disciplined lead actions) (hp : before <+: actions) :
    Disciplined lead before := by
  have hs : savedIn before ⊆ savedIn actions := (hp.sublist.filterMap _).subset
  have hput : putIn before ⊆ putIn actions := (hp.sublist.filterMap _).subset
  refine ⟨fun address ha hm => ?_, fun p hp => h.distinct p (hput hp), ?_⟩
  · exact h.apart address (List.map_subset _ hs ha) (List.map_subset _ hput hm)
  · intro a ha b hb
    exact h.noCollision a (List.map_subset _ hs ha) b (List.map_subset _ hs hb)

end

namespace Store

/-- The store after an action. -/
def act (s : Store) : StoreAction → Store
  | .save r => (s.save r).1
  | .put address v => s.putRaw address v
  | .fetch _ => s

/-- The store after a row of actions. -/
def run (s : Store) (actions : List StoreAction) : Store := actions.foldl act s

theorem run_concat (s : Store) (actions : List StoreAction) (a : StoreAction) :
    s.run (actions ++ [a]) = (s.run actions).act a := List.foldl_append

/-! ### What a store is made of -/

/-- A store is what some actions make of an empty one. -/
structure Reflects (lead : String) (actions : List StoreAction) (s : Store) : Prop where
  /-- What addresses begin with. -/
  lead_eq : s.lead = lead
  /-- The log holds the address of each resource that was saved. -/
  written_eq : s.written = issuedIn lead actions
  /-- The counter counts them. -/
  writes_eq : s.writes = (issuedIn lead actions).length
  /-- There is content at the addresses that were used, and at no others. -/
  mem_keys : ∀ address, address ∈ s.contents.keys ↔ address ∈ usedIn lead actions
  /-- The resources that were saved are held. -/
  held : ∀ r ∈ savedIn actions, s.Holds r
  /-- The value that was put last stands at its address. -/
  put : ∀ address v, lastPut? actions address = some v → s.contents.get? address = some v.toText

variable {lead : String} {before actions : List StoreAction} {s : Store}

theorem reflects_empty (lead : String) : Reflects lead [] (.empty lead) where
  lead_eq := rfl
  written_eq := rfl
  writes_eq := rfl
  mem_keys _ := Iff.rfl
  held _ hr := absurd hr List.not_mem_nil
  put _ _ h := by cases h

/-- A resource that is saved takes the place of nothing else. -/
theorem Reflects.save (h : Reflects lead actions s) {r : Resource}
    (hd : Disciplined lead (actions ++ [.save r])) :
    Reflects lead (actions ++ [.save r]) (s.save r).1 := by
  have hl : r.address s.lead = r.address lead := by rw [h.lead_eq]
  have hissued : issuedIn lead (actions ++ [.save r]) = issuedIn lead actions ++ [r.address lead] :=
    issuedIn_concat lead actions (.save r)
  have hput : putIn (actions ++ [.save r]) = putIn actions := by
    rw [putIn_concat]
    exact List.append_nil _
  have hsaved : savedIn (actions ++ [.save r]) = savedIn actions ++ [r] := savedIn_concat actions (.save r)
  have hkeeps := keeps_save hd.noCollision s (r := r) (by simp [hsaved])
  constructor
  case lead_eq => exact h.lead_eq
  case written_eq => rw [written_save, h.written_eq, hissued, hl]
  case writes_eq => rw [writes_save, h.writes_eq, hissued, List.length_append, List.length_singleton]
  case mem_keys =>
    intro address
    rw [contents_save, Table.mem_keys_insert, h.mem_keys, usedIn, usedIn, hissued, hput, hl]
    simp only [List.mem_append, List.mem_singleton]
    tauto
  case held =>
    intro r' hr'
    rw [hsaved] at hr'
    rcases List.mem_append.1 hr' with hr' | hr'
    · have ht : r'.canonicalText ∈ (savedIn (actions ++ [.save r])).map Resource.canonicalText := by
        rw [hsaved]
        exact List.mem_map_of_mem (List.mem_append_left _ hr')
      exact hkeeps.2 r' ht (h.held r' hr')
    · cases List.mem_singleton.1 hr'
      exact holds_save s r
  case put =>
    intro address v hv
    have hv' : lastPut? actions address = some v := by rwa [lastPut?, hput] at hv
    have hne : address ≠ r.address s.lead := by
      rintro rfl
      refine hd.apart (r.address lead) (by simp [hissued]) ?_
      rw [hput, ← hl]
      exact List.mem_map.2 ⟨_, mem_putIn_of_lastPut? hv', rfl⟩
    rw [contents_save, Table.get?_insert_of_ne hne]
    exact h.put address v hv'

/-- A value that is put takes the place of what was put there before. -/
theorem Reflects.putRaw (h : Reflects lead actions s) {address : String} {v : Json}
    (hd : Disciplined lead (actions ++ [.put address v])) :
    Reflects lead (actions ++ [.put address v]) (s.putRaw address v) := by
  have hsaved : savedIn (actions ++ [.put address v]) = savedIn actions := by
    rw [savedIn_concat]
    exact List.append_nil _
  have hissued : issuedIn lead (actions ++ [.put address v]) = issuedIn lead actions := by
    rw [issuedIn, hsaved, issuedIn]
  have hput : putIn (actions ++ [.put address v]) = putIn actions ++ [(address, v)] :=
    putIn_concat actions (.put address v)
  constructor
  case lead_eq => exact h.lead_eq
  case written_eq => exact h.written_eq.trans hissued.symm
  case writes_eq => rw [hissued]; exact h.writes_eq
  case mem_keys =>
    intro other
    show other ∈ (s.contents.insert address v.toText).keys ↔ _
    rw [Table.mem_keys_insert, h.mem_keys, usedIn, usedIn, hissued, hput]
    simp only [List.mem_append, List.map_append, List.map_cons, List.map_nil, List.mem_singleton]
    tauto
  case held =>
    intro r hr
    rw [hsaved] at hr
    have hne : r.address s.lead ≠ address := by
      rintro rfl
      refine hd.apart (r.address s.lead) ?_ (by simp [hput])
      rw [hissued, h.lead_eq]
      exact List.mem_map_of_mem hr
    show (s.contents.insert address v.toText).get? (r.address s.lead) = _
    rw [Table.get?_insert_of_ne hne]
    exact h.held r hr
  case put =>
    intro other w hw
    rw [lastPut?, hput, List.reverse_append, List.reverse_singleton, List.singleton_append, Table.find] at hw
    show (s.contents.insert address v.toText).get? other = _
    split at hw
    · next he =>
      cases hw
      rw [he]
      exact Table.get?_insert_self _ _ _
    · next hne =>
      rw [Table.get?_insert_of_ne (Ne.symm hne)]
      exact h.put other w hw

/-- **What a store is after a run is told by the actions of the run.** -/
theorem reflects_run (h : Disciplined lead actions) :
    Reflects lead actions ((Store.empty lead).run actions) := by
  induction actions using List.reverseRecOn with
  | nil => exact reflects_empty lead
  | append_singleton actions a ih =>
    have hbefore := ih (h.of_prefix (List.prefix_append _ _))
    rw [run_concat]
    cases a with
    | save r => exact hbefore.save h
    | put address v => exact hbefore.putRaw h
    | fetch address =>
      have hsaved : savedIn (actions ++ [.fetch address]) = savedIn actions := by
        rw [savedIn_concat]
        exact List.append_nil _
      have hput : putIn (actions ++ [.fetch address]) = putIn actions := by
        rw [putIn_concat]
        exact List.append_nil _
      have hissued : issuedIn lead (actions ++ [.fetch address]) = issuedIn lead actions := by
        rw [issuedIn, hsaved, issuedIn]
      exact {
        lead_eq := hbefore.lead_eq
        written_eq := hbefore.written_eq.trans hissued.symm
        writes_eq := by rw [hissued]; exact hbefore.writes_eq
        mem_keys := by rw [usedIn, hissued, hput]; exact hbefore.mem_keys
        held := by rw [hsaved]; exact hbefore.held
        put := by unfold lastPut?; rw [hput]; exact hbefore.put }

/-! ### What a reader relies on -/

/-- A resource that is held is fetched as a value that spells its content. -/
theorem Holds.exists_fetch? {r : Resource} (h : s.Holds r) : ∃ v read,
    s.fetch? (r.address s.lead) = some v ∧ Resource.ofJson v = .ok read ∧ r.SameContent read ∧
      (¬ r.HoldsNaN → r.same read = true) := by
  have hv : Resource.ofJson (.object (Json.inOrder r.members)) = .ok r.sorted := by
    rw [← Json.sorted_object, ← Resource.toJson_eq, Resource.ofJson_sorted]
  refine ⟨_, r.sorted, ?_, hv, r.sameContent_sorted, r.same_sorted_iff.2⟩
  rw [fetch?, show s.contents.get? (r.address s.lead) = some r.canonicalText from h]
  exact r.parse?_canonicalText

/-- Resources with one content are held together. -/
theorem Holds.congr {r r' : Resource} (h : s.Holds r) (hs : r.SameContent r') : s.Holds r' := by
  have ht : r'.canonicalText = r.canonicalText := (Resource.canonicalText_congr hs).symm
  rw [Holds, Resource.address, ht]
  exact h

/-- Saving what is held changes nothing but the log and the counter. -/
theorem Holds.contents_save {r : Resource} (h : s.Holds r) : (s.save r).1.contents = s.contents :=
  Table.insert_of_get? h

/-- What can be relied on after some actions on a store that was empty. -/
structure Accounts (lead : String) (actions : List StoreAction) (s : Store) : Prop where
  /-- The counter is the length of the log. -/
  counted : s.writes = s.written.length
  /-- The log tells the addresses that were issued, in order. -/
  logged : s.written = issuedIn lead actions
  /-- There is content at every address in the log, and it begins with the lead. -/
  written : ∀ address ∈ s.written, s.contents.contains address = true ∧ s.lead.toList <+: address.toList
  /-- A resource that was saved is fetched as its content, and as an equal resource if nothing in it
  is not a number. -/
  issued : ∀ r ∈ savedIn actions, ∃ v read, s.fetch? (r.address lead) = some v ∧
    Resource.ofJson v = .ok read ∧ r.SameContent read ∧ (¬ r.HoldsNaN → r.same read = true)
  /-- The value that was put last is fetched. -/
  put : ∀ address v, lastPut? actions address = some v → s.fetch? address = some v
  /-- There are as many entries as addresses that were used. -/
  size : s.size = (usedIn lead actions).eraseDups.length
  /-- The content of a resource that was saved is there. -/
  present : ∀ r ∈ savedIn actions, ∀ r', r.SameContent r' → s.Holds r'
  /-- Saving content that is there changes nothing that is fetched and adds no entry. -/
  again : ∀ r, s.Holds r →
    (∀ address, (s.save r).1.fetch? address = s.fetch? address) ∧ (s.save r).1.size = s.size

/-- A store that reflects its actions can be relied on. -/
theorem Reflects.accounts (h : Reflects lead actions s) (hd : ∀ p ∈ putIn actions, p.2.Distinct) :
    Accounts lead actions s where
  counted := by rw [h.writes_eq, h.written_eq]
  logged := h.written_eq
  written address ha := by
    rw [h.written_eq] at ha
    constructor
    · rw [Table.contains_iff, h.mem_keys]
      exact List.mem_append_left _ ha
    · obtain ⟨r, -, rfl⟩ := List.mem_map.1 ha
      rw [h.lead_eq, Resource.address, contentAddress, String.toList_append]
      exact List.prefix_append _ _
  issued r hr := by
    have hfetch := (h.held r hr).exists_fetch?
    rwa [h.lead_eq] at hfetch
  put address v hv := by
    rw [fetch?, h.put address v hv, Option.bind_some]
    exact Json.parse?_toText (hd _ (mem_putIn_of_lastPut? hv))
  size := by
    have hp : s.contents.keys.Perm (usedIn lead actions).eraseDups := by
      refine (List.perm_ext_iff_of_nodup s.contents.nodup (nodup_eraseDups _)).2 fun address => ?_
      rw [List.mem_eraseDups]
      exact h.mem_keys address
    rw [← hp.length_eq, Table.keys, List.length_map]
    rfl
  present r hr r' hs := (h.held r hr).congr hs
  again r hr := by
    constructor
    · intro address
      rw [fetch?, fetch?, hr.contents_save]
    · rw [size, size, hr.contents_save]

/-- **A store can be relied on in every state of a run** that keeps to its discipline. -/
theorem accounts_run (h : Disciplined lead actions) (hp : before <+: actions) :
    Accounts lead before ((Store.empty lead).run before) :=
  (reflects_run (h.of_prefix hp)).accounts (h.of_prefix hp).distinct

/-- A run in which an alias is saved twice, a document once, and two values are put at one address. -/
def busyRun : List StoreAction :=
  [.save (.alias ⟨defaultVersion, "post", ["s"]⟩), .put "x" (.object [("kind", .text "schema")]),
    .fetch "x", .save (.document ⟨defaultVersion, ["s"], []⟩), .put "x" (.object [("list", .list [])]),
    .save (.alias ⟨defaultVersion, "post", ["s"]⟩)]

/-- In the run that is given, four actions from its beginning. -/
theorem accounts_busyRun : Disciplined "sha256:" busyRun ∧ busyRun.take 4 <+: busyRun ∧
    Accounts "sha256:" (busyRun.take 4) ((Store.empty "sha256:").run (busyRun.take 4)) := by
  have hd : Disciplined "sha256:" busyRun := by
    constructor
    case apart => decide +kernel
    case distinct =>
      have hput : putIn busyRun =
          [("x", .object [("kind", .text "schema")]), ("x", .object [("list", .list [])])] := rfl
      simp [hput, Json.Distinct, Json.DistinctItems, Json.DistinctMembers]
    case noCollision =>
      unfold NoCollision
      decide +kernel
  exact ⟨hd, List.take_prefix _ _, accounts_run hd (List.take_prefix _ _)⟩

end Store

end ContentGraph
