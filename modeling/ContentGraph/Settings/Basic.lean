import ContentGraph.Resource.Reader

/-!
# Settings

What the operations of this library can be told: the version they write, how many digits of
an identity end a type name, what the addresses of a store begin with, and the level of a
log. `Settings.recover` reads an object of which some members may be bad: it drops the
members that are refused and reads again, so that each good member counts. Every issue begins at
a member that is there, so that each reading but the last drops some.
-/

namespace ContentGraph

/-- How many digits of an identity end a type name. -/
structure HashLength where
  /-- The number of digits. -/
  digits : Nat
  /-- There are at least four. -/
  four_le : 4 ≤ digits
  /-- There are at most all. -/
  le_all : digits ≤ 64
  deriving DecidableEq

/-- Eight digits. -/
def HashLength.default : HashLength := ⟨8, by decide, by decide⟩

/-- A number of digits. -/
def Json.asHashLength (v : Json) : Checked HashLength :=
  match v.asInteger with
  | .refused first more => .refused first more
  | .ok n =>
    if h : 4 ≤ n.toNat ∧ n.toNat ≤ 64 then .ok ⟨n.toNat, h.1, h.2⟩
    else .refuse (if n < 4 then .tooSmall else .tooLarge) v

/-- The settings. -/
structure Settings where
  /-- The format version of what is created. -/
  version : String
  /-- The digits at the end of a type name. -/
  hashLength : HashLength
  /-- What every address of a store begins with. -/
  addressLead : String
  /-- The level of a log. -/
  logLevel : String
  deriving DecidableEq

namespace Settings

/-- The settings that nobody changed. -/
def default : Settings := ⟨defaultVersion, .default, "omg://", "INFO"⟩

/-- The settings of an object; other members are passed over. -/
def read (ms : Members) : Checked Settings :=
  Settings.mk <$> optional ms "version" default.version Json.asText
    <*> optional ms "type_hash_length" default.hashLength Json.asHashLength
    <*> optional ms "address_prefix" default.addressLead Json.asText
    <*> optional ms "log_level" default.logLevel Json.asText

/-- The members that settings have. -/
def names : List String := ["version", "type_hash_length", "address_prefix", "log_level"]

/-- The member that a way begins with. -/
def firstMember : List Step → Option String
  | .member name :: _ => some name
  | _ => none

/-- The members that issues begin at. -/
def badMembers (issues : List Issue) : List String := issues.filterMap fun i => firstMember i.loc

/-- One reading: the settings of an object, or what is left of the object without the members that
are refused. -/
def attempt (ms : Members) : Except Members Settings :=
  match read ms with
  | .ok s => .ok s
  | .refused first more =>
    let bad := badMembers (first :: more)
    if bad = [] then .ok default else .error (ms.filter fun m => !bad.contains m.1)

theorem issues_read (ms : Members) : (read ms).issues =
    (optional ms "version" default.version Json.asText).issues
      ++ (optional ms "type_hash_length" default.hashLength Json.asHashLength).issues
      ++ (optional ms "address_prefix" default.addressLead Json.asText).issues
      ++ (optional ms "log_level" default.logLevel Json.asText).issues := by
  show (Checked.seq (.seq (.seq (.seq (.ok Settings.mk) _) _) _) _).issues = _
  simp only [Checked.issues_seq, Checked.issues_ok, List.nil_append]

/-- An issue of a member begins at it, and the object has that member. -/
theorem mem_of_mem_issues_optional {α : Type} {ms : Members} {name : String} {default : α}
    {read : Json → Checked α} {i : Issue} (h : i ∈ (optional ms name default read).issues) :
    firstMember i.loc = some name ∧ ∃ v, (name, v) ∈ ms := by
  rw [issues_optional] at h
  cases hf : Table.find name ms with
  | none => simp [hf] at h
  | some v =>
    rw [hf] at h
    obtain ⟨j, -, rfl⟩ := List.mem_map.1 h
    exact ⟨rfl, v, Table.mem_of_find hf⟩

theorem exists_member_of_mem_issues {ms : Members} {i : Issue} (h : i ∈ (read ms).issues) :
    ∃ name v, firstMember i.loc = some name ∧ (name, v) ∈ ms := by
  rw [issues_read] at h
  simp only [List.mem_append] at h
  rcases h with ((h | h) | h) | h
  all_goals
    obtain ⟨hname, v, hv⟩ := mem_of_mem_issues_optional h
    exact ⟨_, v, hname, hv⟩

/-- A reading that is not the last one leaves fewer members. -/
theorem length_lt_of_attempt {ms left : Members} (h : attempt ms = .error left) :
    left.length < ms.length := by
  unfold attempt at h
  split at h
  · cases h
  · next first more hr =>
    dsimp only at h
    split at h
    · cases h
    · cases h
      have hfirst : first ∈ (read ms).issues := by simp [hr, Checked.issues]
      obtain ⟨name, v, hname, hm⟩ := exists_member_of_mem_issues hfirst
      have hbad : name ∈ badMembers (first :: more) :=
        List.mem_filterMap.2 ⟨first, List.mem_cons_self, hname⟩
      exact List.length_filter_lt_length_iff_exists.2 ⟨(name, v), hm, by simp [hbad]⟩

/-- The settings of an object that is read until no member is refused. -/
def recoverFrom (ms : Members) : Settings :=
  match _h : attempt ms with
  | .ok s => s
  | .error left => recoverFrom left
termination_by ms.length
decreasing_by exact length_lt_of_attempt _h

/-- The settings of an object, with the default for each member that is absent or refused. -/
def recover (ms : Members) : Settings := recoverFrom (ms.filter fun m => names.contains m.1)

/-- The object of settings. -/
def toJson (s : Settings) : Json :=
  .object [("version", .text s.version), ("type_hash_length", .integer s.hashLength.digits),
    ("address_prefix", .text s.addressLead), ("log_level", .text s.logLevel)]

end Settings

end ContentGraph
