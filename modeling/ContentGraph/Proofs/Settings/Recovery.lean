import ContentGraph.Proofs.Checked
import ContentGraph.Proofs.Table
import ContentGraph.Settings.Files

/-!
# Recovery of settings

A reading of settings tells the issues of all members at once, and each issue begins at its member. So the
members that are dropped after it are those that are refused (`mem_badMembers_read`), and no member that is
accepted is dropped with them: what is left is accepted as a whole, and a second reading is the last one
(`attempt_cases`). The settings that come out are those in which each member was read on its own
(`recover_eq`), whatever other members there are and in whatever order (`recovers_each`).
-/

namespace ContentGraph.Settings

open Toml (membersToJson)

/-! ### Readings one after another -/

/-- An object is read until no member is refused: that gives settings after a number of readings. -/
inductive Recovers : Members → ℕ → Settings → Prop where
  /-- This reading is the last one. -/
  | last {ms : Members} {s : Settings} (h : attempt ms = .ok s) : Recovers ms 1 s
  /-- What is left is read again. -/
  | again {ms left : Members} {n : ℕ} {s : Settings} (h : attempt ms = .error left)
      (hr : Recovers left n s) : Recovers ms (n + 1) s

theorem Recovers.eq_recoverFrom {ms : Members} {n : ℕ} {s : Settings} (h : Recovers ms n s) :
    s = recoverFrom ms := by
  induction h with
  | @last ms s h =>
    unfold recoverFrom
    split
    · next s' hs => exact Except.ok.inj (h.symm.trans hs)
    · next left hl => cases h.symm.trans hl
  | @again ms left n s h _ ih =>
    unfold recoverFrom
    split
    · next s' hs => cases h.symm.trans hs
    · next left' hl =>
      cases h.symm.trans hl
      exact ih

/-! ### Members on their own -/

section

variable {α : Type} {ms ms' : Members} {name key : String} {default : α} {read : Json → Checked α}
  {bad : List String}

/-- The value of a member, or the default where it is absent or refused. -/
def sound (ms : Members) (name : String) (default : α) (read : Json → Checked α) : α :=
  ((Table.find name ms).bind fun v => (read v).toOption).getD default

theorem optional_of_issues (h : (optional ms name default read).issues = []) :
    optional ms name default read = .ok (sound ms name default read) := by
  rw [issues_optional] at h
  unfold optional sound
  cases hf : Table.find name ms with
  | none => rfl
  | some v =>
    rw [hf] at h
    dsimp only at h
    cases hv : read v with
    | ok a => simp [hv, Checked.toOption]
    | refused first more => simp [hv, Checked.issues] at h

theorem sound_of_issues (h : (optional ms name default read).issues ≠ []) :
    sound ms name default read = default := by
  rw [issues_optional] at h
  unfold sound
  cases hf : Table.find name ms with
  | none => rfl
  | some v =>
    rw [hf] at h
    dsimp only at h
    cases hv : read v with
    | ok a => simp [hv] at h
    | refused first more => simp [hv, Checked.toOption]

/-- A member is read as before, and is absent where it was dropped. -/
theorem optional_drop (h : name ∈ bad ↔ (optional ms name default read).issues ≠ []) :
    optional (ms.filter fun m => !bad.contains m.1) name default read
      = .ok (sound ms name default read) := by
  by_cases hb : name ∈ bad
  · rw [sound_of_issues (h.1 hb)]
    unfold optional
    rw [Table.find_filter (fun key => !bad.contains key), if_neg (by simp [hb])]
  · have hsame : optional (ms.filter fun m => !bad.contains m.1) name default read
        = optional ms name default read := by
      unfold optional
      rw [Table.find_filter (fun key => !bad.contains key), if_pos (by simp [hb])]
    rw [hsame]
    exact optional_of_issues (by simpa [hb] using h)

theorem mem_badMembers_optional : key ∈ badMembers (optional ms name default read).issues ↔
    key = name ∧ (optional ms name default read).issues ≠ [] := by
  have hfirst : ∀ i ∈ (optional ms name default read).issues, firstMember i.loc = some name :=
    fun i hi => (mem_of_mem_issues_optional hi).1
  rw [badMembers, List.mem_filterMap]
  constructor
  · rintro ⟨i, hi, hk⟩
    exact ⟨Option.some.inj (hk.symm.trans (hfirst i hi)), List.ne_nil_of_mem hi⟩
  · rintro ⟨rfl, hne⟩
    obtain ⟨i, hi⟩ := List.exists_mem_of_ne_nil _ hne
    exact ⟨i, hi, hfirst i hi⟩

end

/-- The settings in which each member is read on its own. -/
def each (ms : Members) : Settings where
  version := sound ms "version" default.version Json.asText
  hashLength := sound ms "type_hash_length" default.hashLength Json.asHashLength
  addressLead := sound ms "address_prefix" default.addressLead Json.asText
  logLevel := sound ms "log_level" default.logLevel Json.asText

theorem badMembers_append (is js : List Issue) :
    badMembers (is ++ js) = badMembers is ++ badMembers js := List.filterMap_append

/-- The members that a reading drops are those that it refuses. -/
theorem mem_badMembers_read (ms : Members) (key : String) : key ∈ badMembers (read ms).issues ↔
    ((key = "version" ∧ (optional ms "version" default.version Json.asText).issues ≠ [] ∨
      key = "type_hash_length" ∧
        (optional ms "type_hash_length" default.hashLength Json.asHashLength).issues ≠ []) ∨
      key = "address_prefix" ∧
        (optional ms "address_prefix" default.addressLead Json.asText).issues ≠ []) ∨
      key = "log_level" ∧ (optional ms "log_level" default.logLevel Json.asText).issues ≠ [] := by
  simp only [issues_read, badMembers_append, List.mem_append, mem_badMembers_optional]

theorem read_of_optional {ms : Members} {version lead level : String} {hash : HashLength}
    (hversion : optional ms "version" default.version Json.asText = .ok version)
    (hhash : optional ms "type_hash_length" default.hashLength Json.asHashLength = .ok hash)
    (hlead : optional ms "address_prefix" default.addressLead Json.asText = .ok lead)
    (hlevel : optional ms "log_level" default.logLevel Json.asText = .ok level) :
    read ms = .ok ⟨version, hash, lead, level⟩ := by
  unfold read
  rw [hversion, hhash, hlead, hlevel]
  rfl

/-- Nothing that was accepted is dropped: what is left is accepted as a whole. -/
theorem read_drop (ms : Members) :
    read (ms.filter fun m => !(badMembers (read ms).issues).contains m.1) = .ok (each ms) :=
  read_of_optional (optional_drop (by simp [mem_badMembers_read]))
    (optional_drop (by simp [mem_badMembers_read])) (optional_drop (by simp [mem_badMembers_read]))
    (optional_drop (by simp [mem_badMembers_read]))

/-! ### The whole recovery -/

/-- The first reading is the last one, or the second is. -/
theorem attempt_cases (ms : Members) : attempt ms = .ok (each ms) ∨
    ∃ left, attempt ms = .error left ∧ attempt left = .ok (each ms) := by
  have hdrop := read_drop ms
  cases hr : read ms with
  | ok s =>
    have hkept : (ms.filter fun m => !(badMembers (read ms).issues).contains m.1) = ms := by
      rw [hr]
      exact List.filter_eq_self.2 fun _ _ => rfl
    rw [hkept] at hdrop
    exact .inl (by simp [attempt, hdrop])
  | refused first more =>
    rw [hr] at hdrop
    obtain ⟨name, v, hname, -⟩ := exists_member_of_mem_issues (by rw [hr]; exact List.mem_cons_self)
    have hbad : badMembers (first :: more) ≠ [] :=
      List.ne_nil_of_mem (List.mem_filterMap.2 ⟨first, List.mem_cons_self, hname⟩)
    refine .inr ⟨ms.filter fun m => !(badMembers (first :: more)).contains m.1, ?_, ?_⟩
    · simp only [attempt, hr, if_neg hbad]
    · have hleft : read (ms.filter fun m => !(badMembers (first :: more)).contains m.1)
          = .ok (each ms) := hdrop
      simp only [attempt, hleft]

theorem recovers_of_members (ms : Members) : ∃ n ≤ 2, Recovers ms n (each ms) := by
  rcases attempt_cases ms with h | ⟨left, h, hleft⟩
  · exact ⟨1, by decide, .last h⟩
  · exact ⟨2, by decide, .again h (.last hleft)⟩

theorem each_congr {ms ms' : Members}
    (h : ∀ key ∈ names, Table.find key ms' = Table.find key ms) : each ms' = each ms := by
  simp only [names, List.forall_mem_cons] at h
  obtain ⟨hversion, hhash, hlead, hlevel, -⟩ := h
  simp only [each, sound, hversion, hhash, hlead, hlevel]

/-- The members that are read at all are those with a name of a setting. -/
def known (ms : Members) : Members := ms.filter fun m => names.contains m.1

theorem each_known (ms : Members) : each (known ms) = each ms :=
  each_congr fun key hkey => by
    rw [known, Table.find_filter (fun key => names.contains key), if_pos (by simpa using hkey)]

theorem recovers_known (ms : Members) : ∃ n ≤ 2, Recovers (known ms) n (each ms) :=
  each_known ms ▸ recovers_of_members (known ms)

theorem recover_eq (ms : Members) : recover ms = each ms := by
  obtain ⟨n, -, h⟩ := recovers_known ms
  exact h.eq_recoverFrom.symm

/-! ### Tables of files -/

theorem membersToJson_eq_map (table : List (String × Toml.Value)) :
    membersToJson table = table.map fun e => (e.1, e.2.toJson) := by
  induction table with
  | nil => rfl
  | cons e rest ih => rw [membersToJson, ih, List.map_cons]

theorem find_membersToJson (table : List (String × Toml.Value)) (key : String) :
    Table.find key (membersToJson table) = (Table.find key table).map Toml.Value.toJson := by
  rw [membersToJson_eq_map, Table.find_map]

/-- What a table says about one setting, whose validation is `read`. -/
inductive Says {α : Type} (table : List (String × Toml.Value)) (name : String) (default : α)
    (read : Json → Checked α) : α → Prop where
  /-- There is no such key. -/
  | absent (h : Table.find name table = none) : Says table name default read default
  /-- The value of the key is accepted. -/
  | accepted {v : Toml.Value} {a : α} (h : Table.find name table = some v)
      (hv : read v.toJson = .ok a) : Says table name default read a
  /-- The value of the key is refused. -/
  | refused {v : Toml.Value} (h : Table.find name table = some v)
      (hv : (read v.toJson).issues ≠ []) : Says table name default read default

theorem says_sound {α : Type} (table : List (String × Toml.Value)) (name : String) (default : α)
    (read : Json → Checked α) :
    Says table name default read (sound (membersToJson table) name default read) := by
  unfold sound
  rw [find_membersToJson]
  cases hf : Table.find name table with
  | none => exact .absent hf
  | some v =>
    show Says table name default read ((read v.toJson).toOption.getD default)
    cases hv : read v.toJson with
    | ok a => exact .accepted hf hv
    | refused first more => exact .refused hf (by simp [hv, Checked.issues])

/-- Two settings say the same under a key. -/
def AgreeAt (key : String) (s s' : Settings) : Prop := s.toJson.member? key = s'.toJson.member? key

theorem agreeAt_each {ms ms' : Members} {key : String} (hkey : key ∈ names)
    (h : Table.find key ms' = Table.find key ms) : AgreeAt key (each ms') (each ms) := by
  simp only [names, List.mem_cons, List.not_mem_nil, or_false] at hkey
  rcases hkey with rfl | rfl | rfl | rfl <;>
    simp [AgreeAt, toJson, Json.member?, Table.find, each, sound, h]

/-- The settings of a table are recovered key by key. -/
structure RecoversEach (table : List (String × Toml.Value)) (s : Settings) : Prop where
  /-- The second reading is the last one, if not the first is. -/
  ends : ∃ n ≤ 2, Recovers (known (membersToJson table)) n s
  /-- The readings end with these settings only. -/
  only : ∀ n s', Recovers (known (membersToJson table)) n s' → s' = s
  /-- The version is that of its own key. -/
  version : Says table "version" default.version Json.asText s.version
  /-- The number of digits is that of its own key. -/
  hashLength : Says table "type_hash_length" default.hashLength Json.asHashLength s.hashLength
  /-- The lead of addresses is that of its own key. -/
  addressLead : Says table "address_prefix" default.addressLead Json.asText s.addressLead
  /-- The level is that of its own key. -/
  logLevel : Says table "log_level" default.logLevel Json.asText s.logLevel
  /-- What stands under other keys does not matter to a setting. -/
  apart : ∀ table' key, key ∈ names → Table.find key table' = Table.find key table →
    AgreeAt key (recover (membersToJson table')) s
  /-- What stands under keys of no setting does not matter at all. -/
  told : ∀ table', (∀ key ∈ names, Table.find key table' = Table.find key table) →
    recover (membersToJson table') = s
  /-- The order of the keys does not matter. -/
  anyOrder : ∀ table', table.Perm table' → (table.map Prod.fst).Nodup →
    recover (membersToJson table') = s

theorem recovers_each (table : List (String × Toml.Value)) :
    RecoversEach table (recover (membersToJson table)) := by
  have hfind : ∀ {table' : List (String × Toml.Value)} {key : String},
      Table.find key table' = Table.find key table →
        Table.find key (membersToJson table') = Table.find key (membersToJson table) := by
    intro table' key h
    rw [find_membersToJson, find_membersToJson, h]
  have htold : ∀ table', (∀ key ∈ names, Table.find key table' = Table.find key table) →
      recover (membersToJson table') = recover (membersToJson table) := by
    intro table' h
    rw [recover_eq, recover_eq]
    exact each_congr fun key hkey => hfind (h key hkey)
  rw [recover_eq (membersToJson table)] at *
  exact {
    ends := recovers_known _
    only := fun n s' h => by
      rw [h.eq_recoverFrom, ← recover_eq]
      rfl
    version := says_sound table _ _ _
    hashLength := says_sound table _ _ _
    addressLead := says_sound table _ _ _
    logLevel := says_sound table _ _ _
    apart := fun table' key hkey h => by
      rw [recover_eq]
      exact agreeAt_each hkey (hfind h)
    told := htold
    anyOrder := fun table' hp hn => htold table' fun key _ => Table.find_perm hn hp key }

end ContentGraph.Settings
