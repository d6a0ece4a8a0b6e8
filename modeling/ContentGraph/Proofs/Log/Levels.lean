import ContentGraph.Log.Registry
import ContentGraph.Proofs.Table

/-!
# Levels of loggers

A call that sets up a logger gives it a level of its own each time, and a handler the first time only. So
a logger has the level of the latest call for it, and its one handler has the level of the first
(`Registry.get?_after`). A record has to pass both. A call that asks for a lower level than the first did
lowers the level of the logger and not that of the handler, so that records of the level that it asks for
do not come out (`setup_effect`).

Loggers are taken to have no handlers before the calls. What a logger leaves to the loggers above it is not
looked at: records that their handlers take as well, and the level of a logger that has level zero.
-/

namespace ContentGraph.Log

/-! ### Levels that are asked for -/

/-- A call asks for a level. -/
inductive Setup.AsksFor (c : Setup) : Int → Prop where
  /-- A call without a level asks for information. -/
  | absent (h : c.givenLevel = none) : AsksFor c info
  /-- A number stands for itself. -/
  | number {n : Int} (h : c.givenLevel = some (.number n)) : AsksFor c n
  /-- A name stands for its level, in capital or small letters. -/
  | named {s : String} {n : Int} (h : c.givenLevel = some (.name s))
      (hn : (String.ofList (s.toList.map capital), n) ∈ levelNames) : AsksFor c n
  /-- A name of no level asks for information. -/
  | unknown {s : String} (h : c.givenLevel = some (.name s))
      (hs : String.ofList (s.toList.map capital) ∉ levelNames.map Prod.fst) : AsksFor c info

theorem nodup_levelNames : (levelNames.map Prod.fst).Nodup := by decide

theorem levelNamed_of_mem {s : String} {n : Int}
    (h : (String.ofList (s.toList.map capital), n) ∈ levelNames) : levelNamed s = n := by
  rw [levelNamed, Table.find_of_mem nodup_levelNames h, Option.getD_some]

theorem levelNamed_of_not_mem {s : String}
    (h : String.ofList (s.toList.map capital) ∉ levelNames.map Prod.fst) : levelNamed s = info := by
  rw [levelNamed, Table.find_eq_none_iff.2 h, Option.getD_none]

namespace Setup

variable {c : Setup} {n : Int}

theorem AsksFor.level_eq (h : c.AsksFor n) : c.level = n := by
  unfold level
  cases h with
  | absent h => rw [h]; rfl
  | number h => rw [h]; rfl
  | named h hn =>
    rw [h]
    exact levelNamed_of_mem hn
  | unknown h hs =>
    rw [h]
    exact levelNamed_of_not_mem hs

theorem asksFor_level (c : Setup) : c.AsksFor c.level := by
  cases hg : c.givenLevel with
  | none =>
    have hl : c.level = info := by rw [level, hg]; rfl
    exact hl ▸ .absent hg
  | some given =>
    have hl : c.level = given.value := by rw [level, hg]; rfl
    rw [hl]
    cases given with
    | number n => exact .number hg
    | name s =>
      by_cases hs : String.ofList (s.toList.map capital) ∈ levelNames.map Prod.fst
      · obtain ⟨n, hf⟩ := Table.exists_find hs
        have hm := Table.mem_of_find hf
        rw [GivenLevel.value, levelNamed_of_mem hm]
        exact .named hg hm
      · rw [GivenLevel.value, levelNamed_of_not_mem hs]
        exact .unknown hg hs

theorem asksFor_iff : c.AsksFor n ↔ n = c.level := by
  constructor
  · exact fun h => h.level_eq.symm
  · rintro rfl
    exact c.asksFor_level

end Setup

/-! ### One call -/

namespace Registry

variable {r : Registry} {name other : String} {level old : Int}

theorem get?_setup_of_ne (h : other ≠ name) : (r.setup level name).get? other = r.get? other :=
  Table.get?_insert_of_ne h r _

/-- A logger without handlers gets one. -/
theorem get?_setup_first (h : ∀ logger, r.get? name = some logger → logger.handlers = []) :
    (r.setup level name).get? name = some ⟨level, [level]⟩ := by
  unfold setup
  rw [Table.get?_insert_self]
  cases hl : r.get? name with
  | none => rfl
  | some logger => simp [h logger hl]

/-- A logger with handlers keeps them. -/
theorem get?_setup_again {handler : Int} {others : List Int}
    (h : r.get? name = some ⟨old, handler :: others⟩) :
    (r.setup level name).get? name = some ⟨level, handler :: others⟩ := by
  unfold setup
  rw [Table.get?_insert_self, h]
  rfl

/-! ### Calls one after another -/

variable {calls before : List Setup} {c : Setup}

theorem after_append (r : Registry) (before calls : List Setup) :
    r.after (before ++ calls) = (r.after before).after calls := List.foldl_append

theorem get?_after_of_not_named (h : ∀ b ∈ calls, b.name ≠ name) :
    (r.after calls).get? name = r.get? name := by
  induction calls generalizing r with
  | nil => rfl
  | cons b rest ih =>
    obtain ⟨hb, hrest⟩ := List.forall_mem_cons.1 h
    exact (ih hrest).trans (get?_setup_of_ne hb.symm)

/-- The one handler of a logger stays. -/
theorem exists_get?_after {handler : Int} (h : r.get? name = some ⟨old, [handler]⟩) (calls : List Setup) :
    ∃ level, (r.after calls).get? name = some ⟨level, [handler]⟩ := by
  induction calls generalizing r old with
  | nil => exact ⟨old, h⟩
  | cons b rest ih =>
    by_cases hb : name = b.name
    · subst hb
      exact ih (get?_setup_again h)
    · exact ih ((get?_setup_of_ne hb).trans h)

/-- Loggers of which none has a handler. -/
def Bare (r : Registry) : Prop := ∀ name logger, r.get? name = some logger → logger.handlers = []

/-- The logger of a name that no call is for has no handler after the calls. -/
theorem Bare.after (hr : r.Bare) (h : ∀ b ∈ calls, b.name ≠ name) :
    ∀ logger, (r.after calls).get? name = some logger → logger.handlers = [] := by
  rw [get?_after_of_not_named h]
  exact hr name

/-- The level of the first call for the logger of a call, among the calls before it and itself. -/
def firstLevel (before : List Setup) (c : Setup) : Int :=
  ((before.find? fun b => b.name = c.name).getD c).level

/-- **A logger has the level of the latest call for it, and one handler, which has that of the first.** -/
theorem get?_after (hr : r.Bare) (before : List Setup) (c : Setup) :
    (r.after (before ++ [c])).get? c.name = some ⟨c.level, [firstLevel before c]⟩ := by
  have hlast : r.after (before ++ [c]) = (r.after before).setup c.level c.name := after_append r before [c]
  rw [hlast]
  cases hf : before.find? fun b => b.name = c.name with
  | none =>
    have hnot : ∀ b ∈ before, b.name ≠ c.name := by simpa using hf
    have hfirst : firstLevel before c = c.level := by rw [firstLevel, hf]; rfl
    rw [hfirst]
    exact get?_setup_first (hr.after hnot)
  | some first =>
    have hfirst : firstLevel before c = first.level := by rw [firstLevel, hf]; rfl
    obtain ⟨hname, as, bs, rfl, hnot⟩ := List.find?_eq_some_iff_append.1 hf
    have hname : first.name = c.name := of_decide_eq_true hname
    have hnot : ∀ b ∈ as, b.name ≠ c.name := by simpa using hnot
    -- the first call gives the logger its handler, which the calls after it leave
    have hgiven : ((r.after as).setup first.level first.name).get? c.name
        = some ⟨first.level, [first.level]⟩ := by
      rw [hname]
      exact get?_setup_first (hr.after hnot)
    obtain ⟨level, hkept⟩ := exists_get?_after hgiven bs
    rw [hfirst, after_append]
    exact get?_setup_again hkept

end Registry

/-! ### What comes out -/

/-- A record of a level comes out of a handler of a logger: it passes the levels of both. A logger of
level zero has none to pass, and records that are not above zero are not made. -/
def Logger.Emits (logger : Logger) (n : Int) : Prop :=
  0 < n ∧ logger.level ≠ 0 ∧ logger.level ≤ n ∧ ∃ handler ∈ logger.handlers, handler ≤ n

/-- The logger of a call has its level, and so has its only handler. -/
def Governs (r : Registry) (c : Setup) : Prop :=
  ∃ logger, r.get? c.name = some logger ∧ logger.level = c.level ∧ logger.handlers = [c.level]

/-- What a call does after others. -/
structure Setup.Effect (r : Registry) (before : List Setup) (c : Setup) : Prop where
  /-- The level of the call is the one that it asks for. -/
  asked : ∀ n, c.AsksFor n ↔ n = c.level
  /-- Its logger has that level, and one handler, which has the level of the first call for it. -/
  logger : (r.after (before ++ [c])).get? c.name = some ⟨c.level, [Registry.firstLevel before c]⟩
  /-- So the call governs exactly where the first one asked for the same level. -/
  governs_iff : Governs (r.after (before ++ [c])) c ↔ Registry.firstLevel before c = c.level
  /-- Records of its level come out exactly where the first call did not ask for a higher one. -/
  emits_iff : ∀ logger, (r.after (before ++ [c])).get? c.name = some logger →
    (logger.Emits c.level ↔ 0 < c.level ∧ Registry.firstLevel before c ≤ c.level)
  /-- Other loggers stay as they were. -/
  others : ∀ other, other ≠ c.name →
    (r.after (before ++ [c])).get? other = (r.after before).get? other

/-- **After each call its logger has the level of the call, and its handler that of the first call.** -/
theorem setup_effect {r : Registry} (hr : r.Bare) (before : List Setup) (c : Setup) :
    c.Effect r before := by
  have hlogger := Registry.get?_after hr before c
  refine ⟨fun n => c.asksFor_iff, hlogger, ?_, fun logger hl => ?_, fun other ho => ?_⟩
  · constructor
    · rintro ⟨logger, hl, -, hhandlers⟩
      cases hlogger.symm.trans hl
      exact (List.cons.inj hhandlers).1
    · intro hfirst
      exact ⟨_, hlogger, rfl, by rw [hfirst]⟩
  · cases hlogger.symm.trans hl
    constructor
    · rintro ⟨hpos, -, -, handler, hm, hle⟩
      exact ⟨hpos, List.mem_singleton.1 hm ▸ hle⟩
    · rintro ⟨hpos, hle⟩
      exact ⟨hpos, Int.ne_of_gt hpos, Int.le_refl _, _, List.mem_singleton_self _, hle⟩
  · rw [Registry.after_append]
    exact Registry.get?_setup_of_ne ho

/-- The loggers before any call: the outermost one, for warnings. -/
def outermost : Registry := Table.empty.insert "root" ⟨30, []⟩

/-- A call for warnings. -/
def warningSetup : Setup := ⟨some (.name "Warning"), some "app", "main"⟩

/-- A call of the same logger for more. -/
def debugSetup : Setup := ⟨some (.name "debug"), some "app", "main"⟩

/-- After a call for warnings, a call that asks for more does not govern: what it asks for does not come
out. -/
theorem setup_effect_lowered : outermost.Bare ∧ debugSetup.Effect outermost [warningSetup] ∧
    ¬ Governs (outermost.after ([warningSetup] ++ [debugSetup])) debugSetup ∧
    ∀ logger, (outermost.after ([warningSetup] ++ [debugSetup])).get? debugSetup.name = some logger →
      ¬ logger.Emits debugSetup.level := by
  have hbare : outermost.Bare := by
    intro name logger h
    have hm : (name, logger) ∈ [("root", (⟨30, []⟩ : Logger))] := Table.mem_of_find h
    rw [List.mem_singleton] at hm
    cases hm
    rfl
  have heffect := setup_effect hbare [warningSetup] debugSetup
  refine ⟨hbare, heffect, fun h => ?_, fun logger hl h => ?_⟩
  · exact absurd (heffect.governs_iff.1 h) (by decide)
  · exact absurd ((heffect.emits_iff logger hl).1 h).2 (by decide)

end ContentGraph.Log
