import ContentGraph.Proofs.Creation.Alone

/-!
# Independent creations commute

Calls that succeed alone and issue addresses at which nothing else stands do not get in each other's
way, in whatever order their steps are taken. The store only gains content, and the content at an
address is determined by the address. So what a call fetches is what it would fetch alone
(`Source.Answered.of_later`), and each step keeps the call on the way to what it comes to alone, with
the resources that it has stored so far (`Task.Step.fits`). A session is told by the resources that were
stored (`Session.Fits`), which at the end are those of all calls (`Session.Fits.of_over`).

Every order of steps comes to an end, at which all calls have returned what they return alone and
nothing depends on the order but the order of the writes (`commutes`).
-/

namespace ContentGraph

/-- The resources that some calls store, each alone with a store. -/
def resourcesOf (calls : List CreationCall) (start : Store) : List Resource :=
  calls.flatMap fun c => c.resources start

/-- Calls that do not get in each other's way. -/
structure Independent (calls : List CreationCall) (start : Store) : Prop where
  /-- Each succeeds alone. -/
  succeed : ∀ c ∈ calls, ∃ a, (c.alone start).1 = .ok a
  /-- What stands at an address that is issued stands at its own address: it was not put there by
  hand. -/
  issued : ∀ r ∈ resourcesOf calls start, ∀ text,
    start.contents.get? (r.address start.lead) = some text →
    contentAddress start.lead text = r.address start.lead
  /-- No two texts that are in the store or to be stored have one digest. -/
  noCollision : NoCollision
    (start.contents.values ++ (resourcesOf calls start).map Resource.canonicalText)

variable {calls : List CreationCall} {start : Store}

namespace Independent

variable {log log' : List Resource} {address text : String}

/-- What stands at the address of a resource of the calls is its text. -/
theorem text_eq (hi : Independent calls start) {r : Resource} (hr : r ∈ resourcesOf calls start)
    (h : start.contents.get? (r.address start.lead) = some text) : r.canonicalText = text := by
  have hown : contentAddress start.lead text = r.address start.lead := hi.issued r hr text h
  have hstands : text ∈ start.contents.values :=
    List.mem_map.2 ⟨_, Table.get?_eq_some_iff.1 h, rfl⟩
  exact (hi.noCollision text (List.mem_append_left _ hstands) r.canonicalText
    (List.mem_append_right _ (List.mem_map_of_mem hr)) (hex_eq_of_contentAddress_eq hown)).symm

/-- Resources of the calls with one address have one text. -/
theorem text_congr (hi : Independent calls start) {r r' : Resource} (hr : r ∈ resourcesOf calls start)
    (hr' : r' ∈ resourcesOf calls start) (h : r.address start.lead = r'.address start.lead) :
    r.canonicalText = r'.canonicalText :=
  hi.noCollision _ (List.mem_append_right _ (List.mem_map_of_mem hr)) _
    (List.mem_append_right _ (List.mem_map_of_mem hr')) (hex_eq_of_contentAddress_eq h)

/-- What stands in the store stays, whichever resources of the calls are stored. -/
theorem kept (hi : Independent calls start) (hl : log ⊆ resourcesOf calls start)
    (h : start.contents.get? address = some text) :
    (start.saveEach log).contents.get? address = some text := by
  refine Store.get?_saveEach start log (fun r hr he => ?_) (.inl h)
  subst he
  exact hi.text_eq (hl hr) h

/-- What can be fetched at the start can be fetched whichever resources of the calls are stored. -/
theorem keeps (hi : Independent calls start) (hl : log ⊆ resourcesOf calls start) :
    (Gateway.ofStore start).source.Keeps (Gateway.ofStore (start.saveEach log)).source := by
  intro address r hr
  have hfetch : (Gateway.ofStore start).fetch address = .ok r := hr
  cases ht : start.contents.get? address with
  | none =>
    have hnone : (Gateway.ofStore start).store.contents.get? address = none := ht
    rw [Gateway.fetch, hnone] at hfetch
    cases hfetch
  | some text =>
    have hsame : (Gateway.ofStore (start.saveEach log)).store.contents.get? address
        = (Gateway.ofStore start).store.contents.get? address := (hi.kept hl ht).trans ht.symm
    have hcongr : (Gateway.ofStore (start.saveEach log)).fetch address
        = (Gateway.ofStore start).fetch address := Gateway.fetch_congr rfl hsame
    exact hcongr.trans hfetch

/-- What stands at an address does not depend on the order in which resources are stored. -/
theorem contents_congr (hi : Independent calls start) (hl : log ⊆ resourcesOf calls start)
    (hsame : ∀ r, r ∈ log ↔ r ∈ log') (address : String) :
    (start.saveEach log).contents.get? address = (start.saveEach log').contents.get? address := by
  by_cases h : ∃ r ∈ log, r.address start.lead = address
  · obtain ⟨r, hr, he⟩ := h
    have hone : ∀ other ∈ log, other.address start.lead = address →
        other.canonicalText = r.canonicalText :=
      fun other ho hother => hi.text_congr (hl ho) (hl hr) (hother.trans he.symm)
    rw [Store.get?_saveEach start log hone (.inr ⟨r, hr, he⟩),
      Store.get?_saveEach start log' (fun other ho => hone other ((hsame other).2 ho))
        (.inr ⟨r, (hsame r).1 hr, he⟩)]
  · have hno : ∀ r ∈ log, r.address start.lead ≠ address := fun r hr he => h ⟨r, hr, he⟩
    rw [Store.get?_saveEach_of_ne start log hno,
      Store.get?_saveEach_of_ne start log' fun r hr => hno r ((hsame r).2 hr)]

end Independent

/-! ### Tasks on their way -/

/-- A call is on the way to what it comes to alone, and has stored some resources so far. -/
inductive Task.Fits (start : Store) (c : CreationCall) : Task → List Resource → Prop
  /-- It resolves a list of addresses that resolves at the start, and goes on as at the start. -/
  | resolving {version : String} {plan : Plan} {d : Document} {asked : List String} {set : Table Schema}
      {us : List Unfolding} {next : Table Schema → Asking (Except Fault Plan)} :
      c.Writes start version plan d → (Gateway.ofStore start).source.Comes asked (.running us) →
      (Gateway.ofStore start).source.resolve asked = .ok set →
      (next set).answered (Gateway.ofStore start).source = .ok (.ok plan) →
      Task.Fits start c (.resolving version us next) []
  /-- It carries out its plan. -/
  | writing {version : String} {plan : Plan} {d : Document} {job : Job} {ds : List Document} :
      c.Writes start version plan d → Job.Carries start.lead version false plan job ds →
      Task.Fits start c (.writing version job) (ds.map .document)
  /-- It has stored all but the last of its resources. -/
  | storing {r : Resource} {below : List Resource} : (c.resources start).getLast? = some r →
      (below ++ [r]).Perm (c.resources start) → Task.Fits start c (.storing r) below
  /-- It has stored its resources, and has returned the address of the last. -/
  | returned {r : Resource} {own : List Resource} : (c.resources start).getLast? = some r →
      own.Perm (c.resources start) → Task.Fits start c (.returned (r.address start.lead)) own

/-- What a step leaves for a call to do. -/
inductive Task.Descends (source : Source) : Task → Task → Prop
  /-- A fetch less. -/
  | answer {version : String} {us us' : List Unfolding} {next : Table Schema → Asking (Except Fault Plan)} :
      source.Answered us us' → Descends source (.resolving version us next) (.resolving version us' next)
  /-- A list of addresses less. -/
  | resolved {version : String} {us : List Unfolding} {next : Table Schema → Asking (Except Fault Plan)}
      (set : Table Schema) : Descends source (.resolving version us next) (.ofPlanning version (next set))
  /-- Fewer turns. -/
  | move {version : String} {job job' : Job} : job'.turns < job.turns →
      Descends source (.writing version job) (.writing version job')
  /-- What is created has still to be stored. -/
  | built {version : String} {job : Job} {r : Resource} :
      Descends source (.writing version job) (.storing r)
  /-- Nothing. -/
  | store {r : Resource} {address : String} : Descends source (.storing r) (.returned address)

namespace Task

variable {c : CreationCall} {task task' : Task} {own : List Resource} {store store' : Store}

theorem fits_ofPlanning {version : String} {plan : Plan} {d : Document} {x : Asking (Except Fault Plan)}
    (hw : c.Writes start version plan d)
    (hx : x.answered (Gateway.ofStore start).source = .ok (.ok plan)) :
    Fits start c (.ofPlanning version x) [] := by
  cases x with
  | done outcome =>
    cases hx
    exact .writing hw .planned
  | ask addresses next =>
    obtain ⟨set, hr, hnext⟩ := Asking.exists_resolve hx
    exact .resolving hw .refl hr hnext

/-- A call that succeeds alone begins on its way. -/
theorem fits_begun {a : String} (h : (c.alone start).1 = .ok a) : Fits start c (c.begun start) [] := by
  cases c with
  | schema s input =>
    obtain ⟨r, hd, hs⟩ := CreationCall.succeeds_schema h
    rw [CreationCall.begun, hd]
    exact .storing hs.last (List.Perm.of_eq (by rw [CreationCall.resources, hd]; rfl))
  | «alias» s input =>
    obtain ⟨r, hd, hs⟩ := CreationCall.succeeds_alias h
    rw [CreationCall.begun, hd]
    exact .storing hs.last (List.Perm.of_eq (by rw [CreationCall.resources, hd]; rfl))
  | document s payload addresses validator =>
    obtain ⟨graph, plan, d, hg, hp, hw, -⟩ := CreationCall.succeeds_document h
    refine fits_ofPlanning hw ?_
    cases validator with
    | some given =>
      cases hg
      rw [planning, Asking.answered, hp]
    | none =>
      have hcompiled := Source.answered_compiling (show (Gateway.ofStore start).source.compile
        s.hashLength.digits addresses = .ok graph from hg)
      rw [planning, Asking.answered_bind hcompiled, Asking.answered, hp]

/-- **A step keeps a call on its way** and adds to what it has stored, where the store holds what it
held at the start. -/
theorem Step.fits (h : Step store task task' store') (hf : Fits start c task own)
    (hk : (Gateway.ofStore start).source.Keeps (Gateway.ofStore store).source)
    (hl : store.lead = start.lead) : ∃ added own', store' = store.saveEach added ∧
      Fits start c task' own' ∧ own'.Perm (own ++ added) ∧
      Descends (Gateway.ofStore start).source task task' := by
  cases h with
  | answer ha =>
    obtain @⟨version, plan, d, asked, set, us, next, hw, hc, hr, hnext⟩ := hf
    obtain ⟨hu⟩ := hc.fits
    have hstart := ha.of_later hk hr hu
    exact ⟨[], [], rfl, .resolving hw (hc.tail (.answer hstart)) hr hnext, List.Perm.refl _, .answer hstart⟩
  | resolved hleaves =>
    obtain @⟨version, plan, d, asked, set, us, next, hw, hc, hr, hnext⟩ := hf
    cases (Source.comes_returned_iff.1 (hc.tail (.return hleaves))).symm.trans hr
    exact ⟨[], [], rfl, fits_ofPlanning hw hnext, List.Perm.refl _, .resolved _⟩
  | unresolved hfails =>
    obtain @⟨version, plan, d, asked, set, us, next, hw, hc, hr, hnext⟩ := hf
    obtain ⟨hu⟩ := hc.fits
    obtain ⟨depth, hd⟩ := hu.mem_failuresOf hfails 0
    rw [Source.failuresOf_of_resolve hr] at hd
    cases hd
  | @move version job sub m place hat hready =>
    obtain - | @⟨_, plan, d, _, ds, hw, hc⟩ := hf
    have hm := Job.movedAt_moveAt version (.ofStore store) m place false job
    have hturns := hm.turns_lt hat hready
    rw [Job.snd_moveAt, Gateway.after_ofStore]
    obtain ⟨ds', hc', hperm⟩ := hm.carries hl hc hw.realised
    refine ⟨_, ds'.map .document, rfl, .writing hw hc', ?_, .move hturns⟩
    rw [← List.map_append]
    exact hperm.map _
  | built =>
    obtain - | @⟨_, plan, d, _, ds, hw, hc⟩ := hf
    cases hc with
    | built hd =>
      cases hd.symm.trans hw.realised
      refine ⟨[], _, rfl, .storing hw.last ?_, by rw [List.append_nil], .built⟩
      rw [hw.resources, Plan.documents, hd, List.map_append]
      exact List.Perm.refl _
  | @store r =>
    obtain - | - | @⟨_, below, hlast, hperm⟩ := hf
    refine ⟨[r], own ++ [r], rfl, ?_, List.Perm.refl _, .store⟩
    rw [Store.address_save, hl]
    exact .returned hlast hperm

/-- A call that is on its way can take a step unless it has returned. -/
theorem Fits.exists_step (h : Fits start c task own) (store : Store) :
    (∃ task' store', Step store task task' store') ∨ ∃ a, task = .returned a := by
  cases h with
  | resolving hw hc hr hnext =>
    refine .inl ?_
    obtain ⟨state, hs⟩ := hc.exists_step
    cases hs with
    | answer ha =>
      obtain ⟨us, ha⟩ := ha.exists_later (Gateway.ofStore store).source
      exact ⟨_, _, .answer ha⟩
    | «raise» hf => exact ⟨_, _, .unresolved hf⟩
    | «return» hl => exact ⟨_, _, .resolved hl⟩
  | @writing version plan d job ds hw hc =>
    refine .inl ?_
    by_cases hdone : job.isDone = false
    · obtain ⟨m, place, sub, hat, hready⟩ := hc.exists_ready hdone
      exact ⟨_, _, .move hat hready⟩
    · cases hc with
      | built _ => exact ⟨_, _, .built⟩
      | _ => exact absurd rfl hdone
  | storing _ _ => exact .inl ⟨_, _, .store⟩
  | returned _ _ => exact .inr ⟨_, rfl⟩

/-- What a call has stored so far is among its resources. -/
theorem Fits.subset (h : Fits start c task own) : own ⊆ c.resources start := by
  cases h with
  | resolving _ _ _ _ => exact List.nil_subset _
  | writing hw hc =>
    rw [hw.resources]
    exact List.map_subset _ hc.subset
  | storing _ hperm => exact fun r hr => hperm.subset (List.mem_append_left _ hr)
  | returned _ hperm => exact hperm.subset

/-! ### Every call comes to an end -/

variable {source : Source}

theorem acc_returned (address : String) : Acc (flip (Descends source)) (.returned address) :=
  ⟨_, fun _ h => by cases h⟩

theorem acc_storing (r : Resource) : Acc (flip (Descends source)) (.storing r) := by
  refine ⟨_, fun _ h => ?_⟩
  cases h with
  | store => exact acc_returned _

theorem acc_writing (version : String) (job : Job) : Acc (flip (Descends source)) (.writing version job) := by
  induction hn : job.turns using Nat.strongRecOn generalizing job with
  | _ n ih =>
    subst hn
    refine ⟨_, fun _ h => ?_⟩
    cases h with
    | move hlt => exact ih _ hlt _ rfl
    | built => exact acc_storing _

/-- However many lists a call asks for, each is answered in finitely many steps. -/
theorem acc_ofPlanning (version : String) (x : Asking (Except Fault Plan)) :
    Acc (flip (Descends source)) (.ofPlanning version x) := by
  induction x with
  | done outcome =>
    cases outcome with
    | ok plan => exact acc_writing version _
    | error fault => exact ⟨_, fun _ h => by cases h⟩
  | ask addresses next ih =>
    have hacc : Acc (flip source.Answered) (addresses.map (.pending [])) := Source.acc_begun
    show Acc _ (Task.resolving version (addresses.map (.pending [])) next)
    generalize addresses.map (Unfolding.pending []) = us at hacc
    induction hacc with
    | intro us _ ihus =>
      refine ⟨_, fun _ h => ?_⟩
      cases h with
      | answer ha => exact ihus _ ha
      | resolved set => exact ih set

theorem acc_begun (c : CreationCall) (store : Store) : Acc (flip (Descends source)) (c.begun store) := by
  cases c with
  | schema s input =>
    rw [CreationCall.begun]
    cases describedSchema s input with
    | ok r => exact acc_storing r
    | error fault => exact ⟨_, fun _ h => by cases h⟩
  | «alias» s input =>
    rw [CreationCall.begun]
    cases describedAlias s input with
    | ok r => exact acc_storing r
    | error fault => exact ⟨_, fun _ h => by cases h⟩
  | document s payload addresses validator => exact acc_ofPlanning _ _

end Task

/-! ### Sessions -/

/-- Replacing one of several lists by more of it. -/
theorem perm_flatMap_set {α β : Type} {as : List (α × List β)} {n : ℕ} {a a' : α}
    {bs bs' added : List β} (h : as[n]? = some (a, bs)) (hp : bs'.Perm (bs ++ added)) :
    ((as.set n (a', bs')).flatMap Prod.snd).Perm (as.flatMap Prod.snd ++ added) := by
  induction as generalizing n with
  | nil => cases h
  | cons first as ih =>
    cases n with
    | zero =>
      cases h
      rw [List.set_cons_zero, List.flatMap_cons, List.flatMap_cons]
      refine (hp.append_right _).trans ?_
      rw [List.append_assoc, List.append_assoc]
      exact List.perm_append_comm.append_left bs
    | succ n =>
      rw [List.set_cons_succ, List.flatMap_cons, List.flatMap_cons, List.append_assoc]
      exact (ih h).append_left _

namespace Session

/-- All calls of a session are on their way, and the store has what they have stored, in some order. -/
structure Fits (calls : List CreationCall) (start : Store) (session : Session)
    (ts : List (Task × List Resource)) (log : List Resource) : Prop where
  /-- Where the calls stand. -/
  tasks_eq : session.tasks = ts.map Prod.fst
  /-- They are on their way. -/
  tasks : List.Forall₂ (fun c t => Task.Fits start c t.1 t.2) calls ts
  /-- What is stored. -/
  store_eq : session.store = start.saveEach log
  /-- It is what the calls have stored. -/
  log : log.Perm (ts.flatMap Prod.snd)

variable {session next : Session} {ts : List (Task × List Resource)} {log : List Resource}

theorem Fits.subset (h : Fits calls start session ts log) : log ⊆ resourcesOf calls start := by
  intro r hr
  obtain ⟨t, ht, hr⟩ := List.mem_flatMap.1 (h.log.subset hr)
  obtain ⟨c, hc, hf⟩ := exists_of_mem_right h.tasks t ht
  exact List.mem_flatMap.2 ⟨c, hc, hf.subset hr⟩

theorem fits_begun (hi : Independent calls start) :
    Fits calls start (begun calls start) (calls.map fun c => (c.begun start, [])) [] where
  tasks_eq := by
    rw [List.map_map]
    rfl
  tasks := by
    rw [List.forall₂_map_right_iff, List.forall₂_same]
    intro c hc
    obtain ⟨a, ha⟩ := hi.succeed c hc
    exact Task.fits_begun ha
  store_eq := rfl
  log := by
    rw [List.flatMap_map]
    simp

/-- **A step of any of the calls keeps all of them on their way.** -/
theorem Step.fits (hi : Independent calls start) (h : session.Step next)
    (hf : Fits calls start session ts log) : ∃ ts' log', Fits calls start next ts' log' ∧
      StepsIn (Task.Descends (Gateway.ofStore start).source) session.tasks next.tasks := by
  obtain @⟨tasks, store, store', n, task, task', htask, hstep⟩ := h
  obtain ⟨htasks, hfits, hstore, hlog⟩ := id hf
  dsimp only at htasks hstore
  subst htasks hstore
  rw [List.getElem?_map] at htask
  obtain ⟨⟨_, own⟩, hn, rfl⟩ := Option.map_eq_some_iff.1 htask
  obtain ⟨hlength, hat⟩ := forall₂_iff_getElem?.1 hfits
  have hlt : n < calls.length := hlength ▸ (List.getElem?_eq_some_iff.1 hn).1
  have hc : calls[n]? = some calls[n] := List.getElem?_eq_getElem hlt
  obtain ⟨added, own', rfl, hfit, hperm, hdescends⟩ :=
    hstep.fits (hat n _ _ hc hn) (hi.keeps hf.subset) (Store.lead_saveEach _ _)
  refine ⟨ts.set n (task', own'), log ++ added, ⟨?_, ?_, ?_, ?_⟩, n, _, task', ?_, hdescends, rfl⟩
  · show (ts.map Prod.fst).set n task' = _
    rw [List.map_set]
  · refine forall₂_iff_getElem?.2 ⟨by rw [List.length_set, hlength], fun k c t hk ht => ?_⟩
    by_cases he : n = k
    · subst he
      cases hc.symm.trans hk
      rw [List.getElem?_set_self (hlength ▸ hlt)] at ht
      cases ht
      exact hfit
    · rw [List.getElem?_set_ne he] at ht
      exact hat k c t hk ht
  · exact (Store.saveEach_append start log added).symm
  · exact (hlog.append_right added).trans (perm_flatMap_set hn hperm).symm
  · rw [List.getElem?_map, hn]
    rfl

theorem Reaches.fits (hi : Independent calls start) (h : Reaches calls start session) :
    ∃ ts log, Fits calls start session ts log := by
  induction h with
  | refl => exact ⟨_, _, fits_begun hi⟩
  | tail _ hs ih =>
    obtain ⟨ts, log, hf⟩ := ih
    obtain ⟨ts', log', hf', -⟩ := hs.fits hi hf
    exact ⟨ts', log', hf'⟩

/-- A session comes to an end where its tasks do. -/
theorem Fits.acc (hi : Independent calls start) {tasks : List Task}
    (h : Acc (flip (StepsIn (Task.Descends (Gateway.ofStore start).source))) tasks)
    (hf : Fits calls start session ts log) (ht : session.tasks = tasks) : Acc (flip Step) session := by
  induction h generalizing session ts log with
  | intro tasks _ ih =>
    subst ht
    refine ⟨_, fun next hs => ?_⟩
    obtain ⟨ts', log', hf', hsteps⟩ := hs.fits hi hf
    exact ih _ hsteps hf' rfl

/-- What every order of steps comes to. -/
theorem Fits.of_over (hf : Fits calls start session ts log) (ho : session.Over) :
    List.Forall₂ (fun c task => ∃ r, (c.resources start).getLast? = some r ∧
      task = .returned (r.address start.lead)) calls session.tasks ∧
      log.Perm (resourcesOf calls start) := by
  obtain ⟨tasks, store⟩ := session
  obtain ⟨htasks, hfits, hstore, hlog⟩ := hf
  dsimp only at htasks
  subst htasks
  have hreturned : ∀ t ∈ ts, ∃ a, t.1 = .returned a := by
    intro t ht
    obtain ⟨n, hn⟩ := List.getElem?_of_mem ht
    obtain ⟨c, -, hfit⟩ := exists_of_mem_right hfits t ht
    rcases hfit.exists_step store with ⟨task', store', hs⟩ | hr
    · have htask : (ts.map Prod.fst)[n]? = some t.1 := by
        rw [List.getElem?_map, hn]
        rfl
      exact absurd (Step.task htask hs) (ho _)
    · exact hr
  have hdone : List.Forall₂ (fun c t => ∃ r, (c.resources start).getLast? = some r ∧
      t.1 = .returned (r.address start.lead) ∧ t.2.Perm (c.resources start)) calls ts := by
    refine forall₂_iff_getElem?.2 ⟨hfits.length_eq, fun n c t hc ht => ?_⟩
    have hfit := (forall₂_iff_getElem?.1 hfits).2 n c t hc ht
    obtain ⟨a, ha⟩ := hreturned t (List.mem_of_getElem? ht)
    obtain ⟨task, own⟩ := t
    cases ha
    cases hfit with
    | returned hlast hperm => exact ⟨_, hlast, rfl, hperm⟩
  constructor
  · rw [List.forall₂_map_right_iff]
    exact hdone.imp fun c t ⟨r, hlast, hr, _⟩ => ⟨r, hlast, hr⟩
  · refine hlog.trans ?_
    unfold resourcesOf
    clear ho hreturned hfits hlog hstore
    induction hdone with
    | nil => exact List.Perm.refl _
    | cons hfirst _ ih =>
      obtain ⟨_, _, _, hperm⟩ := hfirst
      rw [List.flatMap_cons, List.flatMap_cons]
      exact hperm.append ih

end Session

/-! ### The contract of independent creations -/

/-- What is asked of calls that are carried out at the same time. -/
structure Commute (calls : List CreationCall) (start : Store) : Prop where
  /-- No order of steps goes on for ever. -/
  ends : Acc (flip Session.Step) (.begun calls start)
  /-- At the end each call has returned, with the address that it returns alone. -/
  returned : ∀ session, Session.Reaches calls start session → session.Over →
    List.Forall₂ (fun c task => ∃ a, (c.alone start).1 = .ok a ∧ task = .returned a) calls session.tasks
  /-- What stands at each address at the end does not depend on the order. -/
  contents : ∀ session session', Session.Reaches calls start session → session.Over →
    Session.Reaches calls start session' → session'.Over →
    ∀ address, session.store.contents.get? address = session'.store.contents.get? address
  /-- At every moment, what stood in the store at the start is fetched as it was. -/
  kept : ∀ session, Session.Reaches calls start session → ∀ address,
    start.contents.contains address = true → session.store.fetch? address = start.fetch? address
  /-- At the end what was written are the writes that each call makes alone, in some order. -/
  written : ∀ session, Session.Reaches calls start session → session.Over →
    session.store.written.Perm (start.written ++ calls.flatMap fun c => c.ownWrites start)
  /-- Each call writes once for a schema or an alias, and once for each payload object. -/
  counted : ∀ c ∈ calls, (c.ownWrites start).length = c.count start

theorem Independent.succeeds (hi : Independent calls start) {c : CreationCall} (hc : c ∈ calls) :
    ∃ r, c.Succeeds start r := by
  obtain ⟨a, ha⟩ := hi.succeed c hc
  cases c with
  | schema s input =>
    obtain ⟨r, -, hs⟩ := CreationCall.succeeds_schema ha
    exact ⟨r, hs⟩
  | «alias» s input =>
    obtain ⟨r, -, hs⟩ := CreationCall.succeeds_alias ha
    exact ⟨r, hs⟩
  | document s payload addresses validator =>
    obtain ⟨_, _, d, -, -, -, hs⟩ := CreationCall.succeeds_document ha
    exact ⟨_, hs⟩

/-- **Independent creations commute.** -/
theorem commutes (hi : Independent calls start) : Commute calls start where
  ends := by
    refine Session.Fits.acc hi (acc_stepsIn fun task ht => ?_) (Session.fits_begun hi) rfl
    obtain ⟨c, -, rfl⟩ := List.mem_map.1 ht
    exact Task.acc_begun c start
  returned := by
    intro session hr ho
    obtain ⟨ts, log, hf⟩ := hr.fits hi
    obtain ⟨hreturned, -⟩ := hf.of_over ho
    refine forall₂_iff_getElem?.2 ⟨hreturned.length_eq, fun n c task hc ht => ?_⟩
    obtain ⟨r, hlast, htask⟩ := (forall₂_iff_getElem?.1 hreturned).2 n c task hc ht
    obtain ⟨r', hs⟩ := hi.succeeds (List.mem_of_getElem? hc)
    cases hlast.symm.trans hs.last
    exact ⟨_, hs.outcome, htask⟩
  contents := by
    intro session session' hr ho hr' ho' address
    obtain ⟨ts, log, hf⟩ := hr.fits hi
    obtain ⟨ts', log', hf'⟩ := hr'.fits hi
    rw [hf.store_eq, hf'.store_eq]
    refine hi.contents_congr hf.subset (fun r => ?_) address
    rw [(hf.of_over ho).2.mem_iff, (hf'.of_over ho').2.mem_iff]
  kept := by
    intro session hr address hc
    obtain ⟨ts, log, hf⟩ := hr.fits hi
    obtain ⟨text, ht⟩ := Table.mem_keys_iff.1 (Table.contains_iff.1 hc)
    rw [Store.fetch?, Store.fetch?, hf.store_eq, hi.kept hf.subset ht, ht]
  written := by
    intro session hr ho
    obtain ⟨ts, log, hf⟩ := hr.fits hi
    rw [hf.store_eq, Store.written_saveEach]
    refine List.Perm.append_left _ (((hf.of_over ho).2.map _).trans ?_)
    rw [resourcesOf, List.map_flatMap]
    refine List.Perm.flatMap_left _ fun c hc => ?_
    obtain ⟨r, hs⟩ := hi.succeeds hc
    exact hs.written.symm
  counted := by
    intro c hc
    obtain ⟨r, hs⟩ := hi.succeeds hc
    rw [hs.written.length_eq, List.length_map, hs.count]

/-- Calls that create a schema, an alias of the schema of peers, and a document with a peer. -/
def peerCalls : List CreationCall :=
  [.schema .default (.object [("name", .text "Post"), ("strings", .list [.object [("key", .text "title")]])]),
    .alias .default (.object [("name", .text "Peers"), ("schemas", .texts ["p"])]),
    .document .default peerPayload ["p"] none]

theorem commutes_peers : Independent peerCalls peerStore ∧ Commute peerCalls peerStore := by
  have hrun : (peerCalls.all fun c => (c.alone peerStore).1.toOption.isSome) &&
      ((resourcesOf peerCalls peerStore).all fun r =>
        (peerStore.contents.get? (r.address peerStore.lead)).all fun text =>
          contentAddress peerStore.lead text = r.address peerStore.lead) &&
      decide ((peerStore.contents.values ++
        (resourcesOf peerCalls peerStore).map Resource.canonicalText).map Sha256.hex).Nodup = true := by
    decide +kernel
  simp only [Bool.and_eq_true, List.all_eq_true, decide_eq_true_eq] at hrun
  obtain ⟨⟨hsucceed, hissued⟩, hnodup⟩ := hrun
  have hi : Independent peerCalls peerStore := by
    refine ⟨fun c hc => ?_, fun r hr text ht => ?_, noCollision_of_nodup hnodup⟩
    · have hsome := hsucceed c hc
      cases ha : (c.alone peerStore).1 with
      | ok a => exact ⟨a, rfl⟩
      | error fault =>
        rw [ha] at hsome
        cases hsome
    · have hall := hissued r hr
      rw [ht] at hall
      exact of_decide_eq_true hall
  exact ⟨hi, commutes hi⟩

end ContentGraph
