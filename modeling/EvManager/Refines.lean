import EvManager.Tasks

/-!
# The program refines the task machine

Issuing requests leaves coroutines and tasks alone, a dispatch wakes a coroutine that waits for it, and
**`step_tasks`**: every step of the program is one step of the machine, with the label that the choice tells.
-/

namespace EvManager

open Lib State

namespace State

variable {s s' : State}

/-! ### Issuing requests -/

theorem tasks_getUringSqe {p : Purpose} {x : Option ℕ} (hs : s.getUringSqe p = .ok (x, s')) : s'.tasks = s.tasks := by
  rcases getUringSqe_ok hs with ⟨-, -, rfl⟩ | ⟨j, ring, -, -, -, -, rfl⟩
  · rfl
  · exact tasks_setRing ring

theorem tasks_submit {ret : ℤ} (hs : s.submitQueuedEntries ret = .ok s') : s'.tasks = s.tasks := by
  obtain ⟨-, -, -, rfl⟩ := submitQueuedEntries_ok hs
  exact tasks_modEv rfl

theorem tasks_reqs {reqs : ReqId → Request} {n : ℕ} : State.tasks { s with reqs, nextReq := n } = s.tasks := by
  refine tasks_eq (fun _ => .refl _) rfl rfl rfl ?_ rfl rfl
  funext t
  cases t <;> rfl

theorem tasks_ioOp {ctx : Option CoroId} {p : ParameterPack} {r : ReqId} (hs : s.ioOp ctx p = .ok (r, s')) :
    s'.tasks = s.tasks := by
  obtain ⟨-, -, sqe, s1, h1, rfl⟩ := ioOp_ok hs
  have h2 : (s1.newReq (.awaitable ctx p sqe)).2.tasks = s.tasks := tasks_reqs.trans (tasks_getUringSqe h1)
  cases ctx with
  | none => exact h2
  | some c => exact (tasks_modCoro ⟨rfl, rfl, rfl, rfl⟩).trans h2

theorem tasks_na {p : ParameterPack} {ret : ℤ} {e : Errnos} (hs : s.naOp p ret = .ok (e, s')) : s'.tasks = s.tasks := by
  rcases naOp_ok hs with ⟨-, -, rfl⟩ | ⟨-, j, ring, s2, -, h2, hcase⟩
  · rfl
  · have h3 : s2.tasks = s.tasks := (tasks_submit h2).trans (tasks_setRing ring)
    rcases hcase with ⟨-, -, rfl⟩ | ⟨-, -, rfl⟩
    · exact (tasks_log_other (s := { s2 with reqs := _, nextReq := _ }) rfl).trans (tasks_reqs.trans h3)
    · exact (tasks_log_other (s := { s2 with reqs := _, nextReq := _ }) rfl).trans (tasks_reqs.trans h3)

theorem tasks_processRequests {h : CoroId} {l : List (ParameterPack × ReqId)} :
    ∀ {s s' : State}, s.processRequests h l = .ok s' → s'.tasks = s.tasks := by
  induction l with
  | nil =>
    intro s s' hs
    cases hs
    rfl
  | cons x l ih =>
    intro s s' hs
    obtain ⟨req, r⟩ := x
    obtain ⟨⟨b, s1⟩, h1, h2⟩ := bind_ok.mp hs
    rw [ih h2]
    rcases processSingleGenericRequest_ok h1 with ⟨-, -, rfl⟩ | ⟨-, -, -, j, ring, -, rfl⟩
    · rfl
    · rw [tasks_modReq, tasks_setRing]

theorem tasks_newVector (h : CoroId) (n : ℕ) : (s.newVector h n).2.tasks = s.tasks :=
  tasks_reqs.trans (tasks_modCoro ⟨rfl, rfl, rfl, rfl⟩)

theorem tasks_awaitIo (hp : Placed s) {h : CoroId} {r : ReqId} {rest : List Activation} (hst : s.stack = .run h :: rest)
    (hs : s.awaitIo h r = .ok s') : TaskStep s.tasks (.event h) s'.tasks := by
  rcases awaitIo_ok hs with ⟨-, ⟨-, rfl⟩ | ⟨j, -, -, -, rfl⟩⟩
  · have heq : (s.ioReturn h r).tasks = s.tasks := by
      unfold ioReturn
      simp only
      rw [tasks_log_other rfl, tasks_modReq]
      exact tasks_modCoro ⟨rfl, rfl, rfl, rfl⟩
    rw [heq]
    exact .idle (.inr (.inr ⟨h, rfl⟩))
  · rw [tasks_push_loop rfl]
    generalize hs1 : ((s.modReq r fun q => { q with data := q.data.await h (s.coros h).promise }).writeSqe j
      fun x => (x.prep (prepareSqringOp (s.reqs r).data.specificData)).setData (some r)) = s1
    have hst1 : s1.stack = .run h :: rest := by rw [← hs1]; exact hst
    have htasks : s1.tasks = s.tasks := by
      rw [← hs1]
      exact (tasks_setRing _).trans (tasks_modReq ..)
    obtain ⟨hcalls, hsus⟩ := tasks_suspend (p := .atIo r) hst1
    rw [hsus, htasks]
    rw [htasks] at hcalls
    exact .event hcalls (hp.place_of_top hst)

/-! ### Dispatch -/

/-- Who is resumed for a request waits for one. -/
theorem place_of_resumed (hr : Records s) {r : ReqId} {h : CoroId} {cause : Option ReqId} (hserves : s.Serves r h)
    (hs : s.resume h cause = .ok s') : (∃ r, (s.coros h).place = .atIo r) ∨ (s.coros h).place = .atGeneric := by
  obtain ⟨hi, ht⟩ := Coherent.place_of_serves hr hserves
  have hfits := hr.fits h
  unfold State.resume at hs
  cases hp : (s.coros h).place with
  | initial => exact absurd hp hi
  | running | final | gone =>
    rw [hp] at hs
    cases hs
  | atIo r => exact .inl ⟨r, rfl⟩
  | atTask t c b => exact absurd hp (ht t c b)
  | atGeneric => exact .inr rfl
  | atAlways =>
    -- only `kill_internal` is there, which nothing serves
    rw [hp] at hfits
    simp only [Body.fits, decide_eq_true_eq] at hfits
    unfold State.Serves at hserves
    split at hserves
    · rw [hserves.2] at hp
      cases hp
    · obtain ⟨-, -, ⟨q, hq⟩, -⟩ := hserves
      rw [hfits] at hq
      cases hq
    · obtain ⟨-, hq, -⟩ := hserves
      rw [hfits] at hq
      cases hq

theorem tasks_eventHandler (hc : Coherent s) {res : ℤ} {x : Option ReqId} {base : Addr}
    (hs : s.eventHandler res x base = .ok s') : TaskStep s.tasks .tau s'.tasks := by
  unfold State.eventHandler at hs
  split at hs
  · cases hs
    exact .idle (.inl rfl)
  · rename_i r
    simp only at hs
    split at hs
    · rename_i hl
      split at hs
      · cases hs
        rw [tasks_modEv rfl]
        exact .idle (.inl rfl)
      · rename_i h hh
        obtain ⟨pack, -, h1⟩ := bind_ok.mp hs
        generalize hs1 : (((s.modPromise h fun p => { p with comData := p.comData.publishRespData pack }).log
          (.resumed r h res pack)).push (.eventHandler r h)) = s1 at h1
        have htasks : s1.tasks = s.tasks := by
          rw [← hs1, tasks_push_loop rfl, tasks_log_other rfl]
          exact tasks_modCoro ⟨rfl, rfl, rfl, rfl⟩
        have hplace : (s1.coros h).place = (s.coros h).place := congrFun (congrArg Tasks.place htasks) h
        have hrec : Records s1 := by
          rw [← hs1]
          exact ((hc.records.modPromise h _).log _).push _
        have hserves := hrec.serves r h (by rw [← hs1]; exact hl) (by rw [← hs1]; exact hh)
        have hp := place_of_resumed hrec hserves h1
        rw [tasks_wake hp h1, htasks]
        rw [hplace] at hp
        exact .wake hp
    · cases hs

theorem tasks_awaitMessage (hc : Coherent s) {base : Addr} (hs : s.awaitMessage base = .ok s') :
    TaskStep s.tasks .tau s'.tasks := by
  have hpush : (s.push .awaitWait).tasks = s.tasks := tasks_push_loop rfl
  unfold State.awaitMessage at hs
  simp only at hs
  split at hs
  · rename_i res r ready p hready hpoll
    have h1 := tasks_eventHandler (hc.parked hready hpoll) hs
    rw [tasks_modReq, tasks_modEv rfl, hpush] at h1
    exact h1
  · cases hs
    rw [hpush]
    exact .idle (.inl rfl)

theorem tasks_awaitCqe (hc : Coherent s) {i : ℕ} {res : ℤ} {base : Addr} {rest : List Activation}
    (hst : s.stack = .awaitWait :: rest) (hs : s.awaitCqe i res base = .ok s') : TaskStep s.tasks .tau s'.tasks := by
  have hreaped : ((s.pop.push .awaitSeen).setRing (s.ev.ring.reap i)).tasks = s.tasks :=
    (tasks_setRing _).trans ((tasks_push_loop rfl).trans (tasks_pop_loop hst rfl))
  unfold State.awaitCqe at hs
  split at hs
  · split at hs
    · simp only at hs
      split at hs
      · have h1 := tasks_eventHandler ((hc.reaped i).log _) hs
        rw [tasks_log_other rfl, hreaped] at h1
        exact h1
      · have h1 := tasks_eventHandler (hc.reaped i) hs
        rw [hreaped] at h1
        exact h1
    · cases hs
  · cases hs

/-- The completion is marked seen and counted off. -/
def markSeen (s : State) : State :=
  ({ s.pop with seen := s.seen + 1 } : State).modEv fun ev =>
    { ev with inFlightRequests := decrement ev.inFlightRequests }

/-- After a completion was marked seen a manager that is dying resumes `kill_internal`, which is at the one place
where it suspends. -/
theorem awaitSeen_ok (hc : Coherent s) (hk : Killing s) (hs : s.awaitSeen = .ok s') :
    (s.ev.managerLifeState = .dying ∧ (s.coros 0).place = .atAlways ∧ s' = s.markSeen.enter 0) ∨
      s.ev.managerLifeState ≠ .dying ∧ s' = s.markSeen := by
  unfold State.awaitSeen at hs
  split at hs
  · simp only at hs
    generalize hs1 : (({ s.pop with seen := s.seen + 1 } : State).modEv fun ev =>
      { ev with inFlightRequests := decrement ev.inFlightRequests }) = s1 at hs
    obtain rfl : s.markSeen = s1 := hs1
    have hhandle : s.markSeen.ev.killCoroTask.handle = some 0 := hc.linked.kill
    split at hs
    · rename_i h hdying hh
      obtain rfl : 0 = h := Option.some.inj (hhandle.symm.trans hh)
      have hfits := hc.records.fits 0
      have hkind := (hk.only 0).mpr rfl
      have hi := hk.started hdying
      have hp : (s.coros 0).place = .atAlways := by
        have hr : (s.markSeen.coros 0).place = (s.coros 0).place := rfl
        unfold State.resume at hs
        rw [hr] at hs
        cases hp : (s.coros 0).place <;> rw [hp] at hs hfits hi
        case running | final | gone => cases hs
        case initial => exact absurd rfl hi
        all_goals
          generalize (s.coros 0).body = b at hfits hkind
          cases b <;> simp_all [Body.fits, Body.kind, Body.waiting]
      refine .inl ⟨hdying, hp, ?_⟩
      have hp' : (s.markSeen.coros 0).place = .atAlways := hp
      unfold State.resume at hs
      rw [hp'] at hs
      exact (Except.ok.inj hs).symm
    · cases hs
    · rename_i hne1 hne2
      cases hs
      refine .inr ⟨fun hd => ?_, rfl⟩
      exact hne1 0 hd hhandle
  · cases hs

/-- A completion was marked seen, and `kill_internal` may go on. -/
theorem tasks_awaitSeen (hc : Coherent s) (hk : Killing s) {rest : List Activation} (hst : s.stack = .awaitSeen :: rest)
    (hs : s.awaitSeen = .ok s') : TaskStep s.tasks .seen s'.tasks := by
  have htasks : s.markSeen.tasks = s.tasks := by
    unfold markSeen
    rw [tasks_modEv rfl, ← tasks_pop_loop hst rfl]
    refine tasks_eq (fun _ => .refl _) rfl rfl rfl ?_ rfl rfl
    funext t
    cases t <;> rfl
  rcases awaitSeen_ok hc hk hs with ⟨-, hp, rfl⟩ | ⟨-, rfl⟩
  · rw [tasks_enter, htasks]
    exact .wakeKill hp
  · rw [htasks]
    exact .idle (.inr (.inl rfl))

theorem tasks_eventHandlerReturn {r : ReqId} {h : CoroId} {rest : List Activation}
    (hst : s.stack = .eventHandler r h :: rest)
    (hs : s.pop.eventHandlerReturn r h = .ok s') : s'.tasks = s.tasks := by
  have hpop : s.pop.tasks = s.tasks := tasks_pop_loop hst rfl
  unfold State.eventHandlerReturn at hs
  simp only at hs
  generalize hs1 : (if (s.pop.reqs r).data.handle = none ∨ s.pop.isDone h = true then
    s.pop.modEv fun ev =>
    { ev with managedCoroutinesStore := ev.managedCoroutinesStore.erase (s.pop.reqs r).data.coroIdx }
    else s.pop) = s1 at hs
  have htasks : s1.tasks = s.tasks := by
    rw [← hs1, ← hpop]
    split
    · exact tasks_modEv rfl
    · rfl
  split at hs
  · split at hs
    · cases hs
      rw [tasks_log_other rfl, tasks_modReq, htasks]
    · cases hs
  · cases hs
    exact htasks

/-! ### The coroutines of the library -/

theorem tasks_suspend_library (hp : Placed s) {h : CoroId} {p : Place} {rest : List Activation}
    (hst : s.stack = .run h :: rest) (hb : (s.coros h).body.kind ≠ .user) (hpl : p = .atGeneric ∨ p = .atAlways) :
    TaskStep s.tasks .tau (s.suspend h p).tasks := by
  obtain ⟨hcalls, hsus⟩ := tasks_suspend (p := p) hst
  rw [hsus]
  refine .suspend hcalls (hp.place_of_top hst) (by simpa [tasks] using hb) ?_ ?_ ?_ <;>
    rcases hpl with rfl | rfl <;> simp [Place.suspended, Place.isTask]

theorem tasks_flushLoop (hc : Coherent s) {h : CoroId} {rest : List Activation} {pc : ℕ → KillPc} {iter : ℕ}
    {ret : Option ℤ} {next : State → Except Stop State} (hst : s.stack = .run h :: rest)
    (hb : (s.coros h).body.kind = .killInternal) (hnext : ∀ s', next s = .ok s' → s'.tasks = s.tasks)
    (hs : s.flushLoop h pc iter ret next = .ok s') : TaskStep s.tasks .tau s'.tasks := by
  unfold State.flushLoop at hs
  split at hs
  · split at hs
    · split at hs
      · obtain ⟨s2, h2, h3⟩ := bind_ok.mp hs
        cases h3
        have hk : (s2.coros h).body.kind = .killInternal := by rw [(submitQueuedEntries_stack h2).2]; exact hb
        rw [tasks_setBody (by exact hk.symm), tasks_submit h2]
        exact .idle (.inl rfl)
      · cases hs
    · split at hs
      · split at hs
        · exact tasks_finish hc hst (.inr ⟨rfl, by simp [hb]⟩) hs
        · rw [hnext s' hs]
          exact .idle (.inl rfl)
      · cases hs
  · cases hs

theorem tasks_killInternal (hc : Coherent s) {h : CoroId} {rest : List Activation} {pc : KillPc} {ret : Option ℤ}
    (hst : s.stack = .run h :: rest) (hb : (s.coros h).body = .killInternal pc)
    (hs : s.killInternal h pc ret = .ok s') : TaskStep s.tasks .tau s'.tasks := by
  have hk : (s.coros h).body.kind = .killInternal := by rw [hb]; rfl
  have hset : ∀ pc', (s.setBody h (.killInternal pc')).tasks = s.tasks := fun pc' => tasks_setBody (by exact hk.symm)
  cases pc with
  | begin =>
    simp only [State.killInternal] at hs
    split at hs
    · split at hs
      · exact tasks_finish hc hst (.inr ⟨rfl, by simp [hk]⟩) hs
      · cases hs
        rw [tasks_setBody (by exact hk.symm), tasks_modEv rfl]
        exact .idle (.inl rfl)
    · cases hs
  | flush iter =>
    simp only [State.killInternal] at hs
    refine tasks_flushLoop hc hst hk (fun s' hn => ?_) hs
    cases hn
    exact hset _
  | cancel =>
    simp only [State.killInternal] at hs
    split at hs
    · obtain ⟨⟨j, s1⟩, h1, h2⟩ := bind_ok.mp hs
      cases j with
      | none =>
        obtain rfl : s1 = s := by
          rcases cancelSqe_ok h1 with ⟨-, h1⟩ | h1
          · exact h1
          · exact ioUringGetSqe_none h1
        exact tasks_finish hc hst (.inr ⟨rfl, by simp [hk]⟩) h2
      | some j =>
        rcases cancelSqe_ok h1 with ⟨hj, -⟩ | h1
        · cases hj
        · obtain ⟨ring, -, -, rfl⟩ := ioUringGetSqe_some h1
          cases h2
          rw [tasks_setBody (by exact hk.symm)]
          unfold State.writeSqe
          rw [tasks_setRing, tasks_setRing]
          exact .idle (.inl rfl)
    · cases hs
  | flushCancel iter =>
    simp only [State.killInternal] at hs
    refine tasks_flushLoop hc hst hk (fun s' hn => ?_) hs
    cases hn
    exact hset _
  | wait =>
    simp only [State.killInternal] at hs
    split at hs
    · split at hs
      · cases hs
        exact tasks_suspend_library hc.placed hst (by simp [hk]) (.inr rfl)
      · have hc1 : Coherent (s.modEv fun ev => { ev with managerLifeState := .dead, ringUp := false }) :=
          hc.modEv rfl rfl rfl rfl rfl
        have h1 := tasks_finish hc1 hst (.inr ⟨rfl, by simp [State.modEv, hk]⟩) hs
        rw [tasks_modEv rfl] at h1
        exact h1
    · cases hs

theorem tasks_submitAndWaitBegin (hc : Coherent s) {h : CoroId} {rest : List Activation} {q : RequestQueue}
    {ret : ℤ} (hst : s.stack = .run h :: rest) (hb : (s.coros h).body.kind = .submitAndWait q)
    (hs : s.submitAndWaitBegin h q ret = .ok s') : TaskStep s.tasks .tau s'.tasks := by
  unfold State.submitAndWaitBegin at hs
  obtain ⟨s2, h2, h3⟩ := bind_ok.mp hs
  obtain ⟨hst2, hcoros2⟩ := submitQueuedEntries_stack h2
  have hb2 : (s2.coros h).body.kind = .submitAndWait q := by rw [hcoros2]; exact hb
  split at h3
  · have h4 := tasks_finish (hc.submit h2) (hst2.trans hst) (.inr ⟨rfl, by simp [hb2]⟩) h3
    rw [tasks_submit h2] at h4
    exact h4
  · obtain ⟨s3, h4, h5⟩ := bind_ok.mp h3
    cases h5
    have hb3 : (s3.coros h).body.kind = .submitAndWait q := by
      rw [processRequests_coros h4]
      simpa [State.newVector, modCoro] using hb2
    have h6 : s3.tasks = s.tasks :=
      (tasks_processRequests h4).trans ((tasks_newVector h q.length).trans (tasks_submit h2))
    rw [tasks_setBody (by exact hb3.symm), h6]
    exact .idle (.inl rfl)

theorem tasks_submitAndWaitLoop (hc : Coherent s) {h : CoroId} {rest : List Activation} {q : RequestQueue}
    {l : BatchLocals} {ret : Option ℤ} (hst : s.stack = .run h :: rest)
    (hb : (s.coros h).body.kind = .submitAndWait q) (hs : s.submitAndWaitLoop h q l ret = .ok s') :
    TaskStep s.tasks .tau s'.tasks := by
  unfold State.submitAndWaitLoop at hs
  split at hs
  · split at hs
    · exact tasks_finish hc hst (.inr ⟨rfl, by simp [hb]⟩) hs
    · cases hs
  · split at hs
    · split at hs
      · obtain ⟨s2, h2, h3⟩ := bind_ok.mp hs
        obtain ⟨hst2, hcoros2⟩ := submitQueuedEntries_stack h2
        have hb2 : (s2.coros h).body.kind = .submitAndWait q := by rw [hcoros2]; exact hb
        split at h3
        · have h4 := tasks_finish (hc.submit h2) (hst2.trans hst) (.inr ⟨rfl, by simp [hb2]⟩) h3
          rw [tasks_submit h2] at h4
          exact h4
        · cases h3
          rw [tasks_setBody (by exact hb2.symm), tasks_submit h2]
          exact .idle (.inl rfl)
      · cases hs
    · split at hs
      · cases hs
        have hk : ((s.setBody h (.submitAndWait q { l with pc := .await 0 })).coros h).body.kind ≠ .user := by
          simp [State.setBody, modCoro, Body.kind]
        have h1 := tasks_suspend_library (hc.placed.setBody h (.submitAndWait q { l with pc := .await 0 }))
          (by exact hst) hk (.inl rfl)
        rw [tasks_setBody (by exact hb.symm)] at h1
        exact h1
      · cases hs

theorem tasks_submitAndWaitNext (hp : Placed s) {h : CoroId} {rest : List Activation} {q : RequestQueue}
    {l : BatchLocals} {i : ℕ} (hst : s.stack = .run h :: rest) (hb : (s.coros h).body.kind = .submitAndWait q) :
    TaskStep s.tasks .tau (s.submitAndWaitNext h q l i).tasks := by
  unfold State.submitAndWaitNext
  split
  · have hk : ((s.setBody h (.submitAndWait q { l with pc := .await (i + 1) })).coros h).body.kind ≠ .user := by
      simp [State.setBody, modCoro, Body.kind]
    have h1 := tasks_suspend_library (hp.setBody h (.submitAndWait q { l with pc := .await (i + 1) }))
      (by exact hst) hk (.inl rfl)
    rw [tasks_setBody (by exact hb.symm)] at h1
    exact h1
  · rw [tasks_setBody (by exact hb.symm)]
    exact .idle (.inl rfl)

theorem tasks_pollWait (hp : Placed s) {h : CoroId} {rest : List Activation} (hst : s.stack = .run h :: rest)
    (hb : (s.coros h).body.kind = .poll) : TaskStep s.tasks .tau (s.pollWait h).tasks := by
  unfold State.pollWait
  have hk : (((s.modEv fun ev => { ev with pollingHandle := some h }).setBody h (.poll .waiting)).coros h).body.kind ≠
    .user := by
    simp [State.setBody, modCoro, Body.kind]
  have hp1 : Placed ((s.modEv fun ev => { ev with pollingHandle := some h }).setBody h (.poll .waiting)) :=
    (hp.modEv _).setBody h _
  have h1 := tasks_suspend_library hp1 (by exact hst) hk (.inl rfl)
  rw [tasks_setBody (by exact hb.symm), tasks_modEv rfl] at h1
  exact h1

theorem tasks_pollBegin (hc : Coherent s) {h : CoroId} {rest : List Activation} (hst : s.stack = .run h :: rest)
    (hb : (s.coros h).body.kind = .poll) (hs : s.pollBegin h = .ok s') : TaskStep s.tasks .tau s'.tasks := by
  unfold State.pollBegin at hs
  split at hs
  · exact tasks_finish hc hst (.inr ⟨rfl, by simp [hb]⟩) hs
  · cases hs
    have h1 := tasks_pollWait (s := s.modEv fun ev => { ev with pollingRequests := true }) (hc.placed.modEv _) hst hb
    rw [tasks_modEv rfl] at h1
    exact h1

theorem tasks_pollNext (hc : Coherent s) {h : CoroId} {stop : Bool} {rest : List Activation}
    (hst : s.stack = .run h :: rest) (hb : (s.coros h).body.kind = .poll) (hs : s.pollNext h stop = .ok s') :
    TaskStep s.tasks .tau s'.tasks := by
  unfold State.pollNext at hs
  split at hs
  · have hc1 : Coherent (s.modEv fun ev => { ev with pollingRequests := false }) := hc.modEv rfl rfl rfl rfl rfl
    have h1 := tasks_finish hc1 hst (.inr ⟨rfl, by simp [State.modEv, hb]⟩) hs
    rw [tasks_modEv rfl] at h1
    exact h1
  · cases hs
    exact tasks_pollWait hc.placed hst hb

/-! ### User code -/

theorem tasks_userStep (hc : Coherent s) {ctx : Option CoroId} {a : Act} (hs : s.userStep ctx a = .ok s') :
    TaskStep s.tasks a.label s'.tasks := by
  have hcall : ∀ b : Body, TaskStep s.tasks (.call (b.kind = .user)) (s.call ctx b).tasks := by
    intro b
    rw [tasks_call]
    refine .call (hc.placed.fresh _ le_rfl) fun a h c hp => ?_
    exact absurd (hc.awaits.targetBound a s.nextVar h c hp) (lt_irrefl _)
  cases a with
  | call =>
    cases hs
    exact hcall .user
  | submitAndWait q =>
    cases hs
    exact hcall (.submitAndWait q {})
  | poll =>
    cases hs
    exact hcall (.poll .begin)
  | kill =>
    cases hs
    exact hcall (.kill none)
  | startTask v => exact .start (tasks_startTask hc hs)
  | registerCoro v =>
    have h1 := tasks_startTask (hc.push (a := .registerCoro v) rfl rfl (by simp)) hs
    rw [tasks_push rfl] at h1
    exact .register h1
  | destroyTask v =>
    cases hs
    rw [tasks_destroyTask]
    exact .destroy
  | io p =>
    simp only [State.userStep, Except.map] at hs
    split at hs
    · cases hs
    · rename_i x hx
      cases hs
      rw [tasks_ioOp (r := x.1) hx]
      exact .idle (.inl rfl)
  | dropAwaitable r =>
    simp only [State.userStep] at hs
    split at hs
    · cases hs
      rw [tasks_modReq]
      exact .idle (.inl rfl)
    · cases hs
  | na p ret =>
    simp only [State.userStep, Except.map] at hs
    split at hs
    · cases hs
    · rename_i x hx
      cases hs
      rw [tasks_na (e := x.1) hx]
      exact .idle (.inl rfl)
  | submitQueuedEntries ret =>
    rw [tasks_submit hs]
    exact .idle (.inl rfl)
  | getUringSqe =>
    simp only [State.userStep, Except.map] at hs
    split at hs
    · cases hs
    · rename_i x hx
      cases hs
      rw [tasks_getUringSqe (x := x.1) hx]
      exact .idle (.inl rfl)
  | start =>
    cases hs
    have heq : s.startLoop.tasks = s.tasks := by
      unfold startLoop
      split
      · rfl
      · rw [tasks_push_loop rfl, tasks_modEv rfl]
    rw [heq]
    exact .idle (.inl rfl)
  | consume x rt =>
    simp only [State.userStep] at hs
    split at hs <;> cases hs
    have heq : (s.modPromise x fun p => { p with comData := (p.comData.consumeRespData rt).2 }).tasks = s.tasks :=
      tasks_modCoro ⟨rfl, rfl, rfl, rfl⟩
    rw [heq]
    exact .idle (.inl rfl)
  | awaitTask | awaitIo | awaitOp | coReturn | throw | handlerReturn => cases hs

theorem tasks_coroStep (hc : Coherent s) {h : CoroId} {rest : List Activation} {a : Act}
    (hst : s.stack = .run h :: rest)
    (hb : (s.coros h).body.kind = .user) (hs : s.coroStep h a = .ok s') : TaskStep s.tasks (a.labelIn h) s'.tasks := by
  unfold State.coroStep at hs
  split at hs
  · exact tasks_awaitTask hc hst (.inl hb) hs
  · exact tasks_awaitIo hc.placed hst hs
  · obtain ⟨⟨r, s1⟩, h1, h2⟩ := bind_ok.mp hs
    have h3 := tasks_awaitIo (hc.ioOp h1).placed ((ioOp_stack h1).trans hst) h2
    rw [tasks_ioOp h1] at h3
    exact h3
  · exact tasks_finish hc hst (.inl rfl) hs
  · exact tasks_finish hc hst (.inl rfl) hs
  · have h1 := tasks_userStep hc hs
    unfold Act.labelIn
    split <;> first | exact h1 | simp_all

/-! ### The step function -/

section Label

variable {h : CoroId} {rest : List Activation}

theorem label_user (hst : s.stack = .run h :: rest) (hb : (s.coros h).body.kind = .user) (a : Act) :
    s.label (.user a) = a.labelIn h := by
  simp [label, hst, hb]

/-- In a handler an exception ends the coroutine, and what is left is what any user code may do. -/
theorem label_handler (hst : s.stack = .run h :: rest) (hb : (s.coros h).body.kind ≠ .user) (a : Act) :
    s.label (.user a) = if a = .throw then .finish h none else a.label := by
  simp [label, hst, hb]

theorem label_library (hst : s.stack = .run h :: rest) {c : Choice} (hc : ∀ a, c ≠ .user a)
    (hb : (s.coros h).body ≠ .kill none) : s.label c = .tau := by
  unfold label
  rw [hst]
  cases c <;> simp_all

end Label

theorem tasks_bodyStep (hc : Coherent s) {h : CoroId} {rest : List Activation} {c : Choice}
    (hst : s.stack = .run h :: rest) (hs : s.bodyStep h c = .ok s') : TaskStep s.tasks (s.label c) s'.tasks := by
  unfold State.bodyStep at hs
  split at hs
  · rename_i a hb
    have hk : (s.coros h).body.kind = .user := by rw [hb]; rfl
    rw [label_user hst hk]
    exact tasks_coroStep hc hst hk hs
  · rename_i pc hb
    rw [label_library hst (by simp) (by simp [hb])]
    exact tasks_killInternal hc hst hb hs
  · rename_i pc ret hb
    rw [label_library hst (by simp) (by simp [hb])]
    exact tasks_killInternal hc hst hb hs
  · rename_i hb
    have hl : s.label .tau = .begin h .kill := by simp [label, hst, hb]
    rw [hl]
    exact tasks_awaitTask hc hst (.inr hb) hs
  · rename_i code hb
    rw [label_library hst (by simp) (by simp [hb])]
    exact tasks_finish hc hst (.inr ⟨rfl, by simp [hb, Body.kind]⟩) hs
  · rename_i q l hb
    have hk : (s.coros h).body.kind = .submitAndWait q := by rw [hb]; rfl
    have hu : (s.coros h).body.kind ≠ .user := by simp [hk]
    have hn : (s.coros h).body ≠ .kill none := by simp [hb]
    split at hs
    · rw [label_library hst (by simp) hn]
      exact tasks_submitAndWaitBegin hc hst hk hs
    · rw [label_library hst (by simp) hn]
      exact tasks_submitAndWaitLoop hc hst hk hs
    · rw [label_library hst (by simp) hn]
      exact tasks_submitAndWaitLoop hc hst hk hs
    · cases hs
      rw [label_handler hst hu]
      exact tasks_submitAndWaitNext hc.placed hst hk
    · rw [label_handler hst hu, if_pos rfl]
      exact tasks_finish hc hst (.inl rfl) hs
    · rename_i a _ hthrow _
      rw [label_handler hst hu, if_neg hthrow]
      exact tasks_userStep hc hs
    · cases hs
  · rename_i pc hb
    have hk : (s.coros h).body.kind = .poll := by rw [hb]; rfl
    have hu : (s.coros h).body.kind ≠ .user := by simp [hk]
    have hn : (s.coros h).body ≠ .kill none := by simp [hb]
    split at hs
    · rw [label_library hst (by simp) hn]
      exact tasks_pollBegin hc hst hk hs
    · rw [label_handler hst hu]
      exact tasks_pollNext hc hst hk hs
    · rw [label_handler hst hu, if_pos rfl]
      exact tasks_finish hc hst (.inl rfl) hs
    · rename_i a _ hthrow
      rw [label_handler hst hu, if_neg hthrow]
      exact tasks_userStep hc hs
    · cases hs
  · cases hs

end State

namespace State

variable {s s' : State}

theorem tasks_step (hc : Coherent s) (hk : Killing s) {c : Choice} (hs : State.step s c = .ok s') :
    TaskStep s.tasks (s.label c) s'.tasks := by
  unfold State.step at hs
  split at hs
  · rename_i a hst
    have hl : s.label (.user a) = a.label := by simp [label, hst]
    rw [hl]
    exact tasks_userStep hc hs
  · rename_i base hst
    have hl : s.label (.message base) = .tau := by simp [label, hst]
    rw [hl]
    split at hs
    · exact tasks_awaitMessage hc hs
    · cases hs
  · rename_i hst
    have hl : s.label .tau = .tau := by simp [label, hst]
    rw [hl]
    split at hs
    · cases hs
    · cases hs
      rw [tasks_pop_loop hst rfl]
      exact .idle (.inl rfl)
  · rename_i i res base hst
    have hl : s.label (.cqe i res base) = .tau := by simp [label, hst]
    rw [hl]
    exact tasks_awaitCqe hc hst hs
  · cases hs
  · rename_i hst
    have hl : s.label .tau = .seen := by simp [label, hst]
    rw [hl]
    exact tasks_awaitSeen hc hk hst hs
  · rename_i r h _ hst
    have hl : s.label .tau = .tau := by simp [label, hst]
    rw [hl, tasks_eventHandlerReturn hst hs]
    exact .idle (.inl rfl)
  · rename_i hst
    exact tasks_bodyStep hc hst hs
  · rename_i t h _ hst
    have hl : s.label .tau = .tau := by simp [label, hst]
    rw [hl]
    exact tasks_startReturn hst hs
  · rename_i v _ idx grow hst
    have hl : s.label (.pick idx grow) = .registered v (s.overwritten idx) := by simp [label, hst]
    rw [hl]
    exact tasks_registerCoroReturn hc hst hs
  · rename_i t a _ hst
    have hl : s.label .tau = .tail a t := by simp [label, hst]
    rw [hl]
    exact tasks_awaitSuspendTail hc hst hs
  · rename_i h _ hst
    have hl : s.label .tau = .tau := by simp [label, hst]
    rw [hl]
    cases hs
    exact tasks_finalReturn hc hst
  · rename_i h r ret _ hst
    exact absurd (by simp [hst]) (hc.awaits.noSubmit h r)
  · cases hs

theorem tasks_ioSubmit {h : CoroId} {r : ReqId} (hp : (s.coros h).place = .atIo r) {c : Choice}
    (hs : State.step (s.push (.ioSubmit h r)) c = .ok s') : TaskStep s.tasks .tau s'.tasks := by
  have hret : ∃ ret, (s.push (.ioSubmit h r)).ioSubmit h r ret = .ok s' := by
    unfold State.step at hs
    simp only [stack_push] at hs
    split at hs <;> simp_all
    exact ⟨_, hs⟩
  obtain ⟨ret, hs⟩ := hret
  unfold State.ioSubmit at hs
  obtain ⟨s2, h2, h3⟩ := bind_ok.mp hs
  have htasks : s2.tasks = s.tasks := tasks_submit (s := s) h2
  split at h3
  · generalize hs3 : (s2.modReq r fun q =>
      { q with error := ErrorProcessing.setErrorFromNum .liburingSubmissionErrErrno q.error (-ret) }) = s3 at h3
    have htasks3 : s3.tasks = s.tasks := by rw [← hs3, tasks_modReq, htasks]
    have hp3 : (s3.coros h).place = .atIo r := (congrFun (congrArg Tasks.place htasks3) h).trans hp
    rw [tasks_wake (.inl ⟨r, hp3⟩) h3, htasks3]
    exact .wake (.inl ⟨r, hp⟩)
  · cases h3
    rw [htasks]
    exact .idle (.inl rfl)

end State

/-- **The program refines the task machine**: a step of the program is a step of the machine with the label that the
choice tells. -/
theorem step_tasks {s s' : State} {c : Choice} (hso : Sound s) (hk : Killing s) (hs : State.step s c = .ok s') :
    TaskStep s.tasks (s.label c) s'.tasks := by
  rcases hso with hc | ⟨s0, h, r, hc, hp, rfl⟩
  · exact tasks_step hc hk hs
  · have hl : (s0.push (.ioSubmit h r)).label c = .tau := by
      unfold State.label
      rw [stack_push]
    rw [hl, tasks_push_loop rfl]
    exact tasks_ioSubmit hp hs

end EvManager
