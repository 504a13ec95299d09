import EvManager.Coherent
import EvManager.Counter

/-!
# Every step keeps the coherence

`Coherent` over the operations that issue, dispatch and register, the invariant of `kill_internal`, and from
them **`Reachable.sound`**: every state a program reaches is coherent.
-/

namespace EvManager

open Lib State ErrorProcessing

namespace Coherent

variable {s s' : State} {h : CoroId} {rest : List Activation}

/-! ### Registration -/

/-- `insert` selects a slot of the vector, or the one past its end. -/
theorem makeRoom_ok {pick : ℕ} {grow : Bool} (hs : s.makeRoom pick grow = .ok s') :
    s.ev.managedCoroutinesStore.freedIdxs = ∅ ∨
      pick ∈ s.ev.managedCoroutinesStore.freedIdxs ∧ pick < s.ev.managedCoroutinesStore.items.length := by
  unfold State.makeRoom at hs
  simp only at hs
  split at hs
  · rename_i he
    exact .inl he
  · split at hs
    · rename_i hm
      obtain ⟨old, h1, -⟩ := bind_ok.mp hs
      rw [need_ok] at h1
      exact .inr ⟨hm, (List.getElem?_eq_some_iff.mp h1).1⟩
    · cases hs

theorem makeRoom (hc : Coherent s) {pick : ℕ} {grow : Bool} (hs : s.makeRoom pick grow = .ok s') : Coherent s' := by
  unfold State.makeRoom at hs
  simp only at hs
  split at hs
  · cases hs
    split
    · rw [hc.linked.relinks_eq]
      · exact hc
      · intro e he
        obtain ⟨i, hi⟩ := List.mem_iff_getElem?.mp he
        exact ⟨.item i, hi⟩
    · exact hc
  · split at hs
    · obtain ⟨old, -, h1⟩ := bind_ok.mp hs
      unfold State.overwriteTask at h1
      split at h1
      · cases h1
        exact hc
      · split at h1
        · cases h1
        · split at h1
          · cases h1
            exact hc
          · exact hc.destroyCoro h1
    · cases hs

theorem insertTask_placed (hp : Placed s) (pick : ℕ) (e : EvTask) : Placed (s.insertTask pick e) := by
  have h1 : Placed (s.relink e) := by
    unfold State.relink
    split
    · exact hp.modPromise ..
    · exact hp
  unfold State.insertTask
  simp only
  split
  · exact (h1.modEv _).modPromise ..
  · exact h1.modEv _

theorem register (hc : Coherent s) {v : VarId} {pick : ℕ} {grow : Bool}
    (hs : s.registerCoroReturn v pick grow = .ok s') : Coherent s' := by
  have hr := hc.records.register hs
  unfold State.registerCoroReturn at hs
  obtain ⟨s1, h2, h1⟩ := bind_ok.mp hs
  obtain ⟨e, he, h3⟩ := bind_ok.mp h1
  rw [need_ok] at he
  have hc1 := hc.makeRoom h2
  have hroom : s1.ev.managedCoroutinesStore.freedIdxs = ∅ ∨
      pick < s1.ev.managedCoroutinesStore.items.length := by
    rw [(Quiet.makeRoom h2).store]
    exact (makeRoom_ok h2).imp id And.right
  cases h3
  have hp := insertTask_placed hc1.placed pick e
  exact ⟨⟨hp.run, hp.final, hp.nodup, hp.fresh⟩, hc1.linked.insertTask he hroom,
    hc1.awaits.insertTask hc1.linked he, hr⟩

/-! ### Issuing requests -/

theorem getUringSqe (hc : Coherent s) {p : Purpose} {x : Option ℕ} (hs : s.getUringSqe p = .ok (x, s')) :
    Coherent s' := by
  have hr := hc.records.getUringSqe hs
  rcases getUringSqe_ok hs with ⟨-, -, rfl⟩ | ⟨j, ring, -, -, -, -, rfl⟩
  · exact hc
  · exact hc.ofRecords hr (fun _ => rfl) (fun _ => rfl) rfl rfl rfl rfl rfl rfl rfl

theorem submit (hc : Coherent s) {ret : ℤ} (hs : s.submitQueuedEntries ret = .ok s') : Coherent s' := by
  have hr := hc.records.submit hs
  obtain ⟨-, -, -, rfl⟩ := submitQueuedEntries_ok hs
  exact hc.ofRecords hr (fun _ => rfl) (fun _ => rfl) rfl rfl rfl rfl rfl rfl rfl

theorem ioOp (hc : Coherent s) {ctx : Option CoroId} {p : ParameterPack} {r : ReqId} (hs : s.ioOp ctx p = .ok (r, s')) :
    Coherent s' := by
  have hr := hc.records.ioOp hs
  obtain ⟨-, -, sqe, s1, h1, rfl⟩ := ioOp_ok hs
  have hc1 := hc.getUringSqe h1
  cases ctx with
  | none => exact hc1.ofRecords hr (fun _ => rfl) (fun _ => rfl) rfl rfl rfl rfl rfl rfl rfl
  | some c =>
    refine hc1.ofRecords hr (fun x => ?_) (fun x => ?_) rfl rfl rfl rfl rfl rfl rfl <;>
      · by_cases hx : x = c
        · subst hx
          simp [ownReq, State.newReq, State.modCoro]
        · simp [ownReq, State.newReq, State.modCoro, hx]

theorem na (hc : Coherent s) {p : ParameterPack} {ret : ℤ} {e : Errnos} (hs : s.naOp p ret = .ok (e, s')) :
    Coherent s' := by
  have hr := hc.records.na hs
  rcases naOp_ok hs with ⟨-, -, rfl⟩ | ⟨-, j, ring, s2, hq, h2, hcase⟩
  · exact hc
  · obtain ⟨-, -, -, rfl⟩ := submitQueuedEntries_ok h2
    rcases hcase with ⟨-, -, rfl⟩ | ⟨-, -, rfl⟩ <;>
      exact hc.ofRecords hr (fun _ => rfl) (fun _ => rfl) rfl rfl rfl rfl rfl rfl rfl

theorem awaitIo (hc : Coherent s) {r : ReqId} (hst : s.stack = .run h :: rest) (hb : (s.coros h).body.kind = .user)
    (hs : s.awaitIo h r = .ok s') : Coherent s' ∨
      ∃ s0, Coherent s0 ∧ (s0.coros h).place = .atIo r ∧ s' = s0.push (.ioSubmit h r) := by
  have hrun := hc.placed.place_of_top hst
  have hr := hc.records.awaitIo hrun hb hs
  obtain ⟨ha, ⟨-, rfl⟩ | ⟨j, -, -, -, rfl⟩⟩ := awaitIo_ok hs
  · refine .inl ⟨((hc.placed.modPromise ..).modReq ..).log _, .log (.modReq (.modPromise hc.linked h ?_) ..) _,
      .log (.modReq (.modPromise hc.awaits h ?_) ..) _, hr⟩ <;> exact fun _ => rfl
  · refine .inr ⟨State.suspend h (.atIo r) _, ?_, ?_, rfl⟩
    · refine ⟨?_, ?_, ?_, hr.pop⟩
      · have h1 : Placed (s.suspend h (.atIo r)) := hc.placed.suspend hst
        exact ⟨h1.run, h1.final, h1.nodup, h1.fresh⟩
      · have h1 : Linked (s.setPlace h (.atIo r)) :=
          hc.linked.setPlace (.inr (by simp [hrun])) (.inr (.inl (by simp [hrun])))
        exact { h1 with }
      · have h1 : Awaits (s.setPlace h (.atIo r)) :=
          hc.awaits.setPlace (.inr (hc.awaits.free (by simp [hrun]) (by simp [hrun]))) (fun _ => by rw [hrun]; rfl)
            fun _ _ _ hp => by cases hp
        exact { h1.pop with }
    · simp [State.suspend, State.setPlace, State.modCoro, State.pop]

theorem ioSubmit (hc : Coherent s) {r : ReqId} {ret : ℤ} (hp : (s.coros h).place = .atIo r)
    (hs : (s.push (.ioSubmit h r)).ioSubmit h r ret = .ok s') : Coherent s' := by
  unfold State.ioSubmit at hs
  obtain ⟨s2, h2, h3⟩ := bind_ok.mp hs
  have hc2 : Coherent s2 := hc.submit (s := s) h2
  have hp2 : (s2.coros h).place = .atIo r := by
    rw [(submitQueuedEntries_stack h2).2]
    exact hp
  split at h3
  · have hrec : Records (s2.modReq r fun q =>
        { q with error := setErrorFromNum .liburingSubmissionErrErrno q.error (-ret) }) := by
      have hreq : ∀ x, ((s2.modReq r fun q =>
          { q with error := setErrorFromNum .liburingSubmissionErrErrno q.error (-ret) }).reqs x).data =
            (s2.reqs x).data ∧
          ((s2.modReq r fun q =>
          { q with error := setErrorFromNum .liburingSubmissionErrErrno q.error (-ret) }).reqs x).home =
            (s2.reqs x).home ∧
          ((s2.modReq r fun q =>
          { q with error := setErrorFromNum .liburingSubmissionErrErrno q.error (-ret) }).reqs x).live =
            (s2.reqs x).live := by
        intro x
        by_cases hx : x = r
        · subst hx
          simp [State.modReq]
        · simp [State.modReq, hx]
      refine hc2.records.still ⟨fun x => (hreq x).1, fun x => (hreq x).2.1, fun x hl => (hreq x).2.2 ▸ hl,
        rfl, rfl, rfl,
        rfl⟩ (fun _ => .refl _) (fun x r' hx => ?_) (.inr rfl)
      rw [(hreq r').2.2]
      exact (hc2.records.atIo x r' hx).1
    refine (hc2.ofRecords hrec (fun _ => rfl) (fun _ => rfl) rfl rfl rfl rfl rfl rfl rfl).resume
      (.of_place ?_ ?_) h3
    · have hp3 : (s2.coros h).place ≠ .initial := by simp [hp2]
      exact hp3
    · have hp3 : ∀ t c b, (s2.coros h).place ≠ .atTask t c b := by simp [hp2]
      exact hp3
  · cases h3
    exact hc2

theorem processRequests (hc : Coherent s) {l : List (ParameterPack × ReqId)} (hr : Records s')
    (hs : s.processRequests h l = .ok s') : Coherent s' := by
  have hsame : ∀ {l : List (ParameterPack × ReqId)} {s s' : State}, s.processRequests h l = .ok s' →
      s'.statuses = s.statuses ∧ s'.vars = s.vars ∧ s'.stack = s.stack ∧ s'.nextCoro = s.nextCoro ∧
        s'.nextVar = s.nextVar ∧ s'.ev.killCoroTask = s.ev.killCoroTask := by
    intro l
    induction l with
    | nil =>
      intro s s' hs
      cases hs
      exact ⟨rfl, rfl, rfl, rfl, rfl, rfl⟩
    | cons x l ih =>
      intro s s' hs
      obtain ⟨req, r⟩ := x
      obtain ⟨⟨b, s1⟩, h1, h2⟩ := bind_ok.mp hs
      have hl := ih h2
      rcases processSingleGenericRequest_ok h1 with ⟨-, -, rfl⟩ | ⟨-, -, -, j, ring, -, rfl⟩ <;> exact hl
  obtain ⟨hst, hv, hstack, hnc, hnv, hk⟩ := hsame hs
  refine hc.ofRecords hr (fun x => ?_) (fun x => ?_) hst hv hstack hnc hnv hk (by rw [(Issue.processRequests hs).store])
  · rw [processRequests_coros hs]
  · rw [processRequests_coros hs]

/-! ### Dispatch -/

/-- Who is served was started and awaits no task. -/
theorem place_of_serves (hr : Records s) {r : ReqId} (hserves : s.Serves r h) :
    (s.coros h).place ≠ .initial ∧ ∀ t c b, (s.coros h).place ≠ .atTask t c b := by
  -- a function that is not the user's and not `kill` is never at a task
  have hkind : (s.coros h).body.kind ≠ .user → (s.coros h).body.kind ≠ .kill →
      ∀ t c b, (s.coros h).place ≠ .atTask t c b := by
    intro hu hk t c b hp
    have hf := hr.fits h
    rw [hp] at hf
    simp only [Body.fits, Bool.decide_or, Bool.or_eq_true, decide_eq_true_eq] at hf
    rcases hf with hf | hf
    · exact hu hf
    · exact hk (by rw [hf]; rfl)
  unfold State.Serves at hserves
  split at hserves
  · rw [hserves.2]
    exact ⟨(by simp), (by simp)⟩
  · obtain ⟨-, -, ⟨q, hq⟩, hi⟩ := hserves
    exact ⟨hi, hkind (by simp [hq]) (by simp [hq])⟩
  · obtain ⟨-, hq, hi⟩ := hserves
    exact ⟨hi, hkind (by simp [hq]) (by simp [hq])⟩

theorem eventHandler (hc : Coherent s) {res : ℤ} {x : Option ReqId} {base : Addr}
    (hx : ∀ r, x = some r → (s.reqs r).data.handle = none → (s.reqs r).home = .heap)
    (hs : s.eventHandler res x base = .ok s') : Coherent s' := by
  have hr := hc.records.eventHandler hx hs
  unfold State.eventHandler at hs
  split at hs
  · cases hs
    exact hc
  · rename_i r
    simp only at hs
    split at hs
    · rename_i hl
      split at hs
      · cases hs
        exact hc.ofRecords hr (fun _ => rfl) (fun _ => rfl) rfl rfl rfl rfl rfl rfl rfl
      · rename_i h hh
        obtain ⟨pack, -, h2⟩ := bind_ok.mp hs
        obtain ⟨hi, ht⟩ := place_of_serves hc.records (hc.records.serves r h hl hh)
        have hplace : ∀ x, ((s.modPromise h fun p => { p with comData := p.comData.publishRespData pack }).coros
            x).place = (s.coros x).place := by
          intro x
          by_cases hx : x = h
          · subst hx
            simp [State.modPromise, State.modCoro]
          · simp [State.modPromise, State.modCoro, hx]
        have hc1 := hc.modPromise h (f := fun p => { p with comData := p.comData.publishRespData pack })
          (fun _ => rfl) fun _ => rfl
        refine ((hc1.log (.resumed r h res pack)).push (a := .eventHandler r h) rfl rfl (by simp)).resume
          (.of_place ?_ ?_) h2
        · exact (hplace h).symm ▸ hi
        · intro t c b hp
          exact ht t c b ((hplace h).symm.trans hp)
    · cases hs

theorem parked (hc : Coherent s) {res : ℤ} {r : ReqId} {ready : List (ℤ × ReqId)} {p : CoroId}
    (hready : s.ev.readyRequestsStore = (res, r) :: ready) (hpoll : s.ev.pollingHandle = some p) :
    Coherent (((s.push .awaitWait).modEv fun ev => { ev with readyRequestsStore := ready }).modReq r
      fun q => { q with data := { q.data with handle := some p } }) := by
  have hcw : Coherent (s.push .awaitWait) := hc.push rfl rfl (by simp)
  exact hcw.ofRecords (hc.records.parked hready hpoll) (fun _ => rfl) (fun _ => rfl) rfl rfl rfl rfl rfl rfl rfl

theorem awaitMessage (hc : Coherent s) {base : Addr} (hs : s.awaitMessage base = .ok s') : Coherent s' := by
  unfold State.awaitMessage at hs
  simp only at hs
  split at hs
  · rename_i res r ready p hready hpoll
    refine (hc.parked hready hpoll).eventHandler (fun r' hr' hn => ?_) hs
    cases hr'
    simp [State.modReq] at hn
  · cases hs
    exact hc.push rfl rfl (by simp)

theorem reaped (hc : Coherent s) (i : ℕ) : Coherent ((s.pop.push .awaitSeen).setRing (s.ev.ring.reap i)) := by
  have hc0 : Coherent (s.pop.push .awaitSeen) := hc.pop.push rfl rfl (by simp)
  exact hc0.ofRecords (hc0.records.setRing (s.ev.ring.reap i) fun y r hy _ => .inl (Uring.has_reap hy))
    (fun _ => rfl) (fun _ => rfl) rfl rfl rfl rfl rfl rfl rfl

theorem awaitCqe (hc : Coherent s) {i : ℕ} {res : ℤ} {base : Addr} (hs : s.awaitCqe i res base = .ok s') :
    Coherent s' := by
  unfold State.awaitCqe at hs
  split at hs
  · split at hs
    · rename_i x hx
      refine eventHandler ?_ ?_ hs
      · split
        · exact (hc.reaped i).log _
        · exact hc.reaped i
      · intro r hu hn
        have hheap : (s.reqs r).data.handle = none → (s.reqs r).home = .heap := fun hn =>
          (hc.records.entry r ⟨x, .inr (List.mem_of_getElem? hx), hu⟩).2.resolve_right (by simp [hn])
        simp only [hu] at hn ⊢
        exact hheap hn
    · cases hs
  · cases hs

theorem eventHandlerReturn (hc : Coherent s) {r : ReqId} (hs : s.eventHandlerReturn r h = .ok s') :
    Coherent s' := by
  have hr := hc.records.eventHandlerReturn hs
  unfold State.eventHandlerReturn at hs
  simp only at hs
  split at hs
  · split at hs
    · cases hs
      refine hc.ofRecords hr (fun _ => ?_) (fun _ => ?_) ?_ ?_ ?_ ?_ ?_ ?_ ?_ <;> split <;> rfl
    · cases hs
  · cases hs
    refine hc.ofRecords hr (fun _ => ?_) (fun _ => ?_) ?_ ?_ ?_ ?_ ?_ ?_ ?_ <;> split <;> rfl

end Coherent

/-! ### Shutdown -/

/-- The coroutine `0` is the one that runs `kill_internal`, and a manager that is dying has started it. -/
structure Killing (s : State) : Prop where
  only : ∀ h, (s.coros h).body.kind = .killInternal ↔ h = 0
  lt : 0 < s.nextCoro
  started : s.ev.managerLifeState = .dying → (s.coros 0).place ≠ .initial

namespace Killing

variable {s s' : State}

theorem init {s : State} (hi : State.Initial s) : Killing s := by
  cases hi <;>
    · refine ⟨fun h => ?_, Nat.one_pos, fun hd => by cases hd⟩
      by_cases hh : h = 0 <;> simp [State.init, initFailed, blank, hh, Body.kind]

theorem same (hk : Killing s) (hst : Steady s s')
    (hlife : s'.ev.managerLifeState = .dying → s.ev.managerLifeState = .dying) : Killing s' := by
  refine ⟨fun h => ?_, hk.lt.trans_le hst.nextCoro, fun hd hi => hk.started (hlife hd) (hst.initial_of hk.lt hi)⟩
  rcases hst.kind h with he | ⟨hle, hne⟩
  · rw [he]
    exact hk.only h
  · refine ⟨fun h1 => absurd h1 hne, fun h0 => ?_⟩
    rw [h0] at hle
    exact absurd (hk.lt.trans_le hle) (lt_irrefl _)

end Killing

/-! ### A step of user code and of the library's coroutines -/

namespace Coherent

variable {s s' : State} {h : CoroId} {rest : List Activation}

theorem userStep (hc : Coherent s) {ctx : Option CoroId} {a : Act} (hs : s.userStep ctx a = .ok s') : Coherent s' := by
  cases a with
  | call | submitAndWait q | poll | kill =>
    cases hs
    exact hc.call ctx (by simp [Body.atBegin])
  | startTask v => exact hc.startTask hs
  | registerCoro v => exact (hc.push (a := .registerCoro v) rfl rfl (by simp)).startTask hs
  | destroyTask v =>
    cases hs
    exact hc.destroyTask v
  | io p =>
    simp only [State.userStep, Except.map] at hs
    split at hs
    · cases hs
    · rename_i x hx
      cases hs
      exact hc.ioOp (r := x.1) hx
  | dropAwaitable r =>
    simp only [State.userStep] at hs
    split at hs
    · rename_i hd
      cases hs
      have hno : ∀ x, (s.coros x).place ≠ .atIo r := fun x hx => by
        rcases hd.2 with hn | hl
        · exact hc.records.not_atIo hn x hx
        · rw [(hc.records.atIo x r hx).1] at hl
          cases hl
      exact hc.ofRecords (hc.records.kill hno (fun _ => rfl) (fun _ => rfl) fun _ => rfl) (fun _ => rfl)
        (fun _ => rfl) rfl rfl
        rfl rfl rfl rfl rfl
    · cases hs
  | na p ret =>
    simp only [State.userStep, Except.map] at hs
    split at hs
    · cases hs
    · rename_i x hx
      cases hs
      exact hc.na (e := x.1) hx
  | submitQueuedEntries ret => exact hc.submit hs
  | getUringSqe =>
    simp only [State.userStep, Except.map] at hs
    split at hs
    · cases hs
    · rename_i x hx
      cases hs
      exact hc.getUringSqe (x := x.1) hx
  | start =>
    cases hs
    unfold startLoop
    split
    · exact hc
    · have hrec : Records (s.modEv fun ev => { ev with managerLifeState := .living }) :=
        hc.records.modEv rfl rfl (.inr rfl)
      exact (hc.ofRecords hrec (fun _ => rfl) (fun _ => rfl) rfl rfl rfl rfl rfl rfl rfl).push rfl rfl (by simp)
  | consume x rt =>
    simp only [State.userStep] at hs
    split at hs <;> cases hs
    exact hc.modPromise x (fun _ => rfl) fun _ => rfl
  | awaitTask | awaitIo | awaitOp | coReturn | throw | handlerReturn => cases hs

theorem modEv (hc : Coherent s) {f : EventManager → EventManager} (hring : (f s.ev).ring = s.ev.ring)
    (hready : (f s.ev).readyRequestsStore = s.ev.readyRequestsStore)
    (hpoll : (f s.ev).pollingHandle = s.ev.pollingHandle) (hkill : (f s.ev).killCoroTask = s.ev.killCoroTask)
    (hitems : (f s.ev).managedCoroutinesStore.items = s.ev.managedCoroutinesStore.items) : Coherent (s.modEv f) :=
  hc.ofRecords (hc.records.modEv hring hready (.inr hpoll)) (fun _ => rfl) (fun _ => rfl) rfl rfl rfl rfl rfl hkill
    hitems

theorem suspend (hc : Coherent s) {p : Place} (hst : s.stack = .run h :: rest)
    (hr : Records (s.suspend h p)) (ht : ∀ t c b, p ≠ .atTask t c b) :
    Coherent (s.suspend h p) := by
  have hrun := hc.placed.place_of_top hst
  refine ⟨hc.placed.suspend hst, (hc.linked.setPlace (.inr (by simp [hrun])) (.inr (.inl (by simp [hrun])))).pop,
    (hc.awaits.setPlace (.inr (hc.awaits.free (by simp [hrun]) (by simp [hrun]))) (fun _ => by rw [hrun]; rfl)
      fun t c b hp => absurd hp (ht t c b)).pop, hr⟩

theorem park (hc : Coherent s) {b : Body} (hst : s.stack = .run h :: rest) (hw : b.waiting = true)
    (hkind : b.kind = (s.coros h).body.kind) : Coherent ((s.setBody h b).suspend h .atGeneric) := by
  have hrun := hc.placed.place_of_top hst
  have hrun' : ((s.setBody h b).coros h).place = .running := by
    simpa [State.setBody, State.modCoro] using hrun
  have hp : Placed (s.setBody h b) := hc.placed.setBody h b
  refine ⟨hp.suspend (by exact hst), ((hc.linked.setBody h b).setPlace (.inr (by simp [hrun']))
    (.inr (.inl (by simp [hrun'])))).pop, ?_, hc.records.park hrun hw hkind⟩
  exact ((hc.awaits.setBody h b).setPlace (.inr ((hc.awaits.setBody h b).free (by simp [hrun']) (by simp [hrun'])))
    (fun _ => by rw [hrun']; rfl) fun _ _ _ hp => by cases hp).pop

theorem pollWait (hc : Coherent s) (hst : s.stack = .run h :: rest) (hb : (s.coros h).body.kind = .poll) :
    Coherent (s.pollWait h) := by
  have hrun := hc.placed.place_of_top hst
  have hrun' : ((s.setBody h (.poll .waiting)).coros h).place = .running := by
    simpa [State.setBody, State.modCoro] using hrun
  have hr := hc.records.pollWait (hc.placed.lt_of_top hst) hrun hb
  have hp : Placed ((s.setBody h (.poll .waiting)).suspend h .atGeneric) :=
    (hc.placed.setBody h _).suspend (by exact hst)
  have hl : Linked ((s.setBody h (.poll .waiting)).setPlace h .atGeneric) :=
    (hc.linked.setBody h _).setPlace (.inr (by simp [hrun'])) (.inr (.inl (by simp [hrun'])))
  have ha : Awaits ((s.setBody h (.poll .waiting)).setPlace h .atGeneric) :=
    (hc.awaits.setBody h _).setPlace (.inr ((hc.awaits.setBody h _).free (by simp [hrun']) (by simp [hrun'])))
      (fun _ => by rw [hrun']; rfl) fun _ _ _ hp => by cases hp
  exact ⟨⟨hp.run, hp.final, hp.nodup, hp.fresh⟩, { hl.pop.modEv (f := fun ev => { ev with pollingHandle := some h })
    rfl rfl with }, { ha.pop.modEv (f := fun ev => { ev with pollingHandle := some h }) rfl with }, hr⟩

theorem flushLoop (hc : Coherent s) {pc : ℕ → KillPc} {iter : ℕ} {ret : Option ℤ}
    {next : State → Except Stop State} (hst : s.stack = .run h :: rest) (hb : (s.coros h).body.kind = .killInternal)
    (hn : ∀ s', next s = .ok s' → Coherent s') (hs : s.flushLoop h pc iter ret next = .ok s') : Coherent s' := by
  unfold State.flushLoop at hs
  split at hs
  · split at hs
    · split at hs
      · obtain ⟨s2, h2, h3⟩ := bind_ok.mp hs
        cases h3
        have hc2 := hc.submit h2
        refine hc2.setBody ?_ rfl ?_ <;> rw [(submitQueuedEntries_stack h2).2]
        · exact hc.placed.place_of_top hst
        · rw [hb]
          rfl
      · cases hs
    · split at hs
      · split at hs
        · exact hc.finish hst hs
        · exact hn _ hs
      · cases hs
  · cases hs

theorem killInternal (hc : Coherent s) {pc : KillPc} {ret : Option ℤ} (hst : s.stack = .run h :: rest)
    (hb : (s.coros h).body = .killInternal pc) (hs : s.killInternal h pc ret = .ok s') : Coherent s' := by
  have hrun := hc.placed.place_of_top hst
  have hk : (s.coros h).body.kind = .killInternal := by rw [hb]; rfl
  have hset : ∀ pc', Coherent (s.setBody h (.killInternal pc')) := fun pc' => hc.setBody hrun rfl hk.symm
  cases pc with
  | begin =>
    simp only [State.killInternal] at hs
    split at hs
    · split at hs
      · exact hc.finish hst hs
      · cases hs
        exact (hc.modEv (f := fun ev => { ev with managerLifeState := .dying }) rfl rfl rfl rfl rfl).setBody hrun rfl
          hk.symm
    · cases hs
  | flush iter =>
    simp only [State.killInternal] at hs
    refine hc.flushLoop hst hk (fun s' hn => ?_) hs
    cases hn
    exact hset _
  | cancel =>
    simp only [State.killInternal] at hs
    split at hs
    · obtain ⟨⟨j, s1⟩, h1, h2⟩ := bind_ok.mp hs
      cases j with
      | none =>
        obtain rfl : s1 = s := by
          rcases cancelSqe_ok h1 with ⟨-, h1⟩ | h1
          · exact h1
          · exact ioUringGetSqe_none h1
        exact hc.finish hst h2
      | some j =>
        rcases cancelSqe_ok h1 with ⟨hj, -⟩ | h1
        · cases hj
        · obtain ⟨ring, -, hr, rfl⟩ := ioUringGetSqe_some h1
          cases h2
          have hrec : Records ((s.setRing ring).writeSqe j (Slot.prep (ioUringPrepCancel 0 cancelFlags))) := by
            refine (hc.records.getSqe hr).setRing (ring.write j _) fun x r hx hu => ?_
            rcases Uring.has_write hx with hx | rfl
            · exact .inl hx
            · -- preparing an entry leaves the address in it
              exact .inr (.inl ⟨ring.sqes j, .inl ⟨j, rfl⟩, hu⟩)
          exact (hc.ofRecords hrec (fun _ => rfl) (fun _ => rfl) rfl rfl rfl rfl rfl rfl rfl).setBody hrun rfl hk.symm
    · cases hs
  | flushCancel iter =>
    simp only [State.killInternal] at hs
    refine hc.flushLoop hst hk (fun s' hn => ?_) hs
    cases hn
    exact hset _
  | wait =>
    simp only [State.killInternal] at hs
    split at hs
    · split at hs
      · cases hs
        exact hc.suspend hst (hc.records.suspend hrun (by rw [hb]; rfl) (by simp) (by simp)) (by simp)
      · exact (hc.modEv (f := fun ev => { ev with managerLifeState := .dead, ringUp := false }) rfl rfl rfl rfl
          rfl).finish hst hs
    · cases hs

end Coherent

namespace Coherent

variable {s s' : State} {h : CoroId} {rest : List Activation}

theorem queueBatch (hc : Coherent s) {q : RequestQueue} (hst : s.stack = .run h :: rest)
    (hb : (s.coros h).body.kind = .submitAndWait q)
    (hs : (s.newVector h q.length).2.processRequests h (q.zip (s.newVector h q.length).1) = .ok s') :
    Coherent s' ∧ (s'.coros h).place = .running ∧ (s'.coros h).body = (s.coros h).body := by
  have hrun := hc.placed.place_of_top hst
  have hcoros : ∀ x, ((s.newVector h q.length).2.coros x).place = (s.coros x).place ∧
      ((s.newVector h q.length).2.coros x).promise = (s.coros x).promise ∧
      ((s.newVector h q.length).2.coros x).body = (s.coros x).body := by
    intro x
    by_cases hx : x = h
    · subst hx
      simp [State.newVector, State.modCoro]
    · simp [State.newVector, State.modCoro, hx]
  have hrv : Records (s.newVector h q.length).2 := hc.records.newVector q.length
  have hcv : Coherent (s.newVector h q.length).2 :=
    hc.ofRecords hrv (fun x => (hcoros x).1) (fun x => (hcoros x).2.1) rfl rfl rfl rfl rfl rfl rfl
  have hr : Records s' := by
    refine hrv.processRequests (hc.placed.lt_of_top hst) ⟨q, ?_⟩ ?_ (fun x hx => ?_) hs
    · rw [(hcoros h).2.2, hb]
    · rw [(hcoros h).1, hrun]
      simp
    · have hm : x.2 ∈ List.range' s.nextReq q.length := (List.of_mem_zip hx).2
      rw [List.mem_range'_1] at hm
      refine ⟨?_, hm.2⟩
      simp [State.newVector, hm]
  refine ⟨hcv.processRequests hr hs, ?_, ?_⟩ <;> rw [processRequests_coros hs]
  · rw [(hcoros h).1, hrun]
  · rw [(hcoros h).2.2]

theorem submitAndWaitBegin (hc : Coherent s) {q : RequestQueue} {ret : ℤ} (hst : s.stack = .run h :: rest)
    (hb : (s.coros h).body.kind = .submitAndWait q) (hs : s.submitAndWaitBegin h q ret = .ok s') : Coherent s' := by
  unfold State.submitAndWaitBegin at hs
  obtain ⟨s2, h2, h3⟩ := bind_ok.mp hs
  have hc2 := hc.submit h2
  have hst2 : s2.stack = .run h :: rest := by rw [(submitQueuedEntries_stack h2).1, hst]
  have hb2 : (s2.coros h).body.kind = .submitAndWait q := by rw [(submitQueuedEntries_stack h2).2, hb]
  split at h3
  · exact hc2.finish hst2 h3
  · obtain ⟨s3, h4, h5⟩ := bind_ok.mp h3
    cases h5
    obtain ⟨hc3, hrun, hbody⟩ := hc2.queueBatch hst2 hb2 h4
    exact hc3.setBody hrun rfl (by rw [hbody, hb2]; rfl)

theorem submitAndWaitLoop (hc : Coherent s) {q : RequestQueue} {l : BatchLocals} {ret : Option ℤ}
    (hst : s.stack = .run h :: rest) (hb : (s.coros h).body = .submitAndWait q l) (hpc : l.pc = .loop)
    (hs : s.submitAndWaitLoop h q l ret = .ok s') : Coherent s' := by
  have hk : (s.coros h).body.kind = .submitAndWait q := by rw [hb]; rfl
  unfold State.submitAndWaitLoop at hs
  split at hs
  · split at hs
    · exact hc.finish hst hs
    · cases hs
  · split at hs
    · split at hs
      · obtain ⟨s2, h2, h3⟩ := bind_ok.mp hs
        have hc2 := hc.submit h2
        split at h3
        · exact hc2.finish (by rw [(submitQueuedEntries_stack h2).1, hst]) h3
        · cases h3
          refine hc2.setBody ?_ ?_ ?_
          · rw [(submitQueuedEntries_stack h2).2]
            exact hc.placed.place_of_top hst
          · simp [Body.waiting, hpc]
          · rw [(submitQueuedEntries_stack h2).2, hk]
            rfl
      · cases hs
    · split at hs
      · cases hs
        exact hc.park hst rfl hk.symm
      · cases hs

theorem submitAndWaitNext (hc : Coherent s) {q : RequestQueue} {l : BatchLocals} {i : ℕ}
    (hst : s.stack = .run h :: rest) (hb : (s.coros h).body.kind = .submitAndWait q) :
    Coherent (s.submitAndWaitNext h q l i) := by
  unfold State.submitAndWaitNext
  split
  · exact hc.park hst rfl hb.symm
  · exact hc.setBody (hc.placed.place_of_top hst) rfl hb.symm

theorem pollBegin (hc : Coherent s) (hst : s.stack = .run h :: rest) (hb : (s.coros h).body.kind = .poll)
    (hs : s.pollBegin h = .ok s') : Coherent s' := by
  unfold State.pollBegin at hs
  split at hs
  · exact hc.finish hst hs
  · cases hs
    exact (hc.modEv (f := fun ev => { ev with pollingRequests := true }) rfl rfl rfl rfl rfl).pollWait (by exact hst)
      (by exact hb)

theorem pollNext (hc : Coherent s) {stop : Bool} (hst : s.stack = .run h :: rest)
    (hb : (s.coros h).body.kind = .poll) (hs : s.pollNext h stop = .ok s') : Coherent s' := by
  unfold State.pollNext at hs
  split at hs
  · exact (hc.modEv (f := fun ev => { ev with pollingRequests := false }) rfl rfl rfl rfl rfl).finish (by exact hst) hs
  · cases hs
    exact hc.pollWait hst hb

end Coherent

/-- `Coherent`, or so below an `await_suspend` that is about to submit. -/
def Sound (s : State) : Prop :=
  Coherent s ∨ ∃ s0 h r, Coherent s0 ∧ (s0.coros h).place = .atIo r ∧ s = s0.push (.ioSubmit h r)

/-- The ring is up where an `await_suspend` is about to submit. -/
def SubmitsUp (s : State) : Prop := ∀ h r rest, s.stack = .ioSubmit h r :: rest → s.ev.ringUp = true

namespace Coherent

variable {s s' : State} {h : CoroId} {rest : List Activation}

theorem sound (hc : Coherent s) : Sound s ∧ SubmitsUp s :=
  ⟨.inl hc, fun h r rest hst => absurd (by simp [hst]) (hc.awaits.noSubmit h r)⟩

theorem awaitIo_sound (hc : Coherent s) {r : ReqId} (hst : s.stack = .run h :: rest)
    (hb : (s.coros h).body.kind = .user) (hs : s.awaitIo h r = .ok s') : Sound s' ∧ SubmitsUp s' := by
  rcases hc.awaitIo hst hb hs with hc' | ⟨s0, hc0, hp, he⟩
  · exact hc'.sound
  · refine ⟨.inr ⟨s0, h, r, hc0, hp, he⟩, fun h' r' rest' hst' => ?_⟩
    obtain ⟨-, ⟨-, rfl⟩ | ⟨j, -, hup, -, rfl⟩⟩ := awaitIo_ok hs
    · have h1 : s.stack = .ioSubmit h' r' :: rest' := hst'
      rw [hst] at h1
      cases h1
    · exact hup

theorem coroStep (hc : Coherent s) {a : Act} (hst : s.stack = .run h :: rest) (hb : (s.coros h).body = .user)
    (hs : s.coroStep h a = .ok s') : Sound s' ∧ SubmitsUp s' := by
  have hk : (s.coros h).body.kind = .user := by rw [hb]; rfl
  unfold State.coroStep at hs
  split at hs
  · exact (hc.awaitTask hst (.inl hk) hs).sound
  · exact hc.awaitIo_sound hst hk hs
  · obtain ⟨⟨r, s1⟩, h1, h2⟩ := bind_ok.mp hs
    have hst1 : s1.stack = .run h :: rest := (ioOp_stack h1).trans hst
    have hk1 : (s1.coros h).body.kind = .user := by
      rw [(Steady.ioOp h1).kind_eq (hc.placed.lt_of_top hst)]
      exact hk
    exact (hc.ioOp h1).awaitIo_sound hst1 hk1 h2
  · exact (hc.finish hst hs).sound
  · exact (hc.finish hst hs).sound
  · exact (hc.userStep hs).sound

theorem bodyStep (hc : Coherent s) {c : Choice} (hst : s.stack = .run h :: rest) (hs : s.bodyStep h c = .ok s') :
    Sound s' ∧ SubmitsUp s' := by
  unfold State.bodyStep at hs
  split at hs
  · rename_i hb
    exact hc.coroStep hst hb hs
  · rename_i hb
    exact (hc.killInternal hst hb hs).sound
  · rename_i hb
    exact (hc.killInternal hst hb hs).sound
  · rename_i hb
    exact (hc.awaitTask hst (.inr hb) hs).sound
  · exact (hc.finish hst hs).sound
  · rename_i q l hb
    have hk : (s.coros h).body.kind = .submitAndWait q := by rw [hb]; rfl
    refine Coherent.sound ?_
    split at hs
    · exact hc.submitAndWaitBegin hst hk hs
    · rename_i hpc
      exact hc.submitAndWaitLoop hst hb hpc hs
    · rename_i hpc
      exact hc.submitAndWaitLoop hst hb hpc hs
    · cases hs
      exact hc.submitAndWaitNext hst hk
    · exact hc.finish hst hs
    · exact hc.userStep hs
    · cases hs
  · rename_i hb
    have hk : (s.coros h).body.kind = .poll := by rw [hb]; rfl
    refine Coherent.sound ?_
    split at hs
    · exact hc.pollBegin hst hk hs
    · exact hc.pollNext hst hk hs
    · exact hc.finish hst hs
    · exact hc.userStep hs
    · cases hs
  · cases hs

/-- The completion that was dispatched is marked seen, and a manager that is dying goes on with its kill. -/
theorem awaitSeen (hc : Coherent s) (hk : Killing s) (hs : s.awaitSeen = .ok s') : Coherent s' := by
  have hc1 : Coherent (({ s.pop with seen := s.seen + 1 } : State).modEv fun ev =>
      { ev with inFlightRequests := decrement ev.inFlightRequests }) := by
    have h1 := hc.pop.modEv (f := fun ev => { ev with inFlightRequests := decrement ev.inFlightRequests }) rfl rfl rfl
      rfl rfl
    exact ⟨⟨h1.placed.run, h1.placed.final, h1.placed.nodup, h1.placed.fresh⟩, { h1.linked with },
      { h1.awaits with }, { h1.records with }⟩
  unfold State.awaitSeen at hs
  split at hs
  · simp only at hs
    split at hs
    · rename_i h hlife hh
      have h0 : h = 0 := by
        have hkill := hc.linked.kill
        have hh' : s.ev.killCoroTask.handle = some h := hh
        rw [hkill, Option.some.injEq] at hh'
        exact hh'.symm
      subst h0
      refine hc1.resume (.of_place ?_ ?_) hs
      · exact hk.started hlife
      · intro t c b hp
        have hf := hc1.records.fits 0
        rw [hp] at hf
        have hb : (s.coros 0).body.kind = .killInternal := (hk.only 0).mpr rfl
        simp only [Body.fits, Bool.decide_or, Bool.or_eq_true, decide_eq_true_eq] at hf
        rcases hf with hf | hf
        · have hf' : (s.coros 0).body.kind = .user := hf
          rw [hb] at hf'
          cases hf'
        · have hf' : (s.coros 0).body = .kill none := hf
          rw [hf'] at hb
          cases hb
    · cases hs
    · cases hs
      exact hc1
  · cases hs

/-- **A step from a coherent state.** -/
theorem step (hc : Coherent s) (hk : Killing s) {c : Choice} (hs : State.step s c = .ok s') : Sound s' ∧
    SubmitsUp s' := by
  unfold State.step at hs
  split at hs
  · exact (hc.userStep hs).sound
  · split at hs
    · exact (hc.awaitMessage hs).sound
    · cases hs
  · split at hs
    · cases hs
    · cases hs
      exact hc.pop.sound
  · exact (hc.awaitCqe hs).sound
  · cases hs
  · exact (hc.awaitSeen hk hs).sound
  · exact (hc.pop.eventHandlerReturn hs).sound
  · rename_i hst
    exact hc.bodyStep hst hs
  · exact (hc.pop.startReturn hs).sound
  · exact (hc.pop.register hs).sound
  · rename_i t a _ hst
    obtain ⟨hlt, hpl⟩ := hc.awaits.suspending t a (by simp [hst])
    exact (hc.pop.awaitSuspendTail hlt hpl (hc.awaits.not_mem_tail hst) hs).sound
  · rename_i hst
    cases hs
    exact (hc.finalReturn hst).sound
  · rename_i h r _ _ hst
    exact absurd (by simp [hst]) (hc.awaits.noSubmit h r)
  · cases hs

end Coherent

/-! ### Reachable states -/

namespace Killing

variable {s s' : State}

/-- A step makes the manager DYING only when `kill_internal` begins. -/
theorem life_step {c : Choice} (hs : State.step s c = .ok s') :
    (s'.ev.managerLifeState = .dying → s.ev.managerLifeState = .dying) ∨
      ∃ h rest, s.stack = .run h :: rest ∧ (s.coros h).body = .killInternal .begin ∧ s'.coros h =
        { s.coros h with body := .killInternal (.flush 0) } := by
  cases step_loopEffect hs with
  | issue hi => exact .inl fun hd => hi.life ▸ hd
  | start hl => exact .inl fun hd => by cases hd
  | leave hst hd => exact .inl id
  | message _ h1 =>
    refine .inl fun hd => ?_
    unfold State.awaitMessage at h1
    simp only at h1
    split at h1
    · exact (Uncounted.eventHandler h1).life ▸ hd
    · cases h1
      exact hd
  | cqe _ h1 =>
    refine .inl fun hd => ?_
    unfold State.awaitCqe at h1
    split at h1
    · split at h1
      · rw [(Uncounted.eventHandler h1).life] at hd
        split at hd <;> exact hd
      · cases h1
    · cases h1
  | seen _ h1 =>
    refine .inl fun hd => ?_
    unfold State.awaitSeen at h1
    split at h1
    · simp only at h1
      split at h1
      · exact (Quiet.resume h1).life ▸ hd
      · cases h1
      · cases h1
        exact hd
    · cases h1
  | handlerReturn _ h1 => exact .inl fun hd => (Uncounted.eventHandlerReturn h1).life ▸ hd
  | dying hst hb hl =>
    refine .inr ⟨_, _, hst, hb, ?_⟩
    simp [State.setBody, State.modCoro, State.modEv]
  | dead hst h0 hq =>
    refine .inl fun hd => ?_
    rw [hq.life] at hd
    cases hd
  | poll hst ha hq hq' =>
    refine .inl fun hd => ?_
    exact hq.life ▸ (hq'.life ▸ hd)
  | register _ h1 => exact .inl fun hd => (Uncounted.registerCoroReturn h1).life ▸ hd

theorem step (hk : Killing s) (hp : ∀ h rest, s.stack = .run h :: rest → (s.coros h).place = .running) {c : Choice}
    (hs : State.step s c = .ok s') : Killing s' := by
  rcases life_step hs with hlife | ⟨h, rest, hst, hb, hself⟩
  · exact hk.same (.step hs) hlife
  · -- it is the coroutine `0` that begins, and it is running
    obtain rfl : h = 0 := (hk.only h).mp (by rw [hb]; rfl)
    have hsteady : Steady s { s' with ev := s.ev } :=
      ⟨(Steady.step hs).nextCoro, (Steady.step hs).kind, (Steady.step hs).initial, (Steady.step hs).done⟩
    refine ⟨(hk.same hsteady id).only, (Steady.step hs).nextCoro.trans_lt' hk.lt, fun _ => ?_⟩
    rw [hself, hp 0 rest hst]
    simp

end Killing

theorem Coherent.init {s : State} (hi : State.Initial s) : Coherent s := ⟨.init hi, .init hi, .init hi, .init hi⟩

namespace Sound

variable {s s' : State}

/-- Unless it is about to submit an awaitable, the program is coherent. -/
theorem coherent (hso : Sound s) {a : Activation} {rest : List Activation} (hst : s.stack = a :: rest)
    (ha : ∀ h r, a ≠ .ioSubmit h r) : Coherent s := by
  rcases hso with hc | ⟨s0, h, r, -, -, rfl⟩
  · exact hc
  · cases hst
    exact absurd rfl (ha h r)

theorem linked (hso : Sound s) : Linked s := by
  rcases hso with hc | ⟨s0, h, r, hc, -, rfl⟩
  · exact hc.linked
  · exact hc.linked.push _

theorem records (hso : Sound s) : Records s := by
  rcases hso with hc | ⟨s0, h, r, hc, -, rfl⟩
  · exact hc.records
  · exact hc.records.push _

theorem place_of_top (hso : Sound s) {h : CoroId} {rest : List Activation} (hst : s.stack = .run h :: rest) :
    (s.coros h).place = .running := by
  rcases hso with hc | ⟨s0, h0, r, -, -, rfl⟩
  · exact hc.placed.place_of_top hst
  · cases hst

theorem step_up (hso : Sound s) (hk : Killing s) {c : Choice} (hs : State.step s c = .ok s') :
    Sound s' ∧ SubmitsUp s' := by
  rcases hso with hc | ⟨s0, h, r, hc, hp, rfl⟩
  · exact hc.step hk hs
  · unfold State.step at hs
    simp only [stack_push] at hs
    split at hs <;> simp_all
    exact (hc.ioSubmit hp hs).sound

/-- **Every step keeps the coherence.** -/
theorem step (hso : Sound s) (hk : Killing s) {c : Choice} (hs : State.step s c = .ok s') : Sound s' :=
  (hso.step_up hk hs).1

end Sound

theorem Reachable.sound_killing {s : State} (h : Reachable s) : Sound s ∧ Killing s := by
  refine h.inv (I := fun s => Sound s ∧ Killing s) (fun s hi => ⟨.inl (.init hi), .init hi⟩) fun s c s'
    ⟨hso, hk⟩ _ hs => ⟨hso.step hk hs, ?_⟩
  exact hk.step (fun h rest hst => hso.place_of_top hst) hs

/-- **Every state a program reaches is coherent.** -/
theorem Reachable.sound {s : State} (h : Reachable s) : Sound s := h.sound_killing.1

theorem Reachable.killing {s : State} (h : Reachable s) : Killing s := h.sound_killing.2

theorem Reachable.submitsUp {s : State} (h : Reachable s) : SubmitsUp s := by
  refine Reach.inv_of (I := SubmitsUp) (J := fun s => Reachable s) (fun s hs => hs)
    (fun s hi => (Coherent.init hi).sound.2)
    (fun s c s' hr _ _ hs => (hr.sound.step_up hr.killing hs).2) h

end EvManager
