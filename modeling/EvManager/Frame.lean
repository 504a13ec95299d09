import EvManager.Core

/-!
# What the coroutines leave alone

Resuming, suspending, awaiting and ending coroutines never touches the ring, the counters, the life state or
the stores, and of a request record at most ends its life.  `Quiet` says so for two states, `Effect` splits
every step of the program into at most one operation that does more and quiet parts around it.
-/

namespace EvManager

open Lib

/-- The events of the coroutines themselves. -/
def Event.ofCoroutine : Event → Bool
  | .ioReturned .. | .handled .. | .taskReturned .. | .returned .. => true
  | .completed .. | .resumed .. | .accepted .. | .deleted .. => false

/-- The activations of the event loop. -/
def Activation.ofLoop : Activation → Bool
  | .start | .awaitWait | .awaitSeen | .eventHandler .. => true
  | _ => false

/-- The part of the stack that belongs to the event loop. -/
def State.loops (s : State) : List Activation := s.stack.filter Activation.ofLoop

/-! ### How a coroutine is resumed -/

namespace State

/-- The call of the handler of a batch or of `poll` that `h` makes, resumed on account of the request `cause`. -/
def handledBy (h : CoroId) (cause : Option ReqId) (s : State) : Event :=
  let chan := (s.coros h).promise.comData
  .handled h cause chan.responseStoreCurrentType chan.responseStore

/-- What `handle.resume()` does, by where the coroutine is suspended and what it runs. -/
inductive Resumes (h : CoroId) (cause : Option ReqId) (s : State) : State → Prop
  | enter : (s.coros h).place = .initial ∨ (s.coros h).place = .atAlways → Resumes h cause s (s.enter h)
  | io {r : ReqId} : (s.coros h).place = .atIo r → Resumes h cause s ((s.enter h).ioReturn h r)
  | task {t : TaskRef} {child : CoroId} {b : Bool} {e : EvTask} : (s.coros h).place = .atTask t child b →
      (s.enter h).task t = some e → Resumes h cause s
        (((s.enter h).setBody h (((s.enter h).coros h).body.taskReturned ((s.enter h).retCode e))).log
          (.taskReturned h t child ((s.enter h).retCode e)))
  | batch {q : RequestQueue} {l : BatchLocals} {i : ℕ} : (s.coros h).place = .atGeneric →
      ((s.enter h).coros h).body = .submitAndWait q l → l.pc = .await i → Resumes h cause s
        (((s.enter h).log ((s.enter h).handledBy h cause)).setBody h (.submitAndWait q { l with pc := .handler i }))
  | poll : (s.coros h).place = .atGeneric → ((s.enter h).coros h).body = .poll .waiting → Resumes h cause s
      ((((s.enter h).log ((s.enter h).handledBy h cause)).modEv fun ev => { ev with pollingHandle := none }).setBody h
        (.poll .handler))

theorem resumes_of_resume {s s' : State} {h : CoroId} {cause : Option ReqId} (hs : s.resume h cause = .ok s') :
    Resumes h cause s s' := by
  unfold resume at hs
  cases hp : (s.coros h).place with
  | initial =>
    rw [hp] at hs
    cases hs
    exact .enter (.inl hp)
  | atAlways =>
    rw [hp] at hs
    cases hs
    exact .enter (.inr hp)
  | atIo r =>
    rw [hp] at hs
    cases hs
    exact .io hp
  | atTask t child b =>
    rw [hp] at hs
    obtain ⟨e, he, hs⟩ := bind_ok.mp hs
    cases hs
    exact .task hp (need_ok.mp he)
  | atGeneric =>
    rw [hp] at hs
    simp only [genericResume] at hs
    cases hb : ((s.enter h).coros h).body with
    | submitAndWait q l =>
      simp only [hb] at hs
      cases hpc : l.pc with
      | await i =>
        simp only [hpc] at hs
        cases hs
        exact .batch hp hb hpc
      | begin | loop | handler =>
        simp only [hpc] at hs
        cases hs
    | poll pc =>
      cases pc with
      | waiting =>
        simp only [hb] at hs
        cases hs
        exact .poll hp hb
      | begin | handler =>
        simp only [hb] at hs
        cases hs
    | user | killInternal | kill =>
      simp only [hb] at hs
      cases hs
  | running | final | gone =>
    rw [hp] at hs
    cases hs

end State

/-- The function a coroutine runs, with what it was called with. -/
inductive Kind
  | user | killInternal | kill | submitAndWait (queue : RequestQueue) | poll
  deriving DecidableEq

def Body.kind : Body → Kind
  | .user => .user
  | .killInternal _ => .killInternal
  | .kill _ => .kill
  | .submitAndWait q _ => .submitAndWait q
  | .poll _ => .poll

@[simp] theorem Body.kind_taskReturned (code : ℕ) (b : Body) : (b.taskReturned code).kind = b.kind := by
  cases b <;> rfl

theorem Place.initial_of_arm {p : Place} (hp : p.arm = .initial) : p = .initial := by
  cases p <;> first | rfl | cases hp

/-- What no step undoes: a coroutine runs the function it was made for, is not started twice, and is done once
and for all. -/
structure Steady (s s' : State) : Prop where
  nextCoro : s.nextCoro ≤ s'.nextCoro
  kind : ∀ h, (s'.coros h).body.kind = (s.coros h).body.kind ∨
    s.nextCoro ≤ h ∧ (s'.coros h).body.kind ≠ .killInternal
  initial : ∀ h, (s'.coros h).place = .initial → (s.coros h).place = .initial ∨ s.nextCoro ≤ h
  done : ∀ h, (s.statuses h).handlerDone = true → (s'.statuses h).handlerDone = true ∨ s.nextCoro ≤ h

namespace Steady

variable {s s' s'' : State}

theorem of_eq (hc : s'.coros = s.coros) (hst : s'.statuses = s.statuses) (hn : s'.nextCoro = s.nextCoro) :
    Steady s s' :=
  ⟨hn.ge, fun h => .inl (by rw [hc]), fun h hi => .inl (by rwa [hc] at hi), fun h hd => .inl (by rwa [hst])⟩

theorem refl (s : State) : Steady s s := of_eq rfl rfl rfl

theorem trans (h : Steady s s') (h' : Steady s' s'') : Steady s s'' := by
  refine ⟨h.nextCoro.trans h'.nextCoro, fun x => ?_, fun x hi => ?_, fun x hd => ?_⟩
  · rcases h'.kind x with he | ⟨hle, hk⟩
    · rcases h.kind x with he' | ⟨hle, hk⟩
      · exact .inl (he.trans he')
      · exact .inr ⟨hle, he ▸ hk⟩
    · exact .inr ⟨h.nextCoro.trans hle, hk⟩
  · rcases h'.initial x hi with hi | hle
    · exact h.initial x hi
    · exact .inr (h.nextCoro.trans hle)
  · rcases h.done x hd with hd | hle
    · rcases h'.done x hd with hd | hle
      · exact .inl hd
      · exact .inr (h.nextCoro.trans hle)
    · exact .inr hle

theorem modCoro {h : CoroId} {f : Coro → Coro} (hk : (f (s.coros h)).body.kind = (s.coros h).body.kind)
    (hi : (f (s.coros h)).place = .initial → (s.coros h).place = .initial) : Steady s (s.modCoro h f) := by
  refine ⟨le_rfl, fun x => .inl ?_, fun x hx => .inl ?_, fun x hd => .inl hd⟩
  · by_cases hxh : x = h
    · subst hxh
      simpa [State.modCoro] using hk
    · simp [State.modCoro, hxh]
  · by_cases hxh : x = h
    · subst hxh
      exact hi (by simpa [State.modCoro] using hx)
    · simpa [State.modCoro, hxh] using hx

theorem kind_eq (h : Steady s s') {x : CoroId} (hx : x < s.nextCoro) :
    (s'.coros x).body.kind = (s.coros x).body.kind :=
  (h.kind x).resolve_right fun hn => absurd hx (not_lt.mpr hn.1)

theorem initial_of (h : Steady s s') {x : CoroId} (hx : x < s.nextCoro) (hi : (s'.coros x).place = .initial) :
    (s.coros x).place = .initial :=
  (h.initial x hi).resolve_right (not_le.mpr hx)

theorem done_of (h : Steady s s') {x : CoroId} (hx : x < s.nextCoro) (hd : (s.statuses x).handlerDone = true) :
    (s'.statuses x).handlerDone = true :=
  (h.done x hd).resolve_right (not_le.mpr hx)

end Steady

/-- Between `s` and `s'` only coroutines and tasks have changed. -/
structure Quiet (s s' : State) : Prop where
  steady : Steady s s'
  ring : s'.ev.ring = s.ev.ring
  ringUp : s'.ev.ringUp = s.ev.ringUp
  life : s'.ev.managerLifeState = s.ev.managerLifeState
  inFlight : s'.ev.inFlightRequests = s.ev.inFlightRequests
  seen : s'.seen = s.seen
  ready : s'.ev.readyRequestsStore = s.ev.readyRequestsStore
  store : s'.ev.managedCoroutinesStore = s.ev.managedCoroutinesStore
  kill : s'.ev.killCoroTask.handle = s.ev.killCoroTask.handle
  polling : s'.ev.pollingHandle = none ∨ s'.ev.pollingHandle = s.ev.pollingHandle
  nextReq : s'.nextReq = s.nextReq
  data : ∀ r, (s'.reqs r).data = (s.reqs r).data
  home : ∀ r, (s'.reqs r).home = (s.reqs r).home
  sqe : ∀ r, (s'.reqs r).sqe = (s.reqs r).sqe
  live : ∀ r, (s'.reqs r).live = true → (s.reqs r).live = true
  /-- an awaitable is held on when its `co_await` returns -/
  held : ∀ r, (s'.reqs r).held = true → (s.reqs r).held = true ∨ ∃ h resp, .ioReturned h r resp ∈ s'.trace
  loops : s'.loops = s.loops
  trace : ∃ es, s'.trace = es ++ s.trace ∧ ∀ e ∈ es, e.ofCoroutine = true

namespace Quiet

variable {s s' s'' : State}

theorem refl (s : State) : Quiet s s :=
  ⟨.refl s, rfl, rfl, rfl, rfl, rfl, rfl, rfl, rfl, .inr rfl, rfl, fun _ => rfl, fun _ => rfl, fun _ => rfl,
    fun _ h => h, fun _ h => .inl h, rfl, [], rfl, by simp⟩

theorem trans (h : Quiet s s') (h' : Quiet s' s'') : Quiet s s'' := by
  obtain ⟨es, he, hes⟩ := h.trace
  obtain ⟨es', he', hes'⟩ := h'.trace
  refine ⟨h.steady.trans h'.steady, h'.ring.trans h.ring, h'.ringUp.trans h.ringUp, h'.life.trans h.life,
    h'.inFlight.trans h.inFlight,
    h'.seen.trans h.seen, h'.ready.trans h.ready, h'.store.trans h.store, h'.kill.trans h.kill, ?_,
    h'.nextReq.trans h.nextReq, fun r => (h'.data r).trans (h.data r), fun r => (h'.home r).trans (h.home r),
    fun r => (h'.sqe r).trans (h.sqe r), fun r hr => h.live r (h'.live r hr), fun r hr => ?_, h'.loops.trans h.loops,
    es' ++ es, by rw [he', he, List.append_assoc], ?_⟩
  · rcases h'.polling with hp | hp
    · exact .inl hp
    · rw [hp]
      exact h.polling
  · rcases h'.held r hr with hr | hret
    · rcases h.held r hr with hr | ⟨x, resp, hm⟩
      · exact .inl hr
      · exact .inr ⟨x, resp, by rw [he']; exact List.mem_append_right _ hm⟩
    · exact .inr hret
  · intro e hm
    rcases List.mem_append.mp hm with hm | hm
    · exact hes' e hm
    · exact hes e hm

/-! ### Small updates -/

/-- Whatever becomes of tasks. -/
theorem of_eq (hst : Steady s s') (hev : s'.ev = s.ev) (hreqs : s'.reqs = s.reqs) (hnext : s'.nextReq = s.nextReq)
    (hseen : s'.seen = s.seen) (hstack : s'.stack = s.stack) (htrace : s'.trace = s.trace) : Quiet s s' := by
  refine ⟨hst, ?_, ?_, ?_, ?_, ?_, ?_, ?_, ?_, ?_, ?_, ?_, ?_, ?_, ?_, fun r hr => .inl ?_, ?_, ?_⟩ <;>
    simp_all [State.loops]

theorem push {a : Activation} (ha : a.ofLoop = false) (s : State) : Quiet s (s.push a) :=
  { refl s with steady := .of_eq rfl rfl rfl, loops := by simp [State.loops, State.push, ha] }

theorem pop {a : Activation} {rest : List Activation} (hs : s.stack = a :: rest) (ha : a.ofLoop = false) :
    Quiet s s.pop :=
  { refl s with steady := .of_eq rfl rfl rfl, loops := by simp [State.loops, State.pop, hs, ha] }

theorem log {e : Event} (he : e.ofCoroutine = true) (s : State) : Quiet s (s.log e) :=
  { refl s with steady := .of_eq rfl rfl rfl, held := fun _ hr => .inl hr, trace := ⟨[e], rfl, by simpa using he⟩ }

theorem modCoro {h : CoroId} {f : Coro → Coro} (hk : (f (s.coros h)).body.kind = (s.coros h).body.kind)
    (hi : (f (s.coros h)).place = .initial → (s.coros h).place = .initial) : Quiet s (s.modCoro h f) :=
  { refl s with steady := .modCoro hk hi }

theorem setPlace (h : CoroId) (p : Place) (hp : p ≠ .initial) (s : State) : Quiet s (s.setPlace h p) :=
  modCoro rfl fun hi => absurd hi hp

theorem setBody {h : CoroId} {b : Body} (hb : b.kind = (s.coros h).body.kind) : Quiet s (s.setBody h b) :=
  modCoro hb id

theorem modPromise (h : CoroId) (f : Promise → Promise) (s : State) : Quiet s (s.modPromise h f) := modCoro rfl id

/-- A record that ends its life, or whose error is set. -/
theorem modReq (r : ReqId) {f : Request → Request} (hd : ∀ q, (f q).data = q.data)
    (hh : ∀ q, (f q).home = q.home) (hq : ∀ q, (f q).sqe = q.sqe) (hl : ∀ q, (f q).live = true → q.live = true)
    (hk : ∀ q, (f q).held = true → q.held = true) (s : State) : Quiet s (s.modReq r f) := by
  refine { refl s with steady := .of_eq rfl rfl rfl, data := ?_, home := ?_, sqe := ?_, live := ?_,
                       held := ?_ } <;> intro r' <;>
    by_cases hr : r' = r <;> simp only [State.modReq, Function.update_apply, hr, if_true, if_false]
  · exact hd _
  · exact hh _
  · exact hq _
  · exact hl _
  · exact id
  · exact fun h => .inl (hk _ h)
  · exact .inl

theorem setTask {t : TaskRef} {e e' : EvTask} (ht : s.task t = some e) (he : e'.handle = e.handle) :
    Quiet s (s.setTask t e') := by
  cases t with
  | var v => exact { refl s with steady := .of_eq rfl rfl rfl }
  | kill =>
    simp only [State.task, Option.some.injEq] at ht
    subst ht
    exact { refl s with steady := .of_eq rfl rfl rfl, kill := he }

/-! ### Coroutines and tasks -/

open State

theorem enter (h : CoroId) (s : State) : Quiet s (s.enter h) :=
  (setPlace h .running (by simp) s).trans (push rfl _)

theorem ioReturn (h : CoroId) (r : ReqId) (s : State) : Quiet s (s.ioReturn h r) := by
  have hc := (modPromise h (fun p => { p with
    comData := (awaitResume (s.reqs r).data.reqType (s.reqs r).error (s.coros h).promise.comData).2 }) s).steady
  refine { refl s with steady := hc.trans (.of_eq rfl rfl rfl), data := fun x => ?_, home := fun x => ?_,
                       sqe := fun x => ?_, live := fun x => ?_, held := fun x => ?_,
                       trace := ⟨[_], rfl, by simp [Event.ofCoroutine]⟩ }
  all_goals by_cases hx : x = r <;> simp [State.ioReturn, State.log, State.modReq, State.modPromise, State.modCoro, hx]
  · exact .inr ⟨h, _, .inl ⟨rfl, rfl⟩⟩
  · exact .inl

theorem resume {h : CoroId} {cause : Option ReqId} (hs : s.resume h cause = .ok s') : Quiet s s' := by
  cases resumes_of_resume hs with
  | enter => exact enter h s
  | io => exact (enter h s).trans (ioReturn ..)
  | task => exact ((enter h s).trans (setBody (Body.kind_taskReturned ..))).trans (log rfl _)
  | batch _ hb =>
    have hlog : Quiet s ((s.enter h).log ((s.enter h).handledBy h cause)) := (enter h s).trans (log rfl _)
    exact hlog.trans (setBody (congrArg Body.kind hb).symm)
  | poll _ hb =>
    have hlog : Quiet s ((s.enter h).log ((s.enter h).handledBy h cause)) := (enter h s).trans (log rfl _)
    refine (hlog.trans ?_).trans (setBody (congrArg Body.kind hb).symm)
    exact { refl _ with steady := .of_eq rfl rfl rfl, polling := .inl rfl }

theorem suspend {h : CoroId} {p : Place} {rest : List Activation} (hp : p ≠ .initial)
    (hs : s.stack = .run h :: rest) : Quiet s (s.suspend h p) :=
  (setPlace h p hp s).trans (pop (by exact hs) rfl)

theorem call (ctx : Option CoroId) {b : Body} (hb : b.kind ≠ .killInternal) (s : State) : Quiet s (s.call ctx b) := by
  have hnew : Quiet s { s with
      coros := Function.update s.coros s.nextCoro
        { promise := { taskStatusPtr := some s.nextCoro }, body := b, place := .initial }
      statuses := Function.update s.statuses s.nextCoro {}
      nextCoro := s.nextCoro + 1
      vars := Function.update s.vars s.nextVar (some ⟨false, some s.nextCoro, some s.nextCoro⟩)
      nextVar := s.nextVar + 1 } := by
    refine of_eq ⟨Nat.le_succ _, fun h => ?_, fun h hi => ?_, fun h hd => ?_⟩ rfl rfl rfl rfl rfl rfl
    · by_cases hh : h = s.nextCoro
      · exact .inr ⟨hh.ge, by simpa [hh] using hb⟩
      · exact .inl (by simp [hh])
    · by_cases hh : h = s.nextCoro
      · exact .inr hh.ge
      · exact .inl (by simpa [hh] using hi)
    · by_cases hh : h = s.nextCoro
      · exact .inr hh.ge
      · exact .inl (by simpa [hh] using hd)
  unfold State.call
  cases ctx with
  | none => exact hnew
  | some c => exact hnew.trans (modCoro rfl id)

theorem startTask {t : TaskRef} (hs : s.startTask t = .ok s') : Quiet s s' := by
  unfold State.startTask at hs
  obtain ⟨e, he, hs⟩ := bind_ok.mp hs
  rw [need_ok] at he
  split at hs
  · cases hs
    exact refl s
  · obtain ⟨h, -, hs⟩ := bind_ok.mp hs
    exact ((setTask he (by rfl)).trans (push rfl _)).trans (resume hs)

theorem rethrow (hs : s.rethrow = .ok s') : Quiet s s' := by
  unfold State.rethrow at hs
  split at hs
  · rename_i hst
    cases hs
    exact pop hst rfl
  · rename_i hst
    split at hs
    · cases hs
      exact (pop hst rfl).trans (enter ..)
    · cases hs
  · cases hs
    exact refl s

theorem startReturn {t : TaskRef} {h : CoroId} (hs : s.startReturn t h = .ok s') : Quiet s s' := by
  unfold State.startReturn at hs
  obtain ⟨e, -, hs⟩ := bind_ok.mp hs
  split at hs
  · exact rethrow hs
  · cases hs
    exact refl s

theorem awaitSuspendTail {t : TaskRef} {a : CoroId} (hs : s.awaitSuspendTail t a = .ok s') : Quiet s s' := by
  unfold State.awaitSuspendTail at hs
  obtain ⟨e, -, hs⟩ := bind_ok.mp hs
  split at hs
  · exact resume hs
  · obtain ⟨h, -, hs⟩ := bind_ok.mp hs
    cases hs
    exact (modPromise ..).trans (modCoro rfl fun hi => Place.initial_of_arm hi)

theorem awaitTask {a : CoroId} {t : TaskRef} {rest : List Activation} (hst : s.stack = .run a :: rest)
    (hs : s.awaitTask a t = .ok s') : Quiet s s' := by
  unfold State.awaitTask at hs
  obtain ⟨e, -, hs⟩ := bind_ok.mp hs
  obtain ⟨h, -, hs⟩ := bind_ok.mp hs
  refine (suspend (p := .atTask t h false) (by simp) hst).trans ?_
  simp only at hs
  split at hs
  · exact awaitSuspendTail hs
  · exact (push rfl _).trans (startTask hs)

theorem destroyTask (v : VarId) (s : State) : Quiet s (s.destroyTask v) := by
  unfold State.destroyTask
  split
  · exact refl s
  · simp only
    split
    · split
      · exact of_eq (.of_eq rfl rfl rfl) rfl rfl rfl rfl rfl rfl
      · refine trans ?_ (modPromise _ _ _)
        exact of_eq (.of_eq rfl rfl rfl) rfl rfl rfl rfl rfl rfl
    · exact of_eq (.of_eq rfl rfl rfl) rfl rfl rfl rfl rfl rfl

theorem destroyTasks (vs : List VarId) (s : State) : Quiet s (vs.foldl (fun s v => s.destroyTask v) s) := by
  induction vs generalizing s with
  | nil => exact refl s
  | cons v vs ih => exact (destroyTask v s).trans (ih _)

theorem destroyLocals (h : CoroId) (s : State) : Quiet s (s.destroyLocals h) := by
  unfold State.destroyLocals
  refine (destroyTasks (s.coros h).vars.reverse s).trans ?_
  refine { refl _ with steady := .of_eq rfl rfl rfl, data := ?_, home := ?_, sqe := ?_, live := ?_,
                       held := ?_ } <;> intro r <;>
    by_cases hr : r ∈ (s.coros h).reqs <;> simp +contextual [hr]

theorem returnValue (h : CoroId) (code : ℕ) (s : State) : Quiet s (s.returnValue h code) := by
  unfold State.returnValue
  split
  · rename_i st _
    refine of_eq ⟨le_rfl, fun _ => .inl rfl, fun _ hi => .inl hi, fun x hd => .inl ?_⟩ rfl rfl rfl rfl rfl rfl
    by_cases hx : x = st
    · subst hx
      simpa using hd
    · simpa [hx] using hd
  · exact refl s

end Quiet

/-! ### The stack under small updates -/

namespace State

variable (s : State)

@[simp] theorem stack_modCoro (h : CoroId) (f : Coro → Coro) : (s.modCoro h f).stack = s.stack := rfl

@[simp] theorem stack_setPlace (h : CoroId) (p : Place) : (s.setPlace h p).stack = s.stack := rfl

@[simp] theorem stack_setBody (h : CoroId) (b : Body) : (s.setBody h b).stack = s.stack := rfl

@[simp] theorem stack_modPromise (h : CoroId) (f : Promise → Promise) : (s.modPromise h f).stack = s.stack := rfl

@[simp] theorem stack_modEv (f : EventManager → EventManager) : (s.modEv f).stack = s.stack := rfl

@[simp] theorem stack_modReq (r : ReqId) (f : Request → Request) : (s.modReq r f).stack = s.stack := rfl

@[simp] theorem stack_log (e : Event) : (s.log e).stack = s.stack := rfl

@[simp] theorem stack_push (a : Activation) : (s.push a).stack = a :: s.stack := rfl

@[simp] theorem stack_pop : s.pop.stack = s.stack.tail := rfl

@[simp] theorem stack_writeSqe (j : ℕ) (f : Slot → Slot) : (s.writeSqe j f).stack = s.stack := rfl

@[simp] theorem stack_destroyTask (v : VarId) : (s.destroyTask v).stack = s.stack := by
  unfold destroyTask
  split
  · rfl
  · simp only
    split
    · split <;> rfl
    · rfl

@[simp] theorem stack_destroyLocals (h : CoroId) : (s.destroyLocals h).stack = s.stack := by
  have hf : ∀ (vs : List VarId) (s : State), (vs.foldl (fun s v => s.destroyTask v) s).stack = s.stack := by
    intro vs
    induction vs with
    | nil => exact fun s => rfl
    | cons v vs ih => exact fun s => (ih _).trans (stack_destroyTask s v)
  exact hf _ s

@[simp] theorem stack_returnValue (h : CoroId) (code : ℕ) : (s.returnValue h code).stack = s.stack := by
  unfold returnValue
  split <;> rfl

/-! ### The end of a body -/

/-- The result of a body is stored, or that it threw. -/
def storeResult (h : CoroId) (out : Option ℕ) (s : State) : State :=
  match out with
  | some code => s.returnValue h code
  | none => s.modPromise h fun p => { p with exceptionPtr := true }

/-- The body of `h` has ended: its locals are gone, and `final_suspend` is about to look for an awaiter. -/
def endBody (h : CoroId) (out : Option ℕ) (s : State) : State :=
  (((s.destroyLocals h).setPlace h .final).pop.push (.finalSuspend h)).log (.returned h out)

@[simp] theorem stack_storeResult (h : CoroId) (out : Option ℕ) : (s.storeResult h out).stack = s.stack := by
  cases out with
  | none => rfl
  | some code => exact stack_returnValue s h code

/-- The body ends and its awaiter, if there is one, is resumed. -/
theorem finish_ok {s s' : State} {h : CoroId} {out : Option ℕ} (hs : s.finish h out = .ok s') :
    (∃ a, (s.coros h).promise.awaiterHandle = some a ∧
      ((s.storeResult h out).endBody h out).resume a none = .ok s') ∨
    (s.coros h).promise.awaiterHandle = none ∧ s' = (s.storeResult h out).endBody h out := by
  unfold finish at hs
  cases out with
  | none | some code =>
    simp only at hs
    split at hs
    · rename_i a ha
      exact .inl ⟨a, ha, hs⟩
    · rename_i ha
      cases hs
      exact .inr ⟨ha, rfl⟩

end State

namespace Quiet

variable {s s' : State}

theorem storeResult (h : CoroId) (out : Option ℕ) (s : State) : Quiet s (s.storeResult h out) := by
  cases out with
  | none => exact modPromise h (fun p => { p with exceptionPtr := true }) s
  | some code => exact returnValue h code s

theorem endBody {h : CoroId} {out : Option ℕ} {rest : List Activation} (hst : s.stack = .run h :: rest) :
    Quiet s (s.endBody h out) := by
  have hst' : ((s.destroyLocals h).setPlace h .final).stack = .run h :: rest := by simp [hst]
  refine ((destroyLocals h s).trans (setPlace h .final (by simp) _)).trans ?_
  exact ((pop hst' rfl).trans (push rfl _)).trans (log rfl _)

theorem finish {h : CoroId} {out : Option ℕ} {rest : List Activation} (hst : s.stack = .run h :: rest)
    (hs : s.finish h out = .ok s') : Quiet s s' := by
  have h1 := (storeResult h out s).trans (@endBody _ h out _ ((s.stack_storeResult h out).trans hst))
  rcases State.finish_ok hs with ⟨a, -, h2⟩ | ⟨-, rfl⟩
  · exact h1.trans (resume h2)
  · exact h1

theorem finalReturn (h : CoroId) (s : State) : Quiet s (s.finalReturn h) := by
  unfold State.finalReturn
  simp only
  split
  · rename_i st _
    refine trans ?_ (setPlace h .gone (by simp) _)
    refine of_eq ⟨le_rfl, fun _ => .inl rfl, fun _ hi => .inl hi, fun x hd => .inl ?_⟩ rfl rfl rfl rfl rfl rfl
    by_cases hx : x = st
    · subst hx
      simp
    · simpa [hx] using hd
  · exact setPlace h .gone (by simp) s

theorem destroyCoro {h : CoroId} (hs : s.destroyCoro h = .ok s') : Quiet s s' := by
  unfold State.destroyCoro at hs
  split at hs
  · cases hs
    exact (destroyLocals h s).trans (setPlace h .gone (by simp) _)
  · cases hs

theorem relink (e : EvTask) (s : State) : Quiet s (s.relink e) := by
  unfold State.relink
  split
  · exact modPromise ..
  · exact refl s

theorem relinks (es : List EvTask) (s : State) : Quiet s (es.foldl (fun s e => s.relink e) s) := by
  induction es generalizing s with
  | nil => exact refl s
  | cons e es ih => exact (relink e s).trans (ih _)

theorem overwriteTask {old : EvTask} (hs : s.overwriteTask old = .ok s') : Quiet s s' := by
  unfold State.overwriteTask at hs
  split at hs
  · cases hs
    exact refl s
  · split at hs
    · cases hs
    · split at hs
      · cases hs
        exact refl s
      · exact destroyCoro hs

theorem makeRoom {pick : ℕ} {grow : Bool} (hs : s.makeRoom pick grow = .ok s') : Quiet s s' := by
  unfold State.makeRoom at hs
  simp only at hs
  split at hs
  · cases hs
    split
    · exact relinks ..
    · exact refl s
  · split at hs
    · obtain ⟨old, -, hs⟩ := bind_ok.mp hs
      exact overwriteTask hs
    · cases hs

end Quiet

end EvManager
