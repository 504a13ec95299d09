import EvManager.IoOps

/-!
# The event loop

`event_loop/core.cpp`: the loop, the dispatch of completions, shutdown and registration, and over them the
step function of the whole program.  A step is what runs up to the next place where user code, the kernel
or the library has a choice, and the choice is given to the step that follows.
-/

namespace EvManager

open Lib

/-- `MAX_ITER`. -/
def maxIter : ℕ := 1000

/-- `IORING_ASYNC_CANCEL_ANY | IORING_ASYNC_CANCEL_ALL`. -/
def cancelFlags : ℤ := (4 ||| 1 : ℕ)

/-- What user code does next. -/
inductive Act
  /-- call a coroutine function of its own -/
  | call
  | submitAndWait (queue : RequestQueue)
  | poll
  | kill
  | startTask (v : VarId)
  | registerCoro (v : VarId)
  /-- an `EvTask` goes out of scope -/
  | destroyTask (v : VarId)
  /-- make an awaitable -/
  | io (p : ParameterPack)
  /-- an awaitable goes out of scope, at the end of its block or of its full expression -/
  | dropAwaitable (r : ReqId)
  | na (p : ParameterPack) (ret : ℤ)
  | submitQueuedEntries (ret : ℤ)
  | getUringSqe
  | start
  /-- `consume_resp_data` on the channel of a coroutine -/
  | consume (h : CoroId) (rt : RequestType)
  /-- `co_await` of a task, of an awaitable made before, and of one made in the same expression -/
  | awaitTask (v : VarId)
  | awaitIo (r : ReqId)
  | awaitOp (p : ParameterPack)
  | coReturn (code : ℕ)
  | throw
  /-- return from the handler of a batch or of `poll`, there with `STOP_POLLING` or not -/
  | handlerReturn (stop : Bool)
  deriving DecidableEq, Repr

/-- The choice a step is given. -/
inductive Choice
  | tau
  /-- `io_uring_submit` returns `ret` -/
  | sub (ret : ℤ)
  /-- `await_message` is called; `iovBase` is found in the memory of a parked `readv` -/
  | message (iovBase : Addr)
  /-- `io_uring_wait_cqe` gives the completion of the `i`-th request in flight -/
  | cqe (i : ℕ) (res : ℤ) (iovBase : Addr)
  /-- `io_uring_wait_cqe` fails -/
  | waitErr
  /-- `*_freed_idxs.begin()`, and whether the vector reallocates when it grows -/
  | pick (idx : ℕ) (grow : Bool)
  | user (a : Act)
  deriving DecidableEq, Repr

namespace State

/-! ### Dispatch -/

/-- `event_handler`, up to the body of the coroutine it resumes. -/
def eventHandler (res : ℤ) (reqData : Option ReqId) (iovBase : Addr) (s : State) : Except Stop State :=
  match reqData with
  | none => .ok s
  | some r =>
    let q := s.reqs r
    if q.live then
      match q.data.handle with
      | none => .ok (s.modEv fun ev => { ev with readyRequestsStore := (res, r) :: ev.readyRequestsStore })
      | some h => do
        let pack ← need .unionMember (responsePack q.data.reqType q.data.specificData res iovBase)
        let s := s.modPromise h fun p => { p with comData := p.comData.publishRespData pack }
        resume h (some r) ((s.log (.resumed r h res pack)).push (.eventHandler r h))
    else .error (if q.held then .late else .undefined .deadRequest)

/-- `event_handler`, after `req_data->handle.resume()`. -/
def eventHandlerReturn (r : ReqId) (h : CoroId) (s : State) : Except Stop State :=
  let q := s.reqs r
  let s := if q.data.handle = none ∨ s.isDone h then
      s.modEv fun ev => { ev with managedCoroutinesStore := ev.managedCoroutinesStore.erase q.data.coroIdx }
    else s
  if q.data.allocatedDynamic then
    if q.live then .ok ((s.modReq r fun q => { q with live := false }).log (.deleted r))
    else .error (.undefined .doubleDelete)
  else .ok s

/-- An iteration of the loop in `start`, up to `io_uring_wait_cqe` or the body of the poller. -/
def awaitMessage (iovBase : Addr) (s : State) : Except Stop State :=
  let waiting := s.push .awaitWait
  match s.ev.readyRequestsStore, s.ev.pollingHandle with
  | (res, r) :: ready, some p =>
    eventHandler res (some r) iovBase
      ((waiting.modEv fun ev => { ev with readyRequestsStore := ready }).modReq r fun q =>
        { q with data := { q.data with handle := some p } })
  | _, _ => .ok waiting

/-- `io_uring_wait_cqe` returns the completion of the `i`-th request in flight. -/
def awaitCqe (i : ℕ) (res : ℤ) (iovBase : Addr) (s : State) : Except Stop State :=
  if s.ev.ringUp then
    match s.ev.ring.inFlight[i]? with
    | some x =>
      let s := (s.pop.push .awaitSeen).setRing (s.ev.ring.reap i)
      let s := match x.sqe.userData with
        | some r => s.log (.completed r res)
        | none => s
      eventHandler res x.sqe.userData iovBase s
    | none => .error .disabled
  else .error (.undefined .ringDown)

/-- `_in_flight_requests--`, on a `size_t`. -/
def decrement (n : ℕ) : ℕ := if n = 0 then u64 (-1) else n - 1

/-- The rest of `await_message`. -/
def awaitSeen (s : State) : Except Stop State :=
  if s.ev.ringUp then
    let s := { s.pop with seen := s.seen + 1 }
    let s := s.modEv fun ev => { ev with inFlightRequests := decrement ev.inFlightRequests }
    match s.ev.managerLifeState, s.ev.killCoroTask.handle with
    | .dying, some h => resume h none s
    | .dying, none => .error (.undefined .nullHandle)
    | _, _ => .ok s
  else .error (.undefined .ringDown)

/-- `start`, entered from user code. -/
def startLoop (s : State) : State :=
  if LivingState.living.rank ≤ s.ev.managerLifeState.rank then s
  else (s.modEv fun ev => { ev with managerLifeState := .living }).push .start

/-! ### Shutdown -/

/-- Up to `n` tries to get an entry for the cancel request. -/
def cancelSqe (s : State) : ℕ → Except Stop (Option ℕ × State)
  | 0 => .ok (none, s)
  | n + 1 => do
    match ← s.ioUringGetSqe .cancel with
    | (some sqe, s) => return (some sqe, s)
    | (none, s) => cancelSqe s n

/-- One of the two flush loops at its head: a submit, or what comes when the loop ends. -/
def flushLoop (h : CoroId) (pc : ℕ → KillPc) (iter : ℕ) (ret : Option ℤ) (next : State → Except Stop State)
    (s : State) : Except Stop State :=
  if s.ev.ringUp then
    if s.ev.ring.unpublished ≠ 0 ∧ iter < maxIter then
      match ret with
      | some ret => do
        let s ← s.submitQueuedEntries ret
        return s.setBody h (.killInternal (pc (iter + 1)))
      | none => .error .disabled
    else if ret = none then
      if s.ev.ring.unpublished ≠ 0 then s.finish h (some (u64 (-1))) else next s
    else .error .disabled
  else .error (.undefined .ringDown)

/-- A step of `kill_internal`, run by the coroutine `h`. -/
def killInternal (h : CoroId) (pc : KillPc) (ret : Option ℤ) (s : State) : Except Stop State :=
  match pc with
  | .begin =>
    if ret = none then
      if LivingState.dying.rank ≤ s.ev.managerLifeState.rank then s.finish h (some (u64 (-1)))
      else .ok ((s.modEv fun ev => { ev with managerLifeState := .dying }).setBody h (.killInternal (.flush 0)))
    else .error .disabled
  | .flush iter => s.flushLoop h .flush iter ret fun s => .ok (s.setBody h (.killInternal .cancel))
  | .cancel =>
    if ret = none then do
      match ← s.cancelSqe maxIter with
      | (none, s) => s.finish h (some (u64 (-1)))
      | (some sqe, s) =>
        return (s.writeSqe sqe (Slot.prep (ioUringPrepCancel 0 cancelFlags))).setBody h
          (.killInternal (.flushCancel 0))
    else .error .disabled
  | .flushCancel iter => s.flushLoop h .flushCancel iter ret fun s => .ok (s.setBody h (.killInternal .wait))
  | .wait =>
    if ret = none then
      if s.ev.inFlightRequests ≠ 0 then .ok (s.suspend h .atAlways)
      else (s.modEv fun ev => { ev with managerLifeState := .dead, ringUp := false }).finish h (some 0)
    else .error .disabled

/-! ### Registration -/

/-- The vector before an insert: if it reallocates it moves its elements, and a freed slot is assigned
over. -/
def makeRoom (pick : ℕ) (grow : Bool) (s : State) : Except Stop State :=
  let store := s.ev.managedCoroutinesStore
  if store.freedIdxs = ∅ then .ok (if grow then store.items.foldl (fun s e => s.relink e) s else s)
  else if pick ∈ store.freedIdxs then do
    let old ← need .outOfBounds (store.get? pick)
    overwriteTask old s
  else .error .disabled

/-- `insert(std::move(coro))` for the task `e`, and `set_coro_metadata`. -/
def insertTask (pick : ℕ) (e : EvTask) (s : State) : State :=
  let store := s.ev.managedCoroutinesStore
  let s := (s.relink e).modEv fun ev => { ev with managedCoroutinesStore := store.insert pick e }
  match e.handle with
  | some h => s.modPromise h fun p => { p with metadata := store.selectedIdx pick }
  | none => s

/-- `register_coro`, after `coro.start()`. -/
def registerCoroReturn (v : VarId) (pick : ℕ) (grow : Bool) (s : State) : Except Stop State := do
  let s ← s.makeRoom pick grow
  let e ← need .deadTask (s.vars v)
  return { s.insertTask pick e with vars := Function.update s.vars v (some {}) }

/-! ### User code -/

/-- What user code may do that belongs to no coroutine or to `ctx`. -/
def userStep (ctx : Option CoroId) (a : Act) (s : State) : Except Stop State :=
  match a with
  | .call => .ok (s.call ctx .user)
  | .submitAndWait q => .ok (s.call ctx (.submitAndWait q {}))
  | .poll => .ok (s.call ctx (.poll .begin))
  | .kill => .ok (s.call ctx (.kill none))
  | .startTask v => s.startTask (.var v)
  | .registerCoro v => (s.push (.registerCoro v)).startTask (.var v)
  | .destroyTask v => .ok (s.destroyTask v)
  | .io p => (s.ioOp ctx p).map Prod.snd
  | .dropAwaitable r =>
    if (s.reqs r).home = .awaitable ctx ∧ ((s.reqs r).data.handle = none ∨ (s.reqs r).live = false) then
      .ok (s.modReq r fun q => { q with live := false, held := false })
    else .error .disabled
  | .na p ret => (s.naOp p ret).map Prod.snd
  | .submitQueuedEntries ret => s.submitQueuedEntries ret
  | .getUringSqe => (s.getUringSqe .raw).map Prod.snd
  | .start => .ok s.startLoop
  | .consume h rt =>
    if h < s.nextCoro then .ok (s.modPromise h fun p => { p with comData := (p.comData.consumeRespData rt).2 })
    else .error .disabled
  | .awaitTask _ | .awaitIo _ | .awaitOp _ | .coReturn _ | .throw | .handlerReturn _ => .error .disabled

/-- What user code may do in the body of the coroutine `h`. -/
def coroStep (h : CoroId) (a : Act) (s : State) : Except Stop State :=
  match a with
  | .awaitTask v => s.awaitTask h (.var v)
  | .awaitIo r => s.awaitIo h r
  | .awaitOp p => do
    let (r, s) ← s.ioOp (some h) p
    s.awaitIo h r
  | .coReturn code => s.finish h (some code)
  | .throw => s.finish h none
  | a => s.userStep (some h) a

/-! ### The step function -/

/-- A step of the body of the running coroutine `h`. -/
def bodyStep (h : CoroId) (c : Choice) (s : State) : Except Stop State :=
  match (s.coros h).body, c with
  | .user, .user a => s.coroStep h a
  | .killInternal pc, .tau => s.killInternal h pc none
  | .killInternal pc, .sub ret => s.killInternal h pc (some ret)
  | .kill none, .tau => s.awaitTask h .kill
  | .kill (some code), .tau => s.finish h (some code)
  | .submitAndWait q l, c =>
    match l.pc, c with
    | .begin, .sub ret => s.submitAndWaitBegin h q ret
    | .loop, .tau => s.submitAndWaitLoop h q l none
    | .loop, .sub ret => s.submitAndWaitLoop h q l (some ret)
    | .handler i, .user (.handlerReturn _) => .ok (s.submitAndWaitNext h q l i)
    | .handler _, .user .throw => s.finish h none
    | .handler _, .user a => s.userStep none a
    | _, _ => .error .disabled
  | .poll pc, c =>
    match pc, c with
    | .begin, .tau => s.pollBegin h
    | .handler, .user (.handlerReturn stop) => s.pollNext h stop
    | .handler, .user .throw => s.finish h none
    | .handler, .user a => s.userStep none a
    | _, _ => .error .disabled
  | _, _ => .error .disabled

/-- A step of the program. -/
def step (s : State) (c : Choice) : Except Stop State :=
  match s.stack, c with
  | .main :: _, .user a => s.userStep none a
  | .start :: _, .message base =>
    if s.ev.managerLifeState.rank < LivingState.dead.rank then s.awaitMessage base else .error .disabled
  | .start :: _, .tau =>
    if s.ev.managerLifeState.rank < LivingState.dead.rank then .error .disabled else .ok s.pop
  | .awaitWait :: _, .cqe i res base => s.awaitCqe i res base
  | .awaitWait :: _, .waitErr => .error (.undefined .uninitCqe)
  | .awaitSeen :: _, .tau => s.awaitSeen
  | .eventHandler r h :: _, .tau => s.pop.eventHandlerReturn r h
  | .run h :: _, c => s.bodyStep h c
  | .taskStart t h :: _, .tau => s.pop.startReturn t h
  | .registerCoro v :: _, .pick idx grow => s.pop.registerCoroReturn v idx grow
  | .taskAwait t a :: _, .tau => s.pop.awaitSuspendTail t a
  | .finalSuspend h :: _, .tau => .ok (s.pop.finalReturn h)
  | .ioSubmit h r :: _, .sub ret => s.ioSubmit h r ret
  | _, _ => .error .disabled

/-! ### Initial states -/

/-- The state before the constructor sets the ring up: `kill_internal` was called and is the coroutine
`0`. -/
def blank (ring : Uring Slot) (ringUp : Bool) (life : LivingState) : State where
  ev := { managerLifeState := life, ring, ringUp, killCoroTask := ⟨false, some 0, some 0⟩ }
  coros := Function.update (fun _ => {}) 0
    { promise := { taskStatusPtr := some 0 }, body := .killInternal .begin, place := .initial }
  nextCoro := 1
  statuses _ := {}
  vars _ := none
  nextVar := 0
  reqs _ := {}
  nextReq := 0
  stack := [.main]
  seen := 0
  trace := []

/-- A manager whose ring of `entries` entries was set up. -/
def init (entries : ℕ) : State := blank (Uring.init entries {}) true .notStarted

/-- A manager whose constructor failed. -/
def initFailed : State := blank (Uring.init 0 {}) false .dead

/-- What a program starts from. -/
inductive Initial : State → Prop
  | up (entries : ℕ) : Initial (init entries)
  | failed : Initial initFailed

end State

/-! ### Reachable states -/

/-- The states a program reaches by steps that all meet `P`. -/
def Reach (P : State → Choice → Prop) (s : State) : Prop := ∃ s₀, State.Initial s₀ ∧ Run State.step P s₀ s

/-- The states a program reaches. -/
def Reachable (s : State) : Prop := Reach (fun _ _ => True) s

namespace Reach

variable {P Q : State → Choice → Prop} {s : State}

/-- The invariant rule, with another invariant already known. -/
theorem inv_of {I J : State → Prop} (hJ : ∀ s, Reach P s → J s) (h0 : ∀ s, State.Initial s → I s)
    (hs : ∀ s c s', J s → I s → P s c → State.step s c = .ok s' → I s') (h : Reach P s) : I s := by
  obtain ⟨s₀, hi, hr⟩ := h
  exact hr.inv_of (J := J) (fun s hs => hJ s ⟨s₀, hi, hs⟩) (h0 s₀ hi) hs

theorem inv {I : State → Prop} (h0 : ∀ s, State.Initial s → I s)
    (hs : ∀ s c s', I s → P s c → State.step s c = .ok s' → I s') (h : Reach P s) : I s :=
  inv_of (J := fun _ => True) (fun _ _ => trivial) h0 (fun s c s' _ => hs s c s') h

theorem mono_of {J : State → Prop} (hJ : ∀ s, Reach P s → J s) (hPQ : ∀ s c, J s → P s c → Q s c)
    (h : Reach P s) : Reach Q s := by
  obtain ⟨s₀, hi, hr⟩ := h
  exact ⟨s₀, hi, hr.mono_of (J := J) (fun s hs => hJ s ⟨s₀, hi, hs⟩) hPQ⟩

theorem mono (hPQ : ∀ s c, P s c → Q s c) (h : Reach P s) : Reach Q s := by
  obtain ⟨s₀, hi, hr⟩ := h
  exact ⟨s₀, hi, hr.mono hPQ⟩

theorem reachable (h : Reach P s) : Reachable s := h.mono fun _ _ _ => trivial

theorem step {s' : State} {c : Choice} (h : Reach P s) (hP : P s c) (hs : State.step s c = .ok s') : Reach P s' := by
  obtain ⟨s₀, hi, hr⟩ := h
  exact ⟨s₀, hi, .tail hr hP hs⟩

/-- What a check computes at the end of a list of choices holds of a state that is reached. -/
theorem of_exec [∀ s c, Decidable (P s c)] {s₀ : State} {cs : List Choice} {p : State → Bool}
    (hi : State.Initial s₀) (he : (exec State.step P s₀ cs).map p = some true) : ∃ s, Reach P s ∧ p s = true := by
  obtain ⟨s, hr, hp⟩ := Run.exists_of_exec he
  exact ⟨s, ⟨s₀, hi, hr⟩, hp⟩

end Reach

theorem Reachable.step {s s' : State} {c : Choice} (h : Reachable s) (hs : State.step s c = .ok s') : Reachable s' :=
  Reach.step h trivial hs

end EvManager
