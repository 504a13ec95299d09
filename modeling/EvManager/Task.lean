import EvManager.State
import EvManager.Lib.Run

/-!
# Coroutines and tasks

What a `resume()` sets going, and the operations of `EvTask` and its promise (`coroutine/task.cpp`).

When a coroutine suspends, the call of its body leaves the stack and `await_suspend` runs in its place:
`await_suspend` returns to whoever resumed the coroutine, so nothing of the body's call is left to do.
-/

namespace EvManager

open ErrorProcessing

/-- What a body keeps of the code an awaited task returned. -/
def Body.taskReturned (code : ℕ) : Body → Body
  | .kill _ => .kill (some code)
  | b => b

/-- The handle of a coroutine that awaits a task has been stored. -/
def Place.arm : Place → Place
  | .atTask t h _ => .atTask t h true
  | p => p

namespace State

/-! ### Resuming -/

/-- The body of `h` runs. -/
def enter (h : CoroId) (s : State) : State := (s.setPlace h .running).push (.run h)

/-- `IOAwaitable::await_resume`: the response and the channel after. -/
def awaitResume (rt : RequestType) (error : ErrorCodes) (chan : CommunicationChannel) :
    IOResponse × CommunicationChannel :=
  if isThereAnError error then (⟨error, .empty rt⟩, chan)
  else
    match chan.consumeRespData rt with
    | (none, chan') =>
      (⟨setErrorFromEnum error .systemCommunicationChannelFailure, .empty rt⟩, chan')
    | (some data, chan') =>
      if data.generic.errorNum ≠ 0 then
        (⟨setErrorFromNum .operationErrErrno error (-data.generic.errorNum), data⟩, chan')
      else (⟨.noErr, data⟩, chan')

/-- The `co_await` of `h` on the awaitable with record `r` returns.  The awaitable stays to the end of its scope. -/
def ioReturn (h : CoroId) (r : ReqId) (s : State) : State :=
  let q := s.reqs r
  let ret := awaitResume q.data.reqType q.error (s.coros h).promise.comData
  ((s.modPromise h fun p => { p with comData := ret.2 }).modReq r fun q => { q with live := false, held := true }).log
    (.ioReturned h r ret.1)

/-- `EvTask::await_resume`. -/
def retCode (e : EvTask) (s : State) : ℕ :=
  match e.taskStatusPtr with
  | some st => (s.statuses st).retCode
  | none => u64 (-1)

/-- The `co_await` of `h` on the task `t` of `child` returns; the body of `kill` keeps the code. -/
def taskResume (h : CoroId) (t : TaskRef) (child : CoroId) (s : State) : Except Stop State := do
  let e ← need .deadTask (s.task t)
  return (s.setBody h ((s.coros h).body.taskReturned (s.retCode e))).log (.taskReturned h t child (s.retCode e))

/-- What follows `co_await GenericResponse{}` in `submit_and_wait` and in `poll`, up to the call of the
handler. -/
def genericResume (h : CoroId) (cause : Option ReqId) (s : State) : Except Stop State :=
  let chan := (s.coros h).promise.comData
  let called := s.log (.handled h cause chan.responseStoreCurrentType chan.responseStore)
  match (s.coros h).body with
  | .submitAndWait q l =>
    match l.pc with
    | .await i => .ok (called.setBody h (.submitAndWait q { l with pc := .handler i }))
    | _ => .error (.undefined .notSuspended)
  | .poll .waiting =>
    .ok ((called.modEv fun ev => { ev with pollingHandle := none }).setBody h (.poll .handler))
  | _ => .error (.undefined .notSuspended)

/-- `handle.resume()`: the `await_resume` the coroutine is suspended at, then its body. -/
def resume (h : CoroId) (cause : Option ReqId) (s : State) : Except Stop State :=
  match (s.coros h).place with
  | .initial | .atAlways => .ok (s.enter h)
  | .atIo r => .ok ((s.enter h).ioReturn h r)
  | .atTask t child _ => (s.enter h).taskResume h t child
  | .atGeneric => (s.enter h).genericResume h cause
  | .running | .final | .gone => .error (.undefined .notSuspended)

/-- The running coroutine `h` suspends. -/
def suspend (h : CoroId) (p : Place) (s : State) : State := (s.setPlace h p).pop

/-! ### Tasks -/

/-- Calling a coroutine function: the frame and its `EvTask`, which becomes an object of `ctx`. -/
def call (ctx : Option CoroId) (b : Body) (s : State) : State :=
  let h := s.nextCoro
  let v := s.nextVar
  let s' := { s with
    coros := Function.update s.coros h { promise := { taskStatusPtr := some h }, body := b, place := .initial }
    statuses := Function.update s.statuses h {}
    nextCoro := h + 1
    vars := Function.update s.vars v (some ⟨false, some h, some h⟩)
    nextVar := v + 1 }
  match ctx with
  | some c => s'.modCoro c fun c => { c with vars := c.vars ++ [v] }
  | none => s'

/-- `EvTask::start`, up to the body of the coroutine. -/
def startTask (t : TaskRef) (s : State) : Except Stop State := do
  let e ← need .deadTask (s.task t)
  if e.startedCoro then return s
  else
    let h ← need .nullHandle e.handle
    resume h none ((s.setTask t { e with startedCoro := true }).push (.taskStart t h))

/-- An exception leaves `start()`: it passes `register_coro`, and `await_suspend` hands it to the
coroutine that awaits, which goes on with it.  User code may catch it or throw on. -/
def rethrow (s : State) : Except Stop State :=
  match s.stack with
  | .registerCoro _ :: _ => .ok s.pop
  | .taskAwait _ a :: _ =>
    if (s.coros a).place.suspended then .ok (s.pop.enter a) else .error (.undefined .notSuspended)
  | _ => .ok s

/-- `EvTask::start`, after `_handle.resume()`. -/
def startReturn (t : TaskRef) (h : CoroId) (s : State) : Except Stop State := do
  let e ← need .deadTask (s.task t)
  if !s.taskDone e && (s.coros h).promise.exceptionPtr then s.rethrow else return s

/-- `awaiter_handle = other_handle` in the promise of `h`. -/
def setAwaiter (h a : CoroId) (s : State) : State :=
  (s.modPromise h fun p => { p with awaiterHandle := some a }).modCoro a fun c => { c with place := c.place.arm }

/-- `EvTask::await_suspend`, after `start()`. -/
def awaitSuspendTail (t : TaskRef) (a : CoroId) (s : State) : Except Stop State := do
  let e ← need .deadTask (s.task t)
  if s.taskDone e then resume a none s
  else
    let h ← need .nullHandle e.handle
    return s.setAwaiter h a

/-- The running coroutine `a` co_awaits the task `t`. -/
def awaitTask (a : CoroId) (t : TaskRef) (s : State) : Except Stop State := do
  let e ← need .deadTask (s.task t)
  let h ← need .nullHandle e.handle
  let s := s.suspend a (.atTask t h false)
  if e.startedCoro then awaitSuspendTail t a s
  else startTask t (s.push (.taskAwait t a))

/-- `EvTask::~EvTask`. -/
def destroyTask (v : VarId) (s : State) : State :=
  match s.vars v with
  | none => s
  | some e =>
    let s' := { s with vars := Function.update s.vars v none }
    match e.taskStatusPtr, e.handle with
    | some st, some h =>
      if (s.statuses st).handlerDone then s' else s'.modPromise h fun p => { p with taskStatusPtr := none }
    | _, _ => s'

/-- The objects of the frame of `h` are destroyed. -/
def destroyLocals (h : CoroId) (s : State) : State :=
  let c := s.coros h
  let s' := c.vars.reverse.foldl (fun s v => s.destroyTask v) s
  { s' with reqs := fun r => if r ∈ c.reqs then { s'.reqs r with live := false, held := false } else s'.reqs r }

/-- `return_value`. -/
def returnValue (h : CoroId) (code : ℕ) (s : State) : State :=
  match (s.coros h).promise.taskStatusPtr with
  | some st => { s with statuses := Function.update s.statuses st { s.statuses st with retCode := code } }
  | none => s

/-- The body of the running coroutine `h` ends, by `co_return` or with an exception: the return code or
the exception is stored, the locals go, and `final_suspend` resumes the awaiter. -/
def finish (h : CoroId) (out : Option ℕ) (s : State) : Except Stop State :=
  let s1 := match out with
    | some code => s.returnValue h code
    | none => s.modPromise h fun p => { p with exceptionPtr := true }
  let s2 := (((s1.destroyLocals h).setPlace h .final).pop.push (.finalSuspend h)).log (.returned h out)
  match (s.coros h).promise.awaiterHandle with
  | some a => resume a none s2
  | none => .ok s2

/-- `final_suspend`, after the awaiter was resumed; the frame then destroys itself. -/
def finalReturn (h : CoroId) (s : State) : State :=
  let s1 := match (s.coros h).promise.taskStatusPtr with
    | some st =>
      { s with statuses := Function.update s.statuses st { s.statuses st with handlerDone := true } }
    | none => s
  s1.setPlace h .gone

/-- `_handle.destroy()`. -/
def destroyCoro (h : CoroId) (s : State) : Except Stop State :=
  if (s.coros h).place.suspended then .ok ((s.destroyLocals h).setPlace h .gone)
  else .error (.undefined .notSuspended)

/-- `_handle.promise().state.task_status_ptr = _task_status_ptr.get()`, as a move of `e` does it. -/
def relink (e : EvTask) (s : State) : State :=
  match e.handle with
  | some h => s.modPromise h fun p => { p with taskStatusPtr := e.taskStatusPtr }
  | none => s

/-- What `EvTask::operator=` does to the task it overwrites. -/
def overwriteTask (old : EvTask) (s : State) : Except Stop State :=
  match old.handle with
  | none => .ok s
  | some h =>
    match old.taskStatusPtr with
    | none => .error (.undefined .nullHandle)
    | some st => if (s.statuses st).handlerDone then .ok s else destroyCoro h s

end State

end EvManager
