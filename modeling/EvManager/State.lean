import EvManager.Errors
import EvManager.Parameters
import EvManager.ItemStore
import EvManager.Lib.Uring

/-!
# The state of a program on one event manager

The manager, its ring, every coroutine frame with its promise, every `EvTask`, `TaskStatus` and
`RequestData`, and the C++ call stack.  Objects are named by their addresses, which are never handed out
twice: an object that is gone keeps its last value and is marked as gone.

Code of this library runs as the source has it.  Bodies of user coroutines, poll and batch handlers and
`main` are arbitrary: while one of them is on top of the stack the next action is a choice.
-/

namespace EvManager

open Lib

/-- The address of an `EvTask` object other than `_kill_coro_task` and those in the store. -/
abbrev VarId := ℕ

/-- An `EvTask` that a `co_await` can name. -/
inductive TaskRef
  | var (v : VarId)
  | kill
  deriving DecidableEq, Repr

/-! ### Tasks and coroutines -/

structure TaskStatus where
  handlerDone : Bool := false
  retCode : ℕ := 0
  deriving DecidableEq, Repr

structure EvTask where
  startedCoro : Bool := false
  taskStatusPtr : Option StatusId := none
  handle : Option CoroId := none
  deriving DecidableEq, Repr

/-- `EvTask::promise_type`. -/
structure Promise where
  exceptionPtr : Bool := false
  comData : CommunicationChannel := {}
  awaiterHandle : Option CoroId := none
  taskStatusPtr : Option StatusId := none
  metadata : ℕ := 0
  deriving DecidableEq, Repr

/-- Where the control of a coroutine is. -/
inductive Place
  /-- at `initial_suspend` -/
  | initial
  | running
  /-- in the `co_await` of the I/O awaitable whose record is `r` -/
  | atIo (r : ReqId)
  /-- in the `co_await` of the task `t` of coroutine `h`; armed once `await_suspend` has stored the
  handle in `awaiter_handle` -/
  | atTask (t : TaskRef) (h : CoroId) (armed : Bool)
  /-- at `co_await GenericResponse{}` -/
  | atGeneric
  /-- at `co_await std::suspend_always{}` -/
  | atAlways
  /-- in `final_suspend` -/
  | final
  /-- the frame is destroyed -/
  | gone
  deriving DecidableEq, Repr

/-- The body has neither returned nor been destroyed. -/
def Place.unfinished : Place → Bool
  | .final | .gone => false
  | _ => true

/-- The coroutine is suspended, so that it may be resumed or destroyed. -/
def Place.suspended : Place → Bool
  | .running | .final | .gone => false
  | _ => true

/-- The program counter of `kill_internal`, with `iter` in its two flush loops. -/
inductive KillPc
  | begin | flush (iter : ℕ) | cancel | flushCancel (iter : ℕ) | wait
  deriving DecidableEq, Repr

/-- The program counter of `submit_and_wait`, with `i` of its inner loop. -/
inductive BatchPc
  | begin | loop | await (i : ℕ) | handler (i : ℕ)
  deriving DecidableEq, Repr

inductive PollPc
  | begin | waiting | handler
  deriving DecidableEq, Repr

/-- The local variables of `submit_and_wait`; `reqData` are the addresses of the vector's elements. -/
structure BatchLocals where
  pc : BatchPc := .begin
  reqData : List ReqId := []
  numSubmitted : ℕ := 0
  numQueued : ℕ := 0
  deriving DecidableEq, Repr

/-- The function a coroutine runs and where in it it is.  Of a user's body nothing is known. -/
inductive Body
  | user
  | killInternal (pc : KillPc)
  | kill (ret : Option ℕ)
  | submitAndWait (queue : RequestQueue) (l : BatchLocals)
  | poll (pc : PollPc)
  deriving DecidableEq, Repr

/-- A coroutine frame: the promise, the control, and the task objects and request records in it. -/
structure Coro where
  promise : Promise := {}
  body : Body := .user
  place : Place := .gone
  vars : List VarId := []
  reqs : List ReqId := []
  deriving DecidableEq, Repr

/-! ### Requests -/

/-- What a slot of the ring was last handed out for. -/
inductive Purpose
  | request (p : ParameterPack) (r : ReqId)
  | cancel
  | raw
  deriving DecidableEq, Repr

/-- A slot of the ring: the entry, and as ghosts what it was last handed out for and whether its
`user_data` was set since. -/
structure Slot where
  sqe : Sqe := {}
  purpose : Option Purpose := none
  written : Bool := false
  deriving DecidableEq, Repr

def Slot.hand (p : Purpose) (x : Slot) : Slot := { x with purpose := some p, written := false }

def Slot.prep (f : Sqe → Sqe) (x : Slot) : Slot := { x with sqe := f x.sqe }

def Slot.setData (d : Option ReqId) (x : Slot) : Slot :=
  { x with sqe := ioUringSqeSetData d x.sqe, written := true }

/-- The three owners of a `RequestData`: an awaitable in the frame of `h` (or of no coroutine), the heap,
the vector `req_data` of the batch coroutine `h`. -/
inductive Home
  | awaitable (h : Option CoroId)
  | heap
  | vector (h : CoroId)
  deriving DecidableEq, Repr

/-- A `RequestData` with its owner; `error` and `sqe` are the fields of the awaitable around it.  It is `live` until
it is deleted or goes with its frame; an awaitable is live until its `co_await` returns, and from there to the end
of its scope it is `held`. -/
structure Request where
  data : RequestData := {}
  live : Bool := false
  held : Bool := false
  home : Home := .heap
  error : ErrorCodes := .noErr
  sqe : Option ℕ := none
  deriving DecidableEq, Repr

/-- The object is there. -/
def Request.there (q : Request) : Bool := q.live || q.held

/-- `IOResponse`. -/
structure IOResponse where
  error : ErrorCodes
  data : ResponsePack
  deriving DecidableEq, Repr

/-! ### The manager -/

inductive LivingState
  | notStarted | living | dying | dead
  deriving DecidableEq, Repr

/-- The position in the enum, which the comparisons of the source go by. -/
def LivingState.rank : LivingState → ℕ
  | .notStarted => 0
  | .living => 1
  | .dying => 2
  | .dead => 3

/-- `EventManager`.  The vector `_ready_requests_store` has its back at the head of the list. -/
structure EventManager where
  managerLifeState : LivingState := .notStarted
  ring : Uring Slot := Uring.init 0 {}
  ringUp : Bool := false
  managedCoroutinesStore : ItemStore EvTask := {}
  pollingRequests : Bool := false
  pollingHandle : Option CoroId := none
  readyRequestsStore : List (ℤ × ReqId) := []
  inFlightRequests : ℕ := 0
  killCoroTask : EvTask := {}

/-! ### The call stack and the history -/

/-- A call that is waiting for another to return, or the code that is running. -/
inductive Activation
  | main
  /-- the loop in `EventManager::start` -/
  | start
  /-- `await_message`, about to call `io_uring_wait_cqe` -/
  | awaitWait
  /-- `await_message`, in `event_handler` for the completion it took -/
  | awaitSeen
  /-- `event_handler`, in `req_data->handle.resume()` -/
  | eventHandler (r : ReqId) (h : CoroId)
  /-- the body of a coroutine -/
  | run (h : CoroId)
  /-- `EvTask::start`, in `_handle.resume()` -/
  | taskStart (t : TaskRef) (h : CoroId)
  /-- `register_coro`, in `coro.start()` -/
  | registerCoro (v : VarId)
  /-- `EvTask::await_suspend`, in `start()` -/
  | taskAwait (t : TaskRef) (a : CoroId)
  /-- `final_suspend`, in `awaiter_handle.resume()` -/
  | finalSuspend (h : CoroId)
  /-- `IOAwaitable::await_suspend`, about to call `submit_queued_entries` -/
  | ioSubmit (h : CoroId) (r : ReqId)
  deriving DecidableEq, Repr

/-- What a run has done that the state alone does not tell. -/
inductive Event
  /-- the completion of the request came with this result -/
  | completed (r : ReqId) (res : ℤ)
  /-- `event_handler` published the pack to `h` and resumed it on account of the request -/
  | resumed (r : ReqId) (h : CoroId) (res : ℤ) (pack : ResponsePack)
  /-- a `co_await` on an I/O awaitable returned -/
  | ioReturned (h : CoroId) (r : ReqId) (resp : IOResponse)
  /-- a poll or batch handler was called, `cause` being the request resumed for -/
  | handled (h : CoroId) (cause : Option ReqId) (type : Option RequestType) (resp : Option ResponsePack)
  /-- an `_na` call took its request in -/
  | accepted (r : ReqId)
  /-- a heap record was deleted -/
  | deleted (r : ReqId)
  /-- a `co_await` of `h` on the task `t` of coroutine `child` returned -/
  | taskReturned (h : CoroId) (t : TaskRef) (child : CoroId) (code : ℕ)
  /-- a body ended, with a return code or an exception -/
  | returned (h : CoroId) (code : Option ℕ)
  deriving DecidableEq, Repr

structure State where
  ev : EventManager
  coros : CoroId → Coro
  nextCoro : ℕ
  statuses : StatusId → TaskStatus
  vars : VarId → Option EvTask
  nextVar : ℕ
  reqs : ReqId → Request
  nextReq : ℕ
  stack : List Activation
  /-- how many completions were marked seen -/
  seen : ℕ
  /-- newest first -/
  trace : List Event

/-- Why a run goes no further. -/
inductive Fault
  | nullManager | ringDown | uninitCqe | deadRequest | unionMember | notSuspended | nullHandle | deadTask
  | outOfBounds | doubleDelete
  deriving DecidableEq, Repr

inductive Stop
  /-- the choice is not one the program has here -/
  | disabled
  /-- the program does something undefined -/
  | undefined (f : Fault)
  /-- a completion comes for an awaitable that is held after its `co_await` has returned: it resumes the coroutine
  wherever this is suspended, and what follows is not modelled -/
  | late
  deriving DecidableEq, Repr

/-! ### Small updates -/

namespace State

def push (a : Activation) (s : State) : State := { s with stack := a :: s.stack }

def pop (s : State) : State := { s with stack := s.stack.tail }

def log (e : Event) (s : State) : State := { s with trace := e :: s.trace }

def modEv (f : EventManager → EventManager) (s : State) : State := { s with ev := f s.ev }

def modCoro (h : CoroId) (f : Coro → Coro) (s : State) : State :=
  { s with coros := Function.update s.coros h (f (s.coros h)) }

def modReq (r : ReqId) (f : Request → Request) (s : State) : State :=
  { s with reqs := Function.update s.reqs r (f (s.reqs r)) }

theorem modReq_reqs (s : State) (r : ReqId) (f : Request → Request) (x : ReqId) :
    (s.modReq r f).reqs x = if x = r then f (s.reqs r) else s.reqs x :=
  Function.update_apply ..

def setPlace (h : CoroId) (p : Place) : State → State := modCoro h fun c => { c with place := p }

def setBody (h : CoroId) (b : Body) : State → State := modCoro h fun c => { c with body := b }

def modPromise (h : CoroId) (f : Promise → Promise) : State → State :=
  modCoro h fun c => { c with promise := f c.promise }

/-- The task a reference names, `none` when the object is gone. -/
def task (s : State) : TaskRef → Option EvTask
  | .var v => s.vars v
  | .kill => some s.ev.killCoroTask

def setTask (t : TaskRef) (e : EvTask) (s : State) : State :=
  match t with
  | .var v => { s with vars := Function.update s.vars v (some e) }
  | .kill => s.modEv fun ev => { ev with killCoroTask := e }

/-- `_task_status_ptr && _task_status_ptr->handler_done`. -/
def taskDone (s : State) (e : EvTask) : Bool :=
  match e.taskStatusPtr with
  | some st => (s.statuses st).handlerDone
  | none => false

/-- `promise_type::is_done`. -/
def isDone (s : State) (h : CoroId) : Bool :=
  match (s.coros h).promise.taskStatusPtr with
  | some st => (s.statuses st).handlerDone
  | none => false

end State

/-- An object that has to be there. -/
def need {α : Type} (f : Fault) : Option α → Except Stop α
  | some a => .ok a
  | none => .error (.undefined f)

theorem need_ok {α : Type} {f : Fault} {o : Option α} {a : α} : need f o = .ok a ↔ o = some a := by
  cases o <;> simp [need]

end EvManager
