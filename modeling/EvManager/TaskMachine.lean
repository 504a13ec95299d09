import EvManager.Task

/-!
# The task machine

What tasks and their coroutines do, without requests and without the loop: coroutines run, suspend, start and await
each other's tasks, and end.  A step is labelled with what is asked of the machine.  The machine says what `EvTask`,
its promise and its `final_suspend` are for, and the program refines it.
-/

namespace EvManager

/-- The activations of coroutines and tasks. -/
def Activation.isCall : Activation → Bool
  | .run _ | .taskStart .. | .registerCoro _ | .taskAwait .. | .finalSuspend _ => true
  | _ => false

/-- The events of tasks. -/
def Event.ofTask : Event → Bool
  | .taskReturned .. | .returned .. => true
  | _ => false

/-- The coroutine waits for a response: at the `co_await` of an awaitable, in a batch or in `poll`. -/
def Place.awaitsResponse : Place → Bool
  | .atIo _ | .atGeneric => true
  | _ => false

/-- Awaiting a task. -/
def Place.isTask : Place → Bool
  | .atTask .. => true
  | _ => false

/-- A state of the machine. -/
@[ext]
structure Tasks where
  next : CoroId
  nextVar : VarId
  /-- the coroutines that run user code -/
  user : CoroId → Bool
  place : CoroId → Place
  /-- `awaiter_handle`, and whether `exception_ptr` is set -/
  awaiter : CoroId → Option CoroId
  thrown : CoroId → Bool
  /-- `handler_done` and `ret_code` -/
  done : CoroId → Bool
  code : CoroId → ℕ
  task : TaskRef → Option EvTask
  calls : List Activation
  log : List Event

/-- What is asked of the machine. -/
inductive TaskLabel
  /-- nothing -/
  | tau
  /-- a coroutine function is called, of user code or of the library -/
  | call (user : Bool)
  | start (t : TaskRef)
  | register (v : VarId)
  /-- `register_coro` goes on after `coro.start()` and destroys the suspended coroutine `x` -/
  | registered (v : VarId) (x : Option CoroId)
  | destroy (v : VarId)
  /-- the running coroutine `a` co_awaits the task `t` -/
  | begin (a : CoroId) (t : TaskRef)
  /-- `await_suspend` goes on after `start()` -/
  | tail (a : CoroId) (t : TaskRef)
  /-- the running coroutine `h` may suspend at a request -/
  | event (h : CoroId)
  /-- the body of `h` ends -/
  | finish (h : CoroId) (out : Option ℕ)
  /-- a completion was marked seen -/
  | seen
  deriving DecidableEq, Repr

namespace Tasks

variable (m : Tasks)

def setPlace (h : CoroId) (p : Place) : Tasks := { m with place := Function.update m.place h p }

def setTask (t : TaskRef) (e : Option EvTask) : Tasks := { m with task := Function.update m.task t e }

/-- The body of `h` runs. -/
def enter (h : CoroId) : Tasks := { m.setPlace h .running with calls := .run h :: m.calls }

/-- The `co_await` of `a` on the task `t` of `h` returns `x`. -/
def returns (a : CoroId) (t : TaskRef) (h : CoroId) (x : ℕ) : Tasks :=
  { m.enter a with log := .taskReturned a t h x :: m.log }

/-- `a` is stored in the promise of `h`. -/
def arm (h a : CoroId) : Tasks :=
  { m with
    awaiter := Function.update m.awaiter h (some a)
    place := Function.update m.place a (m.place a).arm }

/-- The coroutine function is called; its task becomes the variable `m.nextVar`. -/
def call (user : Bool) : Tasks where
  next := m.next + 1
  nextVar := m.nextVar + 1
  user := Function.update m.user m.next user
  place := Function.update m.place m.next .initial
  awaiter := Function.update m.awaiter m.next none
  thrown := Function.update m.thrown m.next false
  done := Function.update m.done m.next false
  code := Function.update m.code m.next 0
  task := Function.update m.task (.var m.nextVar) (some ⟨false, some m.next, some m.next⟩)
  calls := m.calls
  log := m.log

/-- Some task holds the coroutine. -/
def Held (h : CoroId) : Prop := ∃ t e, m.task t = some e ∧ e.handle = some h

/-- Variables have gone, with their tasks, and nothing else about tasks has changed. -/
def Fewer (task : TaskRef → Option EvTask) : Prop :=
  task .kill = m.task .kill ∧ ∀ t e, task t = some e → m.task t = some e

end Tasks

/-- `EvTask::start` of `t`, up to the body. -/
inductive Started (m : Tasks) (t : TaskRef) : Tasks → Prop
  | already {e : EvTask} : m.task t = some e → e.startedCoro = true → Started m t m
  | now {e : EvTask} {h : CoroId} : m.task t = some e → e.startedCoro = false → e.handle = some h →
      m.place h = .initial →
      Started m t
        ({ m.setTask t (some { e with startedCoro := true }) with calls := .taskStart t h :: m.calls }.enter h)

/-- The body of `h` ends: its result is kept for the task that holds it, its variables go, and it is in
`final_suspend`. -/
inductive Ended (m : Tasks) (h : CoroId) (out : Option ℕ) : Tasks → Prop
  | mk {rest : List Activation} {code : CoroId → ℕ} {task : TaskRef → Option EvTask} :
      m.calls = .run h :: rest → m.place h = .running → h < m.next → (∀ x, x ≠ h → code x = m.code x) →
      (∀ x, out = some x → m.Held h → code h = x) → m.Fewer task →
      Ended m h out
        { m.setPlace h .final with
          thrown := if out = none then Function.update m.thrown h true else m.thrown
          code, task, calls := .finalSuspend h :: rest, log := .returned h out :: m.log }

theorem Ended.place {m m' : Tasks} {h : CoroId} {out : Option ℕ} (he : Ended m h out m') :
    m'.place = Function.update m.place h .final := by
  cases he
  rfl

theorem Ended.fewer {m m' : Tasks} {h : CoroId} {out : Option ℕ} (he : Ended m h out m') : m.Fewer m'.task := by
  cases he with
  | mk _ _ _ _ _ hfew => exact hfew

/-- The steps of the machine. -/
inductive TaskStep (m : Tasks) : TaskLabel → Tasks → Prop
  | idle {l : TaskLabel} : l = .tau ∨ l = .seen ∨ (∃ h, l = .event h) → TaskStep m l m
  | suspend {h : CoroId} {p : Place} {rest : List Activation} : m.calls = .run h :: rest → m.place h = .running →
      m.user h = false → p.suspended = true → p.isTask = false → p ≠ .initial →
      TaskStep m .tau { m.setPlace h p with calls := rest }
  | event {h : CoroId} {r : ReqId} {rest : List Activation} : m.calls = .run h :: rest → m.place h = .running →
      TaskStep m (.event h) { m.setPlace h (.atIo r) with calls := rest }
  | wake {h : CoroId} : (∃ r, m.place h = .atIo r) ∨ m.place h = .atGeneric → TaskStep m .tau (m.enter h)
  | wakeKill {h : CoroId} : m.place h = .atAlways → TaskStep m .seen (m.enter h)
  | call {user : Bool} : m.place m.next = .gone → (∀ a h b, m.place a ≠ .atTask (.var m.nextVar) h b) →
      TaskStep m (.call user) (m.call user)
  | start {t : TaskRef} {m' : Tasks} : Started m t m' → TaskStep m (.start t) m'
  | register {v : VarId} {m' : Tasks} : Started { m with calls := .registerCoro v :: m.calls } (.var v) m' →
      TaskStep m (.register v) m'
  | startReturn {t : TaskRef} {h : CoroId} {rest : List Activation} : m.calls = .taskStart t h :: rest →
      TaskStep m .tau { m with calls := rest }
  | rethrowRegister {t : TaskRef} {h : CoroId} {v : VarId} {rest : List Activation} :
      m.calls = .taskStart t h :: .registerCoro v :: rest → m.thrown h = true → TaskStep m .tau { m with calls := rest }
  | rethrowAwait {t t' : TaskRef} {h a : CoroId} {rest : List Activation} :
      m.calls = .taskStart t h :: .taskAwait t' a :: rest → m.thrown h = true → (m.place a).suspended = true →
      TaskStep m .tau ({ m with calls := rest }.enter a)
  | beginStart {a h : CoroId} {t : TaskRef} {e : EvTask} {rest : List Activation} {m' : Tasks} :
      m.calls = .run a :: rest → m.place a = .running → m.task t = some e → e.startedCoro = false →
      e.handle = some h → Started { m.setPlace a (.atTask t h false) with calls := .taskAwait t a :: rest } t m' →
      TaskStep m (.begin a t) m'
  | beginDone {a h : CoroId} {t : TaskRef} {e : EvTask} {rest : List Activation} :
      m.calls = .run a :: rest → m.place a = .running → m.task t = some e → e.startedCoro = true →
      e.handle = some h → m.done h = true →
      TaskStep m (.begin a t) { m with log := .taskReturned a t h (m.code h) :: m.log }
  | beginArm {a h : CoroId} {t : TaskRef} {e : EvTask} {rest : List Activation} :
      m.calls = .run a :: rest → m.place a = .running → m.task t = some e → e.startedCoro = true →
      e.handle = some h → m.done h = false →
      TaskStep m (.begin a t) ({ m.setPlace a (.atTask t h false) with calls := rest }.arm h a)
  | tailDone {a h : CoroId} {t : TaskRef} {e : EvTask} {rest : List Activation} :
      m.calls = .taskAwait t a :: rest → m.place a = .atTask t h false → m.task t = some e → e.handle = some h →
      m.done h = true → TaskStep m (.tail a t) ({ m with calls := rest }.returns a t h (m.code h))
  | tailArm {a h : CoroId} {t : TaskRef} {e : EvTask} {rest : List Activation} :
      m.calls = .taskAwait t a :: rest → m.place a = .atTask t h false ∨ m.place a = .gone → m.task t = some e →
      e.handle = some h → m.done h = false → TaskStep m (.tail a t) ({ m with calls := rest }.arm h a)
  | finish {l : TaskLabel} {h : CoroId} {out : Option ℕ} {m' : Tasks} :
      l = .finish h out ∨ (l = .tau ∧ m.user h = false) → m.awaiter h = none → Ended m h out m' → TaskStep m l m'
  | finishResume {l : TaskLabel} {h a : CoroId} {out : Option ℕ} {t : TaskRef} {e : EvTask} {x : ℕ} {m' : Tasks} :
      l = .finish h out ∨ (l = .tau ∧ m.user h = false) → m.awaiter h = some a → m.place a = .atTask t h true →
      Ended m h out m' → m'.task t = some e → (e.handle = some h → x = m'.code h) →
      TaskStep m l (m'.returns a t h x)
  | finalReturn {h : CoroId} {done : CoroId → Bool} {rest : List Activation} : m.calls = .finalSuspend h :: rest →
      m.place h = .final → (∀ x, x ≠ h → done x = m.done x) → (m.Held h → done h = true) →
      TaskStep m .tau { m.setPlace h .gone with done, calls := rest }
  | destroy {v : VarId} : TaskStep m (.destroy v) (m.setTask (.var v) none)
  | registered {v : VarId} {e : EvTask} {rest : List Activation} : m.calls = .registerCoro v :: rest →
      m.task (.var v) = some e → TaskStep m (.registered v none) { m.setTask (.var v) (some {}) with calls := rest }
  | overwritten {v : VarId} {x : CoroId} {e : EvTask} {task : TaskRef → Option EvTask} {rest : List Activation} :
      m.calls = .registerCoro v :: rest → (m.place x).suspended = true → m.Fewer task → task (.var v) = some e →
      TaskStep m (.registered v (some x))
        { m.setPlace x .gone with task := Function.update task (.var v) (some {}), calls := rest }

end EvManager
