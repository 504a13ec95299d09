import EvManager.Sound
import EvManager.TaskMachine

/-!
# Tasks in the states of the program

`State.tasks` is what a state of the program says of coroutines and tasks, and `State.label` what a step asks of the
task machine.  Every operation of `EvTask` and its promise is a step of the machine.
-/

namespace EvManager

open Lib State

/-- What the state says of coroutines and tasks. -/
def State.tasks (s : State) : Tasks where
  next := s.nextCoro
  nextVar := s.nextVar
  user h := (s.coros h).body.kind = .user
  place h := (s.coros h).place
  awaiter h := (s.coros h).promise.awaiterHandle
  thrown h := (s.coros h).promise.exceptionPtr
  done h := (s.statuses h).handlerDone
  code h := (s.statuses h).retCode
  task := s.task
  calls := s.stack.filter Activation.isCall
  log := s.trace.filter Event.ofTask

/-- The unfinished coroutine that `register_coro` destroys when it assigns over the slot `pick`. -/
def State.overwritten (pick : ℕ) (s : State) : Option CoroId :=
  if s.ev.managedCoroutinesStore.freedIdxs = ∅ then none
  else
    match s.ev.managedCoroutinesStore.get? pick with
    | some e => if s.taskDone e then none else e.handle
    | none => none

/-- What an action of user code that is no coroutine's asks of the task machine. -/
def Act.label : Act → TaskLabel
  | .call => .call true
  | .submitAndWait _ | .poll | .kill => .call false
  | .startTask v => .start (.var v)
  | .registerCoro v => .register v
  | .destroyTask v => .destroy v
  | _ => .tau

/-- What an action of the user's coroutine `h` asks of the task machine. -/
def Act.labelIn (h : CoroId) : Act → TaskLabel
  | .awaitTask v => .begin h (.var v)
  | .awaitIo _ | .awaitOp _ => .event h
  | .coReturn code => .finish h (some code)
  | .throw => .finish h none
  | a => a.label

/-- What a step asks of the task machine. -/
def State.label (s : State) (c : Choice) : TaskLabel :=
  match s.stack, c with
  | .main :: _, .user a => a.label
  | .run h :: _, .user a =>
    if (s.coros h).body.kind = .user then a.labelIn h else if a = .throw then .finish h none else a.label
  | .run h :: _, .tau => if (s.coros h).body = .kill none then .begin h .kill else .tau
  | .awaitSeen :: _, .tau => .seen
  | .registerCoro v :: _, .pick idx _ => .registered v (s.overwritten idx)
  | .taskAwait t a :: _, .tau => .tail a t
  | _, _ => .tau

/-- The cases of `State.label`. -/
inductive LabelCase (s : State) : Choice → TaskLabel → Prop
  | main {a : Act} {rest : List Activation} : s.stack = .main :: rest → LabelCase s (.user a) a.label
  | body {h : CoroId} {a : Act} {rest : List Activation} : s.stack = .run h :: rest → (s.coros h).body.kind = .user →
      LabelCase s (.user a) (a.labelIn h)
  | throws {h : CoroId} {rest : List Activation} : s.stack = .run h :: rest → (s.coros h).body.kind ≠ .user →
      LabelCase s (.user .throw) (.finish h none)
  | handler {h : CoroId} {a : Act} {rest : List Activation} : s.stack = .run h :: rest →
      (s.coros h).body.kind ≠ .user → a ≠ .throw → LabelCase s (.user a) a.label
  | kill {h : CoroId} {rest : List Activation} : s.stack = .run h :: rest → (s.coros h).body = .kill none →
      LabelCase s .tau (.begin h .kill)
  | seen {rest : List Activation} : s.stack = .awaitSeen :: rest → LabelCase s .tau .seen
  | registered {v : VarId} {idx : ℕ} {grow : Bool} {rest : List Activation} : s.stack = .registerCoro v :: rest →
      LabelCase s (.pick idx grow) (.registered v (s.overwritten idx))
  | tail {t : TaskRef} {a : CoroId} {rest : List Activation} : s.stack = .taskAwait t a :: rest →
      LabelCase s .tau (.tail a t)
  | tau {c : Choice} : LabelCase s c .tau

theorem State.label_case (s : State) (c : Choice) : LabelCase s c (s.label c) := by
  unfold State.label
  split
  · rename_i hst
    exact .main hst
  · rename_i hst
    split
    · rename_i hk
      exact .body hst hk
    · rename_i hk
      split
      · rename_i ha
        rw [ha]
        exact .throws hst hk
      · rename_i ha
        exact .handler hst hk ha
  · rename_i hst
    split
    · rename_i hb
      exact .kill hst hb
    · exact .tau
  · rename_i hst
    exact .seen hst
  · rename_i hst
    exact .registered hst
  · rename_i hst
    exact .tail hst
  · exact .tau

/-! ### What leaves tasks alone -/

/-- The frame is the same to tasks. -/
structure Coro.Alike (c c' : Coro) : Prop where
  kind : c'.body.kind = c.body.kind
  place : c'.place = c.place
  awaiter : c'.promise.awaiterHandle = c.promise.awaiterHandle
  thrown : c'.promise.exceptionPtr = c.promise.exceptionPtr

theorem Coro.Alike.refl (c : Coro) : c.Alike c := ⟨rfl, rfl, rfl, rfl⟩

namespace State

variable {s s' : State}

theorem tasks_eq (hc : ∀ h, (s.coros h).Alike (s'.coros h)) (hn : s'.nextCoro = s.nextCoro)
    (hv : s'.nextVar = s.nextVar) (hst : s'.statuses = s.statuses) (ht : s'.task = s.task)
    (hcalls : s'.stack.filter Activation.isCall = s.stack.filter Activation.isCall)
    (hlog : s'.trace.filter Event.ofTask = s.trace.filter Event.ofTask) : s'.tasks = s.tasks := by
  ext1
  · exact hn
  · exact hv
  · funext h
    simp only [tasks, (hc h).kind]
  · exact funext fun h => (hc h).place
  · exact funext fun h => (hc h).awaiter
  · exact funext fun h => (hc h).thrown
  · simp only [tasks, hst]
  · simp only [tasks, hst]
  · exact ht
  · exact hcalls
  · exact hlog

@[simp] theorem tasks_modReq (r : ReqId) (f : Request → Request) : (s.modReq r f).tasks = s.tasks := by
  refine tasks_eq (fun _ => .refl _) rfl rfl rfl ?_ rfl rfl
  funext t
  cases t <;> rfl

theorem tasks_modEv {f : EventManager → EventManager} (hk : (f s.ev).killCoroTask = s.ev.killCoroTask) :
    (s.modEv f).tasks = s.tasks := by
  refine tasks_eq (fun _ => .refl _) rfl rfl rfl ?_ rfl rfl
  funext t
  cases t with
  | var v => rfl
  | kill => exact congrArg some hk

@[simp] theorem tasks_setRing (ring : Uring Slot) : (s.setRing ring).tasks = s.tasks := tasks_modEv rfl

theorem tasks_push {a : Activation} (ha : a.isCall = true) :
    (s.push a).tasks = { s.tasks with calls := a :: s.tasks.calls } := by
  have hcalls : (s.push a).stack.filter Activation.isCall = a :: s.stack.filter Activation.isCall :=
    List.filter_cons_of_pos ha
  ext1 <;> first | rfl | exact hcalls

theorem tasks_push_loop {a : Activation} (ha : a.isCall = false) : (s.push a).tasks = s.tasks := by
  refine tasks_eq (fun _ => .refl _) rfl rfl rfl ?_ (List.filter_cons_of_neg (by simp [ha])) rfl
  funext t
  cases t <;> rfl

theorem tasks_pop {a : Activation} {rest : List Activation} (hst : s.stack = a :: rest) (ha : a.isCall = true) :
    s.tasks.calls = a :: rest.filter Activation.isCall ∧
      s.pop.tasks = { s.tasks with calls := rest.filter Activation.isCall } := by
  have hcalls : s.stack.filter Activation.isCall = a :: rest.filter Activation.isCall := by
    rw [hst, List.filter_cons_of_pos ha]
  have hpop : s.pop.stack.filter Activation.isCall = rest.filter Activation.isCall := by
    rw [stack_pop, hst]
    rfl
  refine ⟨hcalls, ?_⟩
  ext1 <;> first | rfl | exact hpop

theorem tasks_pop_loop {a : Activation} {rest : List Activation} (hst : s.stack = a :: rest) (ha : a.isCall = false) :
    s.pop.tasks = s.tasks := by
  refine tasks_eq (fun _ => .refl _) rfl rfl rfl ?_ ?_ rfl
  · funext t
    cases t <;> rfl
  · rw [stack_pop, hst, List.filter_cons_of_neg (by simp [ha])]
    rfl

theorem tasks_log {e : Event} (he : e.ofTask = true) : (s.log e).tasks = { s.tasks with log := e :: s.tasks.log } := by
  have hlog : (s.log e).trace.filter Event.ofTask = e :: s.trace.filter Event.ofTask := List.filter_cons_of_pos he
  ext1 <;> first | rfl | exact hlog

theorem tasks_log_other {e : Event} (he : e.ofTask = false) : (s.log e).tasks = s.tasks := by
  refine tasks_eq (fun _ => .refl _) rfl rfl rfl ?_ rfl (List.filter_cons_of_neg (by simp [he]))
  funext t
  cases t <;> rfl

/-- An update of a frame that tasks do not notice. -/
theorem tasks_modCoro {h : CoroId} {f : Coro → Coro} (hf : (s.coros h).Alike (f (s.coros h))) :
    (s.modCoro h f).tasks = s.tasks := by
  refine tasks_eq (fun x => ?_) rfl rfl rfl ?_ rfl rfl
  · by_cases hx : x = h
    · subst hx
      simpa [modCoro] using hf
    · simp only [modCoro, Function.update_apply, hx, if_false]
      exact .refl _
  · funext t
    cases t <;> rfl

theorem tasks_setBody {h : CoroId} {b : Body} (hb : b.kind = (s.coros h).body.kind) : (s.setBody h b).tasks = s.tasks :=
  tasks_modCoro ⟨hb, rfl, rfl, rfl⟩

/-! ### Small updates -/

theorem tasks_setPlace (h : CoroId) (p : Place) : (s.setPlace h p).tasks = s.tasks.setPlace h p := by
  ext x <;> first
    | rfl
    | by_cases hx : x = h <;> simp [tasks, State.setPlace, Tasks.setPlace, modCoro, hx]

theorem tasks_enter (h : CoroId) : (s.enter h).tasks = s.tasks.enter h := by
  have hp : (s.enter h).tasks =
      { (s.setPlace h .running).tasks with calls := .run h :: (s.setPlace h .running).tasks.calls } :=
    tasks_push rfl
  rw [hp, tasks_setPlace]
  rfl

theorem tasks_suspend {h : CoroId} {p : Place} {rest : List Activation} (hst : s.stack = .run h :: rest) :
    s.tasks.calls = .run h :: rest.filter Activation.isCall ∧
      (s.suspend h p).tasks = { s.tasks.setPlace h p with calls := rest.filter Activation.isCall } := by
  have hp := tasks_pop (s := s.setPlace h p) (by exact hst) rfl
  rw [tasks_setPlace] at hp
  exact ⟨hp.1, hp.2⟩

theorem tasks_setTask (t : TaskRef) (e : EvTask) : (s.setTask t e).tasks = s.tasks.setTask t (some e) := by
  have htask : (s.setTask t e).task = Function.update s.task t (some e) := by
    funext x
    cases t with
    | var v =>
      cases x with
      | var w => by_cases hw : w = v <;> simp [State.setTask, State.task, hw]
      | kill => rfl
    | kill =>
      cases x with
      | var w => rfl
      | kill => rfl
  ext1 <;> first
    | exact htask
    | (cases t <;> rfl)

theorem tasks_setAwaiter (h a : CoroId) : (s.setAwaiter h a).tasks = s.tasks.arm h a := by
  ext x <;> first
    | rfl
    | by_cases hx : x = a <;> by_cases hh : x = h <;>
        simp_all [tasks, State.setAwaiter, Tasks.arm, modPromise, modCoro, Function.update_apply]

/-! ### Resuming -/

theorem tasks_taskResume {a child : CoroId} {t : TaskRef} (hs : (s.enter a).taskResume a t child = .ok s') :
    ∃ e, s.task t = some e ∧ s'.tasks = s.tasks.returns a t child (s.retCode e) := by
  unfold taskResume at hs
  obtain ⟨e, he, h1⟩ := bind_ok.mp hs
  rw [need_ok] at he
  cases h1
  refine ⟨e, by cases t <;> exact he, ?_⟩
  rw [tasks_log rfl, tasks_setBody (Body.kind_taskReturned ..), tasks_enter]
  rfl

theorem tasks_wake {h : CoroId} {cause : Option ReqId}
    (hp : (∃ r, (s.coros h).place = .atIo r) ∨ (s.coros h).place = .atGeneric)
    (hs : s.resume h cause = .ok s') : s'.tasks = s.tasks.enter h := by
  unfold State.resume at hs
  rcases hp with ⟨r, hp⟩ | hp <;> rw [hp] at hs <;> simp only at hs
  · cases hs
    unfold ioReturn
    simp only
    rw [tasks_log_other rfl, tasks_modReq]
    unfold modPromise
    rw [tasks_modCoro ⟨rfl, rfl, rfl, rfl⟩, tasks_enter]
  · unfold genericResume at hs
    simp only at hs
    split at hs
    · rename_i hb
      split at hs
      · cases hs
        refine (tasks_setBody ?_).trans ((tasks_log_other rfl).trans (tasks_enter h))
        exact (congrArg Body.kind hb).symm
      · cases hs
    · rename_i hb
      cases hs
      refine (tasks_setBody ?_).trans ((tasks_modEv rfl).trans ((tasks_log_other rfl).trans (tasks_enter h)))
      exact (congrArg Body.kind hb).symm
    · cases hs

/-! ### Tasks -/

theorem tasks_startTask (hc : Coherent s) {t : TaskRef} (hs : s.startTask t = .ok s') : Started s.tasks t s'.tasks := by
  unfold startTask at hs
  obtain ⟨e, he, h1⟩ := bind_ok.mp hs
  rw [need_ok] at he
  split at h1
  · rename_i hst
    cases h1
    exact .already he hst
  · rename_i hst
    obtain ⟨h, hh, h2⟩ := bind_ok.mp h1
    rw [need_ok] at hh
    have hcoros : (s.setTask t { e with startedCoro := true }).coros = s.coros := by cases t <;> rfl
    have hsus : (s.coros h).place = .initial := by
      rcases hc.linked.unstarted (.task t) e h he hh (by simpa using hst) with hi | hg
      · exact hi
      · unfold State.resume at h2
        simp only [State.push, hcoros, hg] at h2
        cases h2
    have h3 : s' = ((s.setTask t { e with startedCoro := true }).push (.taskStart t h)).enter h := by
      unfold State.resume at h2
      have hp : (((s.setTask t { e with startedCoro := true }).push (.taskStart t h)).coros h).place = .initial := by
        rw [← hsus, ← hcoros]
        rfl
      rw [hp] at h2
      exact (Except.ok.inj h2).symm
    rw [h3, tasks_enter, tasks_push rfl, tasks_setTask]
    exact .now he (by simpa using hst) hh hsus

theorem tasks_call (ctx : Option CoroId) (b : Body) : (s.call ctx b).tasks = s.tasks.call (b.kind = .user) := by
  have hnew : State.tasks { s with
      coros := Function.update s.coros s.nextCoro
        { promise := { taskStatusPtr := some s.nextCoro }, body := b, place := .initial }
      statuses := Function.update s.statuses s.nextCoro {}
      nextCoro := s.nextCoro + 1
      vars := Function.update s.vars s.nextVar (some ⟨false, some s.nextCoro, some s.nextCoro⟩)
      nextVar := s.nextVar + 1 } = s.tasks.call (b.kind = .user) := by
    ext1
    case task =>
      funext t
      cases t with
      | var v => by_cases hv : v = s.nextVar <;> simp [tasks, Tasks.call, State.task, hv]
      | kill => rfl
    all_goals first
      | rfl
      | funext x
        by_cases hx : x = s.nextCoro <;> simp [tasks, Tasks.call, hx]
  unfold State.call
  cases ctx with
  | none => exact hnew
  | some c => exact (tasks_modCoro ⟨rfl, rfl, rfl, rfl⟩).trans hnew

theorem tasks_destroyTask (v : VarId) : (s.destroyTask v).tasks = s.tasks.setTask (.var v) none := by
  obtain ⟨coros, heq, hcoros⟩ := s.destroyTask_eq v
  rw [heq]
  ext1
  case task =>
    funext t
    cases t with
    | var w => by_cases hw : w = v <;> simp [tasks, Tasks.setTask, State.task, hw]
    | kill => rfl
  all_goals first
    | rfl
    | funext x
      rcases hcoros x with hx | ⟨hx, -⟩ <;> simp [tasks, Tasks.setTask, hx, Coro.orphan]

theorem tasks_destroyTasks (vs : List VarId) (s : State) : ∃ task, s.tasks.Fewer task ∧
    (vs.foldl (fun s v => s.destroyTask v) s).tasks = { s.tasks with task } := by
  induction vs generalizing s with
  | nil => exact ⟨s.tasks.task, ⟨rfl, fun _ _ he => he⟩, rfl⟩
  | cons v vs ih =>
    obtain ⟨task, ⟨hkill, hfew⟩, heq⟩ := ih (s.destroyTask v)
    rw [tasks_destroyTask] at hkill hfew heq
    refine ⟨task, ⟨hkill, fun t e he => ?_⟩, heq⟩
    have h1 := hfew t e he
    by_cases ht : t = .var v
    · subst ht
      simp [Tasks.setTask] at h1
    · simpa [Tasks.setTask, ht] using h1

theorem tasks_destroyLocals (h : CoroId) (s : State) : ∃ task, s.tasks.Fewer task ∧
    (s.destroyLocals h).tasks = { s.tasks with task } := by
  obtain ⟨task, hfew, heq⟩ := tasks_destroyTasks (s.coros h).vars.reverse s
  refine ⟨task, hfew, ?_⟩
  rw [← heq]
  unfold State.destroyLocals
  refine tasks_eq (fun _ => .refl _) rfl rfl rfl ?_ rfl rfl
  funext t
  cases t <;> rfl

/-! ### The ends of coroutines -/

/-- A task that holds the coroutine makes its promise point to its status. -/
theorem ptr_of_held (hl : Linked s) {h : CoroId} (hh : s.tasks.Held h) :
    (s.coros h).promise.taskStatusPtr = some h := by
  obtain ⟨t, e, he, heh⟩ := hh
  exact hl.held (.task t) e h he heh

theorem tasks_storeResult (hl : Linked s) (h : CoroId) (out : Option ℕ) : ∃ code : CoroId → ℕ,
    (∀ x, x ≠ h → code x = s.tasks.code x) ∧ (∀ x, out = some x → s.tasks.Held h → code h = x) ∧
    (s.storeResult h out).tasks =
      { s.tasks with
        thrown := if out = none then Function.update s.tasks.thrown h true else s.tasks.thrown
        code } := by
  cases out with
  | none =>
    refine ⟨s.tasks.code, fun _ _ => rfl, (by simp), ?_⟩
    ext x <;> first
      | rfl
      | by_cases hx : x = h <;> simp [tasks, State.storeResult, modPromise, modCoro, hx]
  | some c =>
    by_cases hp : (s.coros h).promise.taskStatusPtr = none
    · refine ⟨s.tasks.code, fun _ _ => rfl, fun x _ hh => ?_, ?_⟩
      · rw [ptr_of_held hl hh] at hp
        cases hp
      · have hs : s.storeResult h (some c) = s := by
          simp only [State.storeResult, returnValue, hp]
        rw [hs]
        rfl
    · obtain ⟨st, hst⟩ := Option.ne_none_iff_exists'.mp hp
      obtain rfl := hl.prom h st hst
      refine ⟨Function.update s.tasks.code st c, fun x hx => by simp [hx], fun x hx _ => ?_, ?_⟩
      · cases hx
        simp
      · have hs : s.storeResult st (some c) =
            { s with statuses := Function.update s.statuses st { s.statuses st with retCode := c } } := by
          simp only [State.storeResult, returnValue, hst]
        rw [hs]
        ext x <;> first
          | rfl
          | by_cases hx : x = st <;> simp [tasks, hx]

theorem tasks_endBody (hc : Coherent s) {h : CoroId} {rest : List Activation} (hst : s.stack = .run h :: rest)
    (out : Option ℕ) : Ended s.tasks h out ((s.storeResult h out).endBody h out).tasks := by
  obtain ⟨code, hother, hcode, hstore⟩ := tasks_storeResult hc.linked h out
  obtain ⟨task, hfew, hlocals⟩ := tasks_destroyLocals h (s.storeResult h out)
  have hst1 : (((s.storeResult h out).destroyLocals h).setPlace h .final).stack = .run h :: rest := by simp [hst]
  have hpop := tasks_pop hst1 rfl
  have hcalls : s.tasks.calls = .run h :: rest.filter Activation.isCall := by
    simp only [tasks, hst]
    exact List.filter_cons_of_pos rfl
  have heq : ((s.storeResult h out).endBody h out).tasks =
      { s.tasks.setPlace h .final with
        thrown := if out = none then Function.update s.tasks.thrown h true else s.tasks.thrown
        code, task
        calls := .finalSuspend h :: rest.filter Activation.isCall
        log := .returned h out :: s.tasks.log } := by
    unfold State.endBody
    rw [tasks_log rfl, tasks_push rfl, hpop.2, tasks_setPlace, hlocals, hstore]
    rfl
  rw [heq]
  refine .mk hcalls (hc.placed.place_of_top hst) (hc.placed.lt_of_top hst) hother hcode ?_
  rw [hstore] at hfew
  exact hfew

theorem tasks_finish (hc : Coherent s) {h : CoroId} {rest : List Activation} (hst : s.stack = .run h :: rest)
    {out : Option ℕ} {l : TaskLabel} (hl : l = .finish h out ∨ (l = .tau ∧ (s.coros h).body.kind ≠ .user))
    (hs : s.finish h out = .ok s') : TaskStep s.tasks l s'.tasks := by
  have hend := tasks_endBody hc hst out
  have hl' : l = .finish h out ∨ (l = .tau ∧ s.tasks.user h = false) := by
    refine hl.imp id (And.imp id fun hk => ?_)
    simpa [tasks] using hk
  rcases finish_ok hs with ⟨a, ha, h1⟩ | ⟨ha, rfl⟩
  · -- the awaiter waits for `h`, since `h` has not ended before
    have hplace : (s.coros a).place = .gone ∨ ∃ t, (s.coros a).place = .atTask t h true := by
      have hu : (s.coros h).place.unfinished = true := by rw [hc.placed.place_of_top hst]; rfl
      exact (hc.awaits.awaiter h a ha hu).symm
    have hah : a ≠ h := by
      rintro rfl
      rw [hc.placed.place_of_top hst] at hplace
      rcases hplace with hp | ⟨t, hp⟩ <;> cases hp
    have hsame : (((s.storeResult h out).endBody h out).coros a).place = (s.coros a).place := by
      have hp : ((s.storeResult h out).endBody h out).tasks.place a = Function.update s.tasks.place h .final a :=
        congrFun hend.place a
      rw [Function.update_of_ne hah] at hp
      exact hp
    rcases hplace with hg | ⟨t, hp⟩ <;> unfold State.resume at h1
    · rw [hsame, hg] at h1
      cases h1
    · rw [hsame, hp] at h1
      obtain ⟨e, he, heq⟩ := tasks_taskResume h1
      rw [heq]
      refine .finishResume hl' ha hp hend he fun heh => ?_
      -- the task has not been moved away, so it names the status of `h`
      have hptr := hc.linked.paired (.task t) e (hend.fewer.2 t e he)
      simp only [retCode, hptr, heh]
      rfl
  · exact .finish hl' ha hend

/-- The status is set to done. -/
def markDone (st : StatusId) (s : State) : State :=
  { s with statuses := Function.update s.statuses st { s.statuses st with handlerDone := true } }

theorem tasks_finalReturn (hc : Coherent s) {h : CoroId} {rest : List Activation}
    (hst : s.stack = .finalSuspend h :: rest) :
    TaskStep s.tasks .tau (s.pop.finalReturn h).tasks := by
  have hpop := tasks_pop hst rfl
  have hplace : (s.coros h).place = .final := hc.placed.final h (by simp [hst])
  have hrule : ∀ done : CoroId → Bool, (∀ x, x ≠ h → done x = s.tasks.done x) → (s.tasks.Held h → done h = true) →
      TaskStep s.tasks .tau { s.tasks.setPlace h .gone with done, calls := rest.filter Activation.isCall } :=
    fun done hother hself => .finalReturn hpop.1 hplace hother hself
  by_cases hp : (s.coros h).promise.taskStatusPtr = none
  · have heq : s.pop.finalReturn h = s.pop.setPlace h .gone := by
      have hp' : (s.pop.coros h).promise.taskStatusPtr = none := hp
      simp only [State.finalReturn, hp']
    rw [heq, tasks_setPlace, hpop.2]
    refine hrule s.tasks.done (fun _ _ => rfl) fun hh => ?_
    rw [ptr_of_held hc.linked hh] at hp
    cases hp
  · obtain ⟨st, hst'⟩ := Option.ne_none_iff_exists'.mp hp
    obtain rfl := hc.linked.prom h st hst'
    have heq : s.pop.finalReturn st = (s.pop.markDone st).setPlace st .gone := by
      have hp' : (s.pop.coros st).promise.taskStatusPtr = some st := hst'
      simp only [State.finalReturn, hp']
      rfl
    have hdone : (s.pop.markDone st).tasks =
        { s.tasks with done := Function.update s.tasks.done st true, calls := rest.filter Activation.isCall } := by
      have hmark : (s.pop.markDone st).tasks =
          { s.pop.tasks with done := Function.update s.pop.tasks.done st true } := by
        ext x <;> first
          | rfl
          | by_cases hx : x = st <;> simp [tasks, markDone, hx, State.pop]
      rw [hmark, hpop.2]
    rw [heq, tasks_setPlace, hdone]
    exact hrule _ (fun x hx => by simp [hx]) fun _ => by simp

/-! ### Awaiting tasks -/

/-- A task that is done holds a coroutine that is done. -/
theorem taskDone_iff (hl : Linked s) {t : TaskRef} {e : EvTask} (he : s.task t = some e) :
    s.taskDone e = true ↔ ∃ h, e.handle = some h ∧ s.tasks.done h = true := by
  have hp := hl.paired (.task t) e he
  unfold taskDone
  rw [hp]
  cases hh : e.handle <;> simp [tasks]

theorem tasks_awaitSuspendTail (hc : Coherent s) {t : TaskRef} {a : CoroId} {rest : List Activation}
    (hst : s.stack = .taskAwait t a :: rest) (hs : s.pop.awaitSuspendTail t a = .ok s') :
    TaskStep s.tasks (.tail a t) s'.tasks := by
  have hpop := tasks_pop hst rfl
  obtain ⟨-, hplace⟩ := hc.awaits.suspending t a (by simp [hst])
  unfold State.awaitSuspendTail at hs
  obtain ⟨e, he, h1⟩ := bind_ok.mp hs
  rw [need_ok] at he
  have he' : s.task t = some e := by cases t <;> exact he
  have hdone : s.pop.taskDone e = s.taskDone e := rfl
  -- the task holds the coroutine that `a` waits for
  have htarget : ∀ c, (s.coros a).place = .atTask t c false → ∀ h, e.handle = some h → c = h := by
    intro c hp h hh
    rcases hc.awaits.target a t c false hp e he' with hc' | hn
    · rw [hh] at hc'
      exact (Option.some.inj hc').symm
    · rw [hh] at hn
      cases hn
  split at h1
  · rename_i hd
    rw [hdone, taskDone_iff hc.linked he'] at hd
    obtain ⟨h, hh, hd⟩ := hd
    rcases hplace with ⟨c, hp⟩ | hg
    · obtain rfl := htarget c hp h hh
      unfold State.resume at h1
      have hp' : (s.pop.coros a).place = .atTask t c false := hp
      rw [hp'] at h1
      obtain ⟨e', he2, heq⟩ := tasks_taskResume h1
      obtain rfl : e' = e := Option.some.inj (he2.symm.trans he)
      have hcode : s.pop.retCode e' = s.tasks.code c := by
        simp only [retCode, hc.linked.paired (.task t) e' he', hh]
        rfl
      rw [heq, hcode, hpop.2]
      exact .tailDone hpop.1 hp he' hh hd
    · unfold State.resume at h1
      have hp' : (s.pop.coros a).place = .gone := hg
      rw [hp'] at h1
      cases h1
  · rename_i hd
    rw [hdone, taskDone_iff hc.linked he'] at hd
    obtain ⟨h, hh, h2⟩ := bind_ok.mp h1
    rw [need_ok] at hh
    cases h2
    rw [tasks_setAwaiter, hpop.2]
    refine .tailArm hpop.1 ?_ he' hh ?_
    · rcases hplace with ⟨c, hp⟩ | hg
      · obtain rfl := htarget c hp h hh
        exact .inl hp
      · exact .inr hg
    · by_contra hne
      exact hd ⟨h, hh, by simpa using hne⟩

/-- The running coroutine `a` awaits a task. -/
theorem tasks_awaitTask (hc : Coherent s) {t : TaskRef} {a : CoroId} {rest : List Activation}
    (hst : s.stack = .run a :: rest) (hb : (s.coros a).body.kind = .user ∨ (s.coros a).body = .kill none)
    (hs : s.awaitTask a t = .ok s') : TaskStep s.tasks (.begin a t) s'.tasks := by
  have hrun := hc.placed.place_of_top hst
  unfold State.awaitTask at hs
  obtain ⟨e, he, h1⟩ := bind_ok.mp hs
  obtain ⟨h, hh, h2⟩ := bind_ok.mp h1
  rw [need_ok] at he hh
  obtain ⟨hcalls, hsus⟩ := tasks_suspend (p := .atTask t h false) hst
  have hc1 := hc.atTask hst hb he hh
  have htask : (s.suspend a (.atTask t h false)).task t = some e := by cases t <;> exact he
  simp only at h2
  split at h2
  · rename_i hstarted
    unfold State.awaitSuspendTail at h2
    obtain ⟨e', he2, h3⟩ := bind_ok.mp h2
    rw [need_ok, htask] at he2
    cases he2
    have hiff : (s.suspend a (.atTask t h false)).taskDone e = true ↔ s.tasks.done h = true := by
      have h4 : (s.suspend a (.atTask t h false)).taskDone e = s.taskDone e := rfl
      rw [h4, taskDone_iff hc.linked he, hh]
      simp
    split at h3
    · rename_i hd
      unfold State.resume at h3
      have hp' : ((s.suspend a (.atTask t h false)).coros a).place = .atTask t h false := by
        simp [State.suspend, State.setPlace, modCoro, State.pop]
      rw [hp'] at h3
      obtain ⟨e', he2, heq⟩ := tasks_taskResume h3
      obtain rfl : e = e' := Option.some.inj (htask.symm.trans he2)
      have hcode : (s.suspend a (.atTask t h false)).retCode e = s.tasks.code h := by
        simp only [retCode, hc.linked.paired (.task t) e he, hh]
        rfl
      have hsame : (s.suspend a (.atTask t h false)).tasks.returns a t h (s.tasks.code h) =
          { s.tasks with log := .taskReturned a t h (s.tasks.code h) :: s.tasks.log } := by
        rw [hsus]
        ext1 <;> first | rfl | skip
        · funext x
          by_cases hx : x = a
          · subst hx
            simp [Tasks.returns, Tasks.enter, Tasks.setPlace]
            exact hrun.symm
          · simp [Tasks.returns, Tasks.enter, Tasks.setPlace, hx]
        · exact hcalls.symm
      rw [heq, hcode, hsame]
      exact .beginDone hcalls hrun he hstarted hh (hiff.mp hd)
    · rename_i hd
      obtain ⟨h', hh', h4⟩ := bind_ok.mp h3
      rw [need_ok, hh] at hh'
      cases hh'
      cases h4
      rw [tasks_setAwaiter, hsus]
      refine .beginArm hcalls hrun he hstarted hh ?_
      by_contra hne
      exact hd (hiff.mpr (by simpa using hne))
  · rename_i hstarted
    have h3 := tasks_startTask (hc.atTask_push hst hb he hh) h2
    rw [tasks_push rfl, hsus] at h3
    exact .beginStart hcalls hrun he (by simpa using hstarted) hh h3

/-- `EvTask::start`, after the body has suspended or ended. -/
theorem tasks_startReturn {t : TaskRef} {h : CoroId} {rest : List Activation} (hst : s.stack = .taskStart t h :: rest)
    (hs : s.pop.startReturn t h = .ok s') : TaskStep s.tasks .tau s'.tasks := by
  have hpop := tasks_pop hst rfl
  have hrest : s.pop.stack = rest := by rw [stack_pop, hst]; rfl
  unfold State.startReturn at hs
  obtain ⟨e, -, h1⟩ := bind_ok.mp hs
  split at h1
  · rename_i hd
    have hthrown : s.tasks.thrown h = true := by
      simp only [Bool.and_eq_true] at hd
      exact hd.2
    unfold State.rethrow at h1
    rw [hrest] at h1
    split at h1
    · cases h1
      have hpop2 := tasks_pop hrest rfl
      have hcalls := hpop.1
      rw [List.filter_cons_of_pos (by rfl)] at hcalls
      rw [hpop2.2, hpop.2]
      exact .rethrowRegister hcalls hthrown
    · rename_i t' a rest'
      split at h1
      · rename_i hsus
        cases h1
        have hpop2 := tasks_pop hrest rfl
        have hcalls := hpop.1
        rw [List.filter_cons_of_pos (by rfl)] at hcalls
        rw [tasks_enter, hpop2.2, hpop.2]
        exact .rethrowAwait hcalls hthrown hsus
      · cases h1
    · cases h1
      rw [hpop.2]
      exact .startReturn hpop.1
  · cases h1
    rw [hpop.2]
    exact .startReturn hpop.1

/-! ### Registration -/

/-- Assigning over a slot destroys the coroutine it holds, if that is not done. -/
theorem tasks_makeRoom (hc : Coherent s) {pick : ℕ} {grow : Bool} (hs : s.makeRoom pick grow = .ok s') :
    (s.overwritten pick = none ∧ s' = s) ∨
    ∃ x task, s.overwritten pick = some x ∧ (s.coros x).place.suspended = true ∧ s.tasks.Fewer task ∧
      s'.tasks = { s.tasks.setPlace x .gone with task } := by
  unfold State.makeRoom at hs
  simp only at hs
  split at hs
  · rename_i hfree
    cases hs
    refine .inl ⟨by simp [overwritten, hfree], ?_⟩
    split
    · refine hc.linked.relinks_eq fun e he => ?_
      obtain ⟨i, hi⟩ := List.mem_iff_getElem?.mp he
      exact ⟨.item i, hi⟩
    · rfl
  · rename_i hfree
    split at hs
    · obtain ⟨old, hold, h1⟩ := bind_ok.mp hs
      rw [need_ok] at hold
      unfold State.overwriteTask at h1
      split at h1
      · rename_i hh
        cases h1
        refine .inl ⟨?_, rfl⟩
        simp only [overwritten, if_neg hfree, hold, hh]
        split <;> rfl
      · rename_i h hh
        split at h1
        · cases h1
        · rename_i st hptr
          split at h1
          · rename_i hd
            cases h1
            refine .inl ⟨?_, rfl⟩
            have htd : s.taskDone old = true := by simp [taskDone, hptr, hd]
            simp [overwritten, hfree, hold, htd]
          · rename_i hd
            have htd : s.taskDone old = false := by simpa [taskDone, hptr] using hd
            unfold State.destroyCoro at h1
            split at h1
            · rename_i hsus
              cases h1
              obtain ⟨task, hfew, heq⟩ := tasks_destroyLocals h s
              refine .inr ⟨h, task, by simp [overwritten, hfree, hold, htd, hh], hsus, hfew, ?_⟩
              rw [tasks_setPlace, heq]
              rfl
            · cases h1
    · cases hs

theorem tasks_registerCoroReturn (hc : Coherent s) {v : VarId} {pick : ℕ} {grow : Bool} {rest : List Activation}
    (hst : s.stack = .registerCoro v :: rest) (hs : s.pop.registerCoroReturn v pick grow = .ok s') :
    TaskStep s.tasks (.registered v (s.overwritten pick)) s'.tasks := by
  have hpop := tasks_pop hst rfl
  unfold State.registerCoroReturn at hs
  obtain ⟨s1, h1, h2⟩ := bind_ok.mp hs
  obtain ⟨e, he, h3⟩ := bind_ok.mp h2
  rw [need_ok] at he
  cases h3
  have hc1 := hc.pop.makeRoom h1
  have hmove : State.tasks { s1.insertTask pick e with vars := Function.update s1.vars v (some {}) } =
      s1.tasks.setTask (.var v) (some {}) := by
    have hrel : s1.relink e = s1 := hc1.linked.relink_eq (x := .task (.var v)) he
    unfold insertTask
    simp only [hrel]
    ext1
    case task =>
      funext t
      cases t with
      | var w => by_cases hw : w = v <;> simp [tasks, Tasks.setTask, State.task, hw]
      | kill => split <;> rfl
    all_goals first
      | (split <;> rfl)
      | funext x
        split
        · rename_i h _
          by_cases hx : x = h <;> simp [tasks, Tasks.setTask, modPromise, modCoro, modEv, hx]
        · rfl
  rw [hmove]
  have hover : s.pop.overwritten pick = s.overwritten pick := rfl
  rcases tasks_makeRoom hc.pop h1 with ⟨hnone, rfl⟩ | ⟨x, task, hsome, hsus, hfew, heq⟩
  · rw [← hover, hnone, hpop.2]
    exact .registered hpop.1 he
  · rw [← hover, hsome, heq]
    rw [hpop.2] at hfew
    have htask : task (.var v) = some e := by
      have h4 : s1.tasks.task (.var v) = some e := he
      rw [heq] at h4
      exact h4
    rw [hpop.2]
    exact .overwritten hpop.1 hsus hfew htask

end State

end EvManager
