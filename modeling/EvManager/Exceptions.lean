import EvManager.Answers
import EvManager.TaskSlots

/-!
# Exceptions that nobody sees

`unhandled_exception` stores the exception in the promise, and the frame destroys itself before control is back at the
call that drove the coroutine.  **`exception_lost`**: `start()` and `resume<RespT>()` find a frame that is gone or a
task that is done, never the exception, and who awaits the task is told that it returned.

A program may drive its coroutines with `resume<RespT>()` too; `driveStep` is the step of such a program.
-/

namespace EvManager

open Lib State

/-! ### The calls above `final_suspend` -/

/-- `final_suspend` of `x` is among the calls, above every `start()` that drives `x`. -/
def EndsAbove (x : CoroId) : List Activation → Prop
  | [] => False
  | a :: st => a = .finalSuspend x ∨ (∀ t, a ≠ .taskStart t x) ∧ EndsAbove x st

namespace EndsAbove

variable {x : CoroId} {a : Activation} {st : List Activation}

theorem cons (h : EndsAbove x st) (ha : ∀ t, a ≠ .taskStart t x) : EndsAbove x (a :: st) := .inr ⟨ha, h⟩

theorem tail (h : EndsAbove x (a :: st)) (ha : a ≠ .finalSuspend x) : EndsAbove x st := (h.resolve_left ha).2

theorem mem (h : EndsAbove x st) : Activation.finalSuspend x ∈ st := by
  induction st with
  | nil => exact h.elim
  | cons a st ih =>
    rcases h with rfl | ⟨-, h⟩
    · exact List.mem_cons_self
    · exact List.mem_cons_of_mem _ (ih h)

theorem not_start {t : TaskRef} : ¬ EndsAbove x (.taskStart t x :: st) := by
  rintro (h | ⟨h, -⟩)
  · cases h
  · exact h t rfl

end EndsAbove

/-! ### What the machine does with an exception -/

/-- A step of the machine, or user code resumes the coroutine of a task that was not started. -/
inductive Tasks.Driven (m : Tasks) : Tasks → Prop
  | step {l : TaskLabel} {m' : Tasks} : TaskStep m l m' → m.Driven m'
  | resume {t : TaskRef} {e : EvTask} {h : CoroId} : m.task t = some e → e.handle = some h → m.place h = .initial →
      m.Driven ((m.setTask t (some { e with startedCoro := true })).enter h)

/-- A coroutine that has ended is in `final_suspend` or its task is done. -/
structure Tasks.Dropped (m : Tasks) : Prop where
  final : ∀ x, m.place x = .final → EndsAbove x m.calls
  done : ∀ x out, Event.returned x out ∈ m.log → m.Held x → m.place x ≠ .final → m.done x = true

section Machine

variable {m m' : Tasks} {l : TaskLabel}

/-- Only `final_suspend` sets `handler_done`. -/
theorem TaskStep.done_eq (hs : TaskStep m l m') {x : CoroId} (hlt : x < m.next) (hp : m.place x ≠ .final) :
    m'.done x = m.done x := by
  have hstart : ∀ {n : Tasks} {t : TaskRef}, Started n t m' → n.done = m.done → m'.done x = m.done x := by
    intro m₁ t h1 h2
    rw [← h2]
    cases h1 <;> rfl
  cases hs with
  | start h1 | register h1 | beginStart _ _ _ _ _ h1 => exact hstart h1 rfl
  | call => simp [Tasks.call, hlt.ne]
  | finish _ _ h1 | finishResume _ _ _ h1 =>
    cases h1
    rfl
  | finalReturn _ hf hd => exact hd x fun hx => hp (hx ▸ hf)
  | _ => rfl

theorem Started.final_eq {t : TaskRef} (hs : Started m t m') {x : CoroId} :
    m'.place x = .final ↔ m.place x = .final := by
  cases hs with
  | already => rfl
  | @now e h _ _ _ hp =>
    by_cases hx : x = h
    · simp [Tasks.enter, Tasks.setPlace, hx, hp]
    · simp [Tasks.enter, Tasks.setPlace, Tasks.setTask, hx]

/-- A coroutine leaves `final_suspend` when it returns, and then its task is done. -/
theorem TaskStep.of_final (hs : TaskStep m l m') {x : CoroId} (hp : m.place x = .final) :
    m'.place x = .final ∨ (m.Held x → m'.done x = true) := by
  have hset : ∀ {n : Tasks} {y : CoroId} {p : Place}, n.place = m.place → m.place y ≠ .final →
      (n.setPlace y p).place x = .final := by
    intro m₁ y p hm hy
    have hx : x ≠ y := fun hxy => hy (hxy ▸ hp)
    simpa [Tasks.setPlace, hx, hm] using hp
  have harm : ∀ {n : Tasks} {h a : CoroId}, n.place x = .final → (n.arm h a).place x = .final := by
    intro m₁ h a h1
    by_cases ha : x = a
    · subst ha
      simp [Tasks.arm, h1, Place.arm]
    · simpa [Tasks.arm, ha] using h1
  have hrun : ∀ {y : CoroId}, m.place y = .running → m.place y ≠ .final := fun h1 h2 => by simp [h1] at h2
  cases hs with
  | idle | startReturn | rethrowRegister | beginDone | destroy | registered => exact .inl hp
  | suspend _ hr | event _ hr => exact .inl (hset (n := m) rfl (hrun hr))
  | wake h1 => exact .inl (hset (n := m) rfl fun h2 => by rcases h1 with ⟨r, h1⟩ | h1 <;> simp [h1] at h2)
  | wakeKill h1 => exact .inl (hset (n := m) rfl fun h2 => by simp [h1] at h2)
  | call h1 => exact .inl (hset (n := m) rfl fun h2 => by simp [h1] at h2)
  | start h1 => exact .inl (h1.final_eq.mpr hp)
  | register h1 => exact .inl (h1.final_eq.mpr hp)
  | rethrowAwait _ _ h1 => exact .inl (hset (n := m) rfl fun h2 => by simp [h2, Place.suspended] at h1)
  | beginStart _ hr _ _ _ h1 => exact .inl (h1.final_eq.mpr (hset (n := m) rfl (hrun hr)))
  | beginArm _ hr => exact .inl (harm (n := { m.setPlace _ _ with calls := _ }) (hset (n := m) rfl (hrun hr)))
  | tailDone _ h1 => exact .inl (hset (n := m) rfl fun h2 => by simp [h1] at h2)
  | tailArm => exact .inl (harm (n := { m with calls := _ }) hp)
  | finish _ _ h1 =>
    cases h1 with
    | mk _ hr => exact .inl (hset (n := m) rfl (hrun hr))
  | @finishResume _ h a _ _ _ _ _ _ _ h2 h1 =>
    cases h1 with
    | mk _ hr =>
      have hx : x ≠ a := fun hxa => by simp [hxa ▸ hp] at h2
      have h3 := hset (n := m) (y := h) (p := .final) rfl (hrun hr)
      exact .inl (by simpa [Tasks.returns, Tasks.enter, Tasks.setPlace, hx] using h3)
  | @finalReturn h _ _ _ _ _ hheld =>
    by_cases hx : x = h
    · exact .inr (hx ▸ hheld)
    · exact .inl (by simpa [Tasks.setPlace, hx] using hp)
  | overwritten _ h1 => exact .inl (hset (n := m) rfl fun h2 => by simp [h2, Place.suspended] at h1)

theorem Started.endsAbove {t : TaskRef} (hs : Started m t m')
    (hf : ∀ x, m.place x = .final → EndsAbove x m.calls) (x : CoroId)
    (hp : m'.place x = .final) : EndsAbove x m'.calls := by
  have h0 := hf x (hs.final_eq.mp hp)
  cases hs with
  | already => exact h0
  | @now e h _ _ _ hi =>
    refine (h0.cons fun t' heq => ?_).cons (by simp)
    rw [← (Activation.taskStart.inj heq).2] at hp
    simp [Tasks.enter, Tasks.setPlace] at hp

theorem TaskStep.endsAbove (hs : TaskStep m l m') (hf : ∀ x, m.place x = .final → EndsAbove x m.calls) (x : CoroId)
    (hp : m'.place x = .final) : EndsAbove x m'.calls := by
  have hset : ∀ {n : Tasks} {y : CoroId} {p : Place}, n.place = m.place → p ≠ .final →
      (n.setPlace y p).place x = .final → m.place x = .final := by
    intro m₁ y p hm hpf h1
    by_cases hx : x = y
    · exact absurd (by simpa [Tasks.setPlace, hx] using h1) hpf
    · simpa [Tasks.setPlace, hx, hm] using h1
  have harm : ∀ {n : Tasks} {h a : CoroId}, (n.arm h a).place x = .final → n.place x = .final := by
    intro m₁ h a h1
    by_cases ha : x = a
    · subst ha
      simp only [Tasks.arm, Function.update_self] at h1
      cases h2 : m₁.place x <;> rw [h2] at h1 <;> first | rfl | cases h1
    · simpa [Tasks.arm, ha] using h1
  have hpop : ∀ {a : Activation} {rest : List Activation}, m.calls = a :: rest → a ≠ .finalSuspend x →
      m.place x = .final → EndsAbove x rest := by
    intro a rest hc ha h1
    have h2 := hf x h1
    rw [hc] at h2
    exact h2.tail ha
  have hend : ∀ {n : Tasks} {y : CoroId} {out : Option ℕ}, Ended m y out n → n.place x = .final →
      EndsAbove x n.calls := by
    intro m₁ y out h1 h2
    cases h1 with
    | mk hc =>
      by_cases hx : x = y
      · exact .inl (hx ▸ rfl)
      · exact (hpop hc (by simp) (by simpa [Tasks.setPlace, hx] using h2)).cons (by simp)
  cases hs with
  | idle | beginDone | destroy => exact hf x hp
  | suspend hc _ _ hsu =>
    exact hpop hc (by simp) (hset (n := m) rfl (fun he => by simp [he, Place.suspended] at hsu) hp)
  | event hc => exact hpop hc (by simp) (hset (n := m) rfl (by simp) hp)
  | wake | wakeKill => exact (hf x (hset (n := m) (p := .running) rfl (by simp) hp)).cons (by simp)
  | call => exact hf x (hset (n := m) (p := .initial) rfl (by simp) hp)
  | start h1 => exact h1.endsAbove hf x hp
  | register h1 => exact h1.endsAbove (fun y hy => (hf y hy).cons (by simp)) x hp
  | startReturn hc | registered hc => exact hpop hc (by simp) hp
  | rethrowRegister hc => exact (hpop hc (by simp) hp).tail (by simp)
  | rethrowAwait hc =>
    have h1 := hset (n := m) (p := .running) rfl (by simp) hp
    exact ((hpop hc (by simp) h1).tail (by simp)).cons (by simp)
  | @beginStart a h t e rest m₁ hc _ _ _ _ h1 =>
    refine h1.endsAbove (fun y hy => ?_) x hp
    have hy0 : m.place y = .final := by
      by_cases hya : y = a
      · simp [Tasks.setPlace, hya] at hy
      · simpa [Tasks.setPlace, hya] using hy
    have h2 := hf y hy0
    rw [hc] at h2
    exact (h2.tail (by simp)).cons (by simp)
  | @beginArm a h t e rest hc =>
    exact hpop hc (by simp) (hset (n := m) (by rfl) (by simp) (harm (n := { m.setPlace _ _ with calls := rest }) hp))
  | tailDone hc => exact (hpop hc (by simp) (hset (n := m) (p := .running) rfl (by simp) hp)).cons (by simp)
  | @tailArm _ _ _ _ rest hc => exact hpop hc (by simp) (harm (n := { m with calls := rest }) hp)
  | finish _ _ h1 => exact hend h1 hp
  | @finishResume _ _ a _ _ _ _ m₁ _ _ _ h1 =>
    refine (hend h1 ?_).cons (by simp)
    by_cases hx : x = a
    · simp [Tasks.returns, Tasks.enter, Tasks.setPlace, hx] at hp
    · simpa [Tasks.returns, Tasks.enter, Tasks.setPlace, hx] using hp
  | @finalReturn h done rest hc =>
    by_cases hx : x = h
    · simp [Tasks.setPlace, hx] at hp
    · exact hpop hc (by simpa using Ne.symm hx) (by simpa [Tasks.setPlace, hx] using hp)
  | overwritten hc => exact hpop hc (by simp) (hset (n := m) (p := .gone) rfl (by simp) hp)

namespace Tasks

/-- Who has ended is in `final_suspend` or gone. -/
theorem History.final_or_gone (hh : m.History) {x : CoroId} {out : Option ℕ} (hm : Event.returned x out ∈ m.log) :
    m.place x = .final ∨ m.place x = .gone := by
  have h1 := hh.unfinished x out
  cases hp : m.place x <;> simp_all [Place.unfinished]

theorem Dropped.step (hd : m.Dropped) (hh : m.History) (hs : TaskStep m l m') : m'.Dropped := by
  refine ⟨hs.endsAbove hd.final, fun x out hm hheld hp => ?_⟩
  by_cases h0 : Event.returned x out ∈ m.log
  · have hlt := hh.fresh x out h0
    obtain ⟨t, e', he', hh'⟩ := hheld
    have hheld0 : m.Held x := by
      rcases hs.task_started he' hh' with ⟨e, he, hhe, -⟩ | ⟨-, -, rfl, -⟩
      · exact ⟨t, e, he, hhe⟩
      · exact absurd hlt (lt_irrefl _)
    by_cases hp0 : m.place x = .final
    · exact (hs.of_final hp0).resolve_left hp hheld0
    · rw [hs.done_eq hlt hp0]
      exact hd.done x out h0 hheld0 hp0
  · exact absurd (hs.ended hm h0).2.1 hp

theorem Held.of_resumed {t : TaskRef} {e : EvTask} {h x : CoroId} (ht : m.task t = some e)
    (hx : Held ((m.setTask t (some { e with startedCoro := true })).enter h) x) : m.Held x := by
  obtain ⟨t', e', he', hh'⟩ := hx
  by_cases htt : t' = t
  · subst htt
    simp only [enter, setPlace, setTask, Function.update_self, Option.some.injEq] at he'
    subst he'
    exact ⟨t', e, ht, hh'⟩
  · exact ⟨t', e', by simpa [enter, setPlace, setTask, htt] using he', hh'⟩

/-- **What a program keeps of a coroutine that has ended, however it is driven.** -/
theorem Driven.keeps (hs : m.Driven m') (hh : m.History) (hd : m.Dropped) : m'.History ∧ m'.Dropped := by
  cases hs with
  | step h1 => exact ⟨hh.step h1, hd.step hh h1⟩
  | @resume t e h ht hhe hi =>
    refine ⟨?_, fun x hp => ?_, fun x out hm hheld hp => ?_⟩
    · refine (hh.tasks fun t' e' x he' hx => ?_).enter (by simp [hi, Place.unfinished])
      exact Held.of_resumed (h := h) ht ⟨t', e', he', hx⟩
    · have hx : x ≠ h := fun hxh => by simp [enter, setPlace, hxh] at hp
      exact (hd.final x (by simpa [enter, setPlace, setTask, hx] using hp)).cons (by simp)
    · refine hd.done x out hm (hheld.of_resumed ht) fun h1 => hp ?_
      have hx : x ≠ h := fun hxh => by simp [hxh ▸ hi] at h1
      simpa [enter, setPlace, setTask, hx] using h1

end Tasks

end Machine

/-! ### Programs that drive their coroutines -/

namespace State

/-- The task says it was started, and its coroutine has the response. -/
def publishTask (t : TaskRef) (e : EvTask) (h : CoroId) (pack : ResponsePack) (s : State) : State :=
  (s.setTask t { e with startedCoro := true }).modPromise h fun p =>
    { p with comData := p.comData.publishRespData pack }

/-- `EvTask::resume<RespT>`, up to the body of the coroutine. -/
def resumeTask (t : TaskRef) (pack : ResponsePack) (s : State) : Except Stop State := do
  let e ← need .deadTask (s.task t)
  let h ← need .nullHandle e.handle
  resume h none (s.publishTask t e h pack)

/-- What `state.exception_ptr` holds for `start` and `resume<RespT>`, once `_handle.resume()` has returned: nothing
where the frame is gone. -/
def exceptionPtr (h : CoroId) (s : State) : Option Bool :=
  if (s.coros h).place = .gone then none else some (s.coros h).promise.exceptionPtr

/-- A step of a program whose code may also call `resume<RespT>()`, for a coroutine that awaits no task. -/
def driveStep (s : State) : Choice ⊕ VarId × ResponsePack → Except Stop State
  | .inl c => s.step c
  | .inr (v, pack) =>
    match s.stack, (s.vars v).bind EvTask.handle with
    | a :: _, some h =>
      if a.isCode = true ∧ (s.coros h).place.isTask = false then s.resumeTask (.var v) pack else .error .disabled
    | _, _ => .error .disabled

end State

/-- The states that such a program reaches. -/
def DriveReachable (s : State) : Prop := ∃ s₀, State.Initial s₀ ∧ Run driveStep (fun _ _ => True) s₀ s

section Drive

variable {s s' : State} {h : CoroId} {t : TaskRef} {e : EvTask} {pack : ResponsePack}

theorem resumeTask_eq (he : s.task t = some e) (hh : e.handle = some h) :
    s.resumeTask t pack = resume h none (s.publishTask t e h pack) := by
  simp [State.resumeTask, he, hh, need, bind, Except.bind]

theorem place_publishTask : ((s.publishTask t e h pack).coros h).place = (s.coros h).place := by
  cases t <;> simp [publishTask, State.setTask, modPromise, modCoro, modEv]

theorem Coherent.publishTask (hc : Coherent s) (he : s.task t = some e) : Coherent (s.publishTask t e h pack) :=
  (hc.setStarted he).modPromise h (fun _ => rfl) fun _ => rfl

theorem Coherent.resumeTask (hc : Coherent s) (he : s.task t = some e) (hh : e.handle = some h)
    (ht : (s.coros h).place.isTask = false) (hs : s.resumeTask t pack = .ok s') : Coherent s' := by
  rw [resumeTask_eq he hh] at hs
  refine hc.publishTask he |>.resume ⟨fun _ x e' he' hh' => ?_, fun t' c b hp => ?_⟩ hs
  · exact hc.linked.all_started he hh x e' (by cases x <;> exact he') hh'
  · rw [place_publishTask] at hp
    rw [hp] at ht
    cases ht

theorem quiet_resumeTask (he : s.task t = some e) (hh : e.handle = some h) (hs : s.resumeTask t pack = .ok s') :
    Quiet s s' := by
  rw [resumeTask_eq he hh] at hs
  have h1 : Quiet s (s.setTask t { e with startedCoro := true }) := Quiet.setTask he rfl
  exact h1.trans ((Quiet.modPromise ..).trans (Quiet.resume hs))

theorem tasks_resumeTask (hc : Coherent s) (hk : Killing s) {v : VarId} (he : s.vars v = some e)
    (hh : e.handle = some h)
    (ht : (s.coros h).place.isTask = false) (hs : s.resumeTask (.var v) pack = .ok s') : s.tasks.Driven s'.tasks := by
  have he0 : s.task (.var v) = some e := he
  rw [resumeTask_eq he0 hh] at hs
  have hplace : ((s.publishTask (.var v) e h pack).coros h).place = (s.coros h).place := place_publishTask
  have htasks : (s.publishTask (.var v) e h pack).tasks = s.tasks.setTask (.var v)
      (some { e with startedCoro := true }) := by
    rw [← tasks_setTask]
    exact tasks_modCoro ⟨rfl, rfl, rfl, rfl⟩
  -- the coroutine of a task that waits for a response was started
  have hwake : (∃ r, (s.coros h).place = .atIo r) ∨ (s.coros h).place = .atGeneric → s.tasks.Driven s'.tasks := by
    intro hp
    have hst : e.startedCoro = true := by
      by_contra hun
      rcases hc.linked.unstarted (.task (.var v)) e h he0 hh (by simpa using hun) with h1 | h1 <;>
        rcases hp with ⟨r, hp⟩ | hp <;> simp [hp] at h1
    have hsame : (s.publishTask (.var v) e h pack).tasks = s.tasks := by
      have he1 : ({ e with startedCoro := true } : EvTask) = e := by rw [← hst]
      have he2 : s.tasks.task (.var v) = some e := he
      rw [htasks, he1, Tasks.setTask, ← he2, Function.update_eq_self]
    have h1 := tasks_wake (by rw [hplace]; exact hp) hs
    rw [hsame] at h1
    rw [h1]
    exact .step (.wake hp)
  cases hp : (s.coros h).place with
  | initial =>
    have h1 : s' = (s.publishTask (.var v) e h pack).enter h := by
      unfold State.resume at hs
      rw [hplace, hp] at hs
      exact (Except.ok.inj hs).symm
    rw [h1, tasks_enter, htasks]
    exact .resume he hh hp
  | atIo r => exact hwake (.inl ⟨r, hp⟩)
  | atGeneric => exact hwake (.inr hp)
  | atAlways =>
    -- that is `kill_internal`, whose task is `_kill_coro_task`
    have hfits := hc.records.fits h
    rw [hp] at hfits
    have hbody : (s.coros h).body = .killInternal .wait := by simpa [Body.fits] using hfits
    obtain rfl := (hk.only h).mp (by rw [hbody]; rfl)
    have h1 := hc.linked.inj (.task (.var v)) (.task .kill) e _ 0 he0 rfl hh hc.linked.kill
    cases h1
  | atTask t' x b =>
    rw [hp] at ht
    cases ht
  | running | final | gone =>
    unfold State.resume at hs
    rw [hplace, hp] at hs
    cases hs

theorem driveStep_keeps {c : Choice ⊕ VarId × ResponsePack} (hso : Sound s) (hk : Killing s)
    (hs : driveStep s c = .ok s') :
    Sound s' ∧ Killing s' ∧ s.tasks.Driven s'.tasks := by
  cases c with
  | inl c => exact ⟨hso.step hk hs, hk.step (fun _ _ hst => hso.place_of_top hst) hs, .step (step_tasks hso hk hs)⟩
  | inr c =>
    obtain ⟨v, pack⟩ := c
    unfold driveStep at hs
    simp only at hs
    split at hs
    · rename_i a rest h hst hv
      obtain ⟨e, he, hh⟩ := Option.bind_eq_some_iff.mp hv
      split at hs
      · rename_i hcode
        have hc : Coherent s := hso.coherent hst fun h' r' ha => by simp [ha, Activation.isCode] at hcode
        have he' : s.task (.var v) = some e := he
        have hq := quiet_resumeTask he' hh hs
        exact ⟨.inl (hc.resumeTask he' hh hcode.2 hs), hk.same hq.steady fun hl => hq.life.symm.trans hl,
          tasks_resumeTask hc hk he hh hcode.2 hs⟩
      · cases hs
    · cases hs

theorem DriveReachable.keeps (hr : DriveReachable s) : (Sound s ∧ Killing s) ∧ s.tasks.History ∧ s.tasks.Dropped := by
  obtain ⟨s₀, hi, hr⟩ := hr
  refine hr.inv (I := fun s => (Sound s ∧ Killing s) ∧ s.tasks.History ∧ s.tasks.Dropped)
    ⟨⟨.inl (.init hi), .init hi⟩, (tasks_init hi).1, fun x hp => ?_, fun x out hm => ?_⟩ fun s c s'
    ⟨⟨hso, hk⟩, hh, hd⟩ _ hs => ?_
  · have hp' : s₀.tasks.place x = if x = 0 then .initial else .gone := hi.place x
    rw [hp'] at hp
    split at hp <;> cases hp
  · have hlog : s₀.tasks.log = [] := by cases hi <;> rfl
    simp [hlog] at hm
  · obtain ⟨hso', hk', hstep⟩ := driveStep_keeps hso hk hs
    exact ⟨⟨hso', hk'⟩, hstep.keeps hh hd⟩

end Drive

/-! ### Nobody sees the exception -/

/-- A `co_await` that goes on in `await_suspend`, for a coroutine that has ended, returns. -/
theorem TaskStep.told {m m' : Tasks} {a x : CoroId} {t : TaskRef} {out : Option ℕ} (hd : m.Dropped)
    (hs : TaskStep m (.tail a t) m') (hm : Event.returned x out ∈ m.log) (hf : m.place x ≠ .final)
    (hp : m.place a = .atTask t x false) : ∃ code, m'.log = .taskReturned a t x code :: m.log := by
  cases hs with
  | idle hl | finish hl | finishResume hl => simp at hl
  | @tailDone _ h _ e _ _ hp' _ _ _ =>
    obtain rfl : x = h := by simpa using hp.symm.trans hp'
    exact ⟨m.code x, rfl⟩
  | @tailArm _ h _ e _ _ hp' ht hh hdone =>
    rcases hp' with hp' | hp'
    · obtain rfl : x = h := by simpa using hp.symm.trans hp'
      rw [hd.done x out hm ⟨t, e, ht, hh⟩ hf] at hdone
      cases hdone
    · cases hp.symm.trans hp'

/-- **An exception is lost.**  Once the body of `x` has thrown and its `final_suspend` has returned, whoever has
driven `x` finds its frame gone, and a `co_await` of its task that goes on in `await_suspend` returns; `start()`
finds the frame gone, too, and returns normally where its task still holds `x`.  And in the step in which the body
throws, who is stored in its promise is told that it returned. -/
theorem exception_lost {s : State} (hr : DriveReachable s) (x : CoroId) :
    (Event.returned x none ∈ s.trace →
      (Activation.finalSuspend x ∉ s.stack → s.exceptionPtr x = none ∧
        ∀ t a rest s', s.stack = .taskAwait t a :: rest → (s.coros a).place = .atTask t x false →
          State.step s .tau = .ok s' → ∃ code, s'.tasks.log = .taskReturned a t x code :: s.tasks.log) ∧
      ∀ t rest, s.stack = .taskStart t x :: rest → s.exceptionPtr x = none ∧
        ∀ e, s.task t = some e → e.handle = some x → State.step s .tau = .ok s.pop) ∧
    ∀ c s', State.step s c = .ok s' → Event.returned x none ∉ s.trace → Event.returned x none ∈ s'.trace →
      ∀ a, (s.coros x).promise.awaiterHandle = some a →
        ∃ t code, s'.tasks.log = .taskReturned a t x code :: .returned x none :: s.tasks.log := by
  obtain ⟨⟨hso, hk⟩, hh, hd⟩ := hr.keeps
  have hmem : ∀ {u : State}, Event.returned x none ∈ u.tasks.log ↔ Event.returned x none ∈ u.trace :=
    fun {u} => ⟨fun h1 => (List.mem_filter.mp h1).1, fun h1 => List.mem_filter.mpr ⟨h1, rfl⟩⟩
  refine ⟨fun hm => ?_, fun c s' hs h0 hm a ha => ?_⟩
  · have hlog := hmem.mpr hm
    have hgone : (s.coros x).place ≠ .final → s.exceptionPtr x = none := by
      intro h1
      exact if_pos ((hh.final_or_gone hlog).resolve_left h1)
    refine ⟨fun hf => ?_, fun t rest hst => ?_⟩
    · have hne : (s.coros x).place ≠ .final := fun h1 => hf (List.mem_filter.mp (hd.final x h1).mem).1
      refine ⟨hgone hne, fun t a rest s' hst hp hs => ?_⟩
      have h1 := step_tasks hso hk hs
      have hl : s.label .tau = .tail a t := by simp [State.label, hst]
      rw [hl] at h1
      exact h1.told hd hlog hne hp
    · have hne : (s.coros x).place ≠ .final := by
        intro h1
        have h2 := hd.final x h1
        rw [(tasks_pop hst rfl).1] at h2
        exact EndsAbove.not_start h2
      refine ⟨hgone hne, fun e he hx => ?_⟩
      have h1 : s.taskDone e = true :=
        (taskDone_iff hso.linked he).mpr ⟨x, hx, hd.done x none hlog ⟨t, e, he, hx⟩ hne⟩
      have h2 : s.pop.task t = some e := by cases t <;> exact he
      have h3 : s.pop.taskDone e = true := h1
      simp [State.step, hst, startReturn, need, h2, h3, bind, Except.bind, pure, Except.pure]
  · rcases ((step_tasks hso hk hs).ended (hmem.mpr hm) fun h1 => h0 (hmem.mp h1)).2.2 with
      ⟨h1, -⟩ | ⟨b, t, code, h1, -, -, h2⟩
    · cases ha.symm.trans h1
    · obtain rfl : b = a := Option.some.inj (h1.symm.trans ha)
      exact ⟨t, code, h2⟩

theorem DriveReachable.of_exec {n : ℕ} {cs : List (Choice ⊕ VarId × ResponsePack)} {p : State → Bool}
    (he : (exec driveStep (fun _ _ => True) (init n) cs).map p = some true) : ∃ s, DriveReachable s ∧ p s = true := by
  obtain ⟨s, hr, hp⟩ := Run.exists_of_exec he
  exact ⟨s, ⟨init n, .up n, hr⟩, hp⟩

/-- `main` starts a coroutine that awaits another, and resumes that one by `resume<RespT>()`; it throws, and the
first one goes on and returns. -/
def throwRun : List (Choice ⊕ VarId × ResponsePack) :=
  [.user .call, .user .call, .user (.startTask 0), .user (.awaitTask 1), .user (.awaitOp (.read ⟨3, 100, 8⟩)),
    .sub 1, .tau, .tau, .tau].map .inl ++ .inr (1, .empty .read) :: [.user .throw, .user (.coReturn 0), .tau, .tau].map .inl

/-- `resume<RespT>()` finds the frame gone. -/
theorem exception_lost_resumed : ∃ s : State, s.stack = [.main] ∧ Event.returned 2 none ∈ s.trace ∧
    s.exceptionPtr 2 = none := by
  have he : (exec driveStep (fun _ _ => True) (init 4) throwRun).map
      (fun s => decide (s.stack = [.main] ∧ Event.returned 2 none ∈ s.trace)) = some true := by decide
  obtain ⟨s, hr, hs⟩ := DriveReachable.of_exec he
  obtain ⟨hst, hm⟩ := of_decide_eq_true hs
  exact ⟨s, hst, hm, (((exception_lost hr 2).1 hm).1 (by simp [hst])).1⟩

/-- The awaiter of a coroutine that has thrown is told that it returned `0`, and no call has seen the exception. -/
theorem exception_lost_fails : ∃ s : State, DriveReachable s ∧ s.stack = [.main] ∧ Event.returned 2 none ∈ s.trace ∧
    Event.taskReturned 1 (.var 1) 2 0 ∈ s.trace ∧ Event.returned 1 (some 0) ∈ s.trace ∧ s.exceptionPtr 2 = none := by
  have he : (exec driveStep (fun _ _ => True) (init 4) throwRun).map (fun s => decide (s.stack = [.main] ∧
      Event.returned 2 none ∈ s.trace ∧ Event.taskReturned 1 (.var 1) 2 0 ∈ s.trace ∧
      Event.returned 1 (some 0) ∈ s.trace ∧ s.exceptionPtr 2 = none)) = some true := by decide
  obtain ⟨s, hr, hs⟩ := DriveReachable.of_exec he
  exact ⟨s, hr, of_decide_eq_true hs⟩

end EvManager
