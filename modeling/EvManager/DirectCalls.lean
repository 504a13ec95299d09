import EvManager.Awaiting
import EvManager.Reports

/-!
# Tasks behave as direct calls

A body is given the value of each task it awaits and ends with a value of its own.  If that value is a function of
those it was given, then a task that returns returns what the function computes when the tasks are called
directly, whatever suspends in between and in whatever order it is resumed: **`direct_calls`**.  The task machine
shows it, and every run of the program is one of the task machine: **`tasks_refine`**.
-/

namespace EvManager

open Lib State

/-- The value that `h` is given where its `co_await` on a task returns, with the coroutine of the task. -/
def Event.given (h : CoroId) : Event → Option (CoroId × ℕ)
  | .taskReturned a _ x v => if a = h then some (x, v) else none
  | _ => none

/-- The coroutine whose body ends in the step with a value, and the value. -/
def TaskLabel.value : TaskLabel → Option (CoroId × ℕ)
  | .finish h (some v) => some (h, v)
  | _ => none

/-- The variable whose task `register_coro` moves into the store. -/
def TaskLabel.moved : TaskLabel → Option VarId
  | .registered v _ => some v
  | _ => none

namespace Tasks

variable {m m' : Tasks} {l : TaskLabel} {F : CoroId → List ℕ → ℕ} {x : CoroId} {v : ℕ}

/-- What `h` was given, oldest first. -/
def given (m : Tasks) (h : CoroId) : List (CoroId × ℕ) := (m.log.filterMap (Event.given h)).reverse

/-- The value of a direct call of the body of `x`.  A body of the library has the value it returned; a body of the
user has the value of `F` at the values of the tasks it awaited, in that order. -/
inductive Computes (F : CoroId → List ℕ → ℕ) (m : Tasks) : CoroId → ℕ → Prop
  | library {x : CoroId} {v : ℕ} : m.user x = false → .returned x (some v) ∈ m.log → Computes F m x v
  | call {x : CoroId} {v : ℕ} : m.user x = true → .returned x (some v) ∈ m.log →
      (∀ y ∈ m.given x, Computes F m y.1 y.2) →
      v = F x ((m.given x).map Prod.snd) → Computes F m x v

/-- The bodies of the user return what `F` says, and `register_coro` does not move a task from under a `co_await`. -/
def Direct (F : CoroId → List ℕ → ℕ) (m : Tasks) (l : TaskLabel) : Prop :=
  (∀ y ∈ l.value, m.user y.1 = true → y.2 = F y.1 ((m.given y.1).map Prod.snd)) ∧
    ∀ v ∈ l.moved, ∀ a < m.next, ∀ p ∈ (m.place a).awaited, p.1 ≠ .var v

instance (F : CoroId → List ℕ → ℕ) (m : Tasks) (l : TaskLabel) : Decidable (m.Direct F l) := by
  unfold Direct
  infer_instance

/-- What a step logs: nothing; the answer of a task that has ended, to `a`; or the end of a body and perhaps the
answer to who awaits it. -/
inductive Logs (m : Tasks) (l : TaskLabel) (m' : Tasks) : Prop
  | silent : m'.log = m.log → Logs m l m'
  | answered {a h : CoroId} {t : TaskRef} {e : EvTask} : (m.place a).unfinished = true → m.task t = some e →
      e.handle = some h →
      m.done h = true → m'.log = .taskReturned a t h (m.code h) :: m.log → Logs m l m'
  | ended {h : CoroId} {out : Option ℕ} : l = .finish h out ∨ (l = .tau ∧ m.user h = false) → m.place h = .running →
      m'.log = .returned h out :: m.log → Logs m l m'
  | passed {a h : CoroId} {out : Option ℕ} {t : TaskRef} {e : EvTask} {v : ℕ} :
      l = .finish h out ∨ (l = .tau ∧ m.user h = false) → m.place h = .running → m.place a = .atTask t h true →
      m.task t = some e → (e.handle = some h → ∀ y, out = some y → v = y) →
      m'.log = .taskReturned a t h v :: .returned h out :: m.log → Logs m l m'

end Tasks

theorem Started.log_eq {m m' : Tasks} {t : TaskRef} (hs : Started m t m') : m'.log = m.log := by cases hs <;> rfl

open Tasks

variable {m m' : Tasks} {l : TaskLabel} {F : CoroId → List ℕ → ℕ} {x : CoroId} {v : ℕ}

theorem TaskStep.logs (hs : TaskStep m l m') : m.Logs l m' := by
  cases hs with
  | start h1 | register h1 => exact .silent h1.log_eq
  | beginStart _ _ _ _ _ h1 => exact .silent h1.log_eq
  | beginDone _ hr he _ hh hd => exact .answered (by rw [hr]; rfl) he hh hd rfl
  | tailDone _ hp he hh hd => exact .answered (by rw [hp]; rfl) he hh hd rfl
  | finish hl _ h1 =>
    cases h1 with
    | mk _ hr => exact .ended hl hr rfl
  | @finishResume _ h a out t e y m₁ hl _ hp h1 he hy =>
    cases h1 with
    | mk _ hr _ _ hval hfew =>
      refine .passed hl hr hp (hfew.2 t e he) (fun hh z hz => ?_) rfl
      exact (hy hh).trans (hval z hz ⟨t, e, hfew.2 t e he, hh⟩)
  | _ => exact .silent rfl

theorem TaskStep.user_eq (hs : TaskStep m l m') (hlt : x < m.next) : m'.user x = m.user x := by
  have hstart : ∀ {n : Tasks} {t : TaskRef}, Started n t m' → m'.user = n.user := fun h1 => by cases h1 <;> rfl
  cases hs with
  | call => exact Function.update_of_ne hlt.ne _ _
  | start h1 | register h1 => rw [hstart h1]
  | beginStart _ _ _ _ _ h1 => rw [hstart h1]; rfl
  | finish _ _ h1 => cases h1; rfl
  | finishResume _ _ _ h1 => cases h1; rfl
  | _ => rfl

namespace Tasks

theorem given_cons {e : Event} {es : List Event} (hm : m'.log = e :: es) :
    m'.given x = (es.filterMap (Event.given x)).reverse ++ (e.given x).toList := by
  rw [given, hm, List.filterMap_cons]
  cases e.given x <;> simp

theorem Logs.given_eq (hl : m.Logs l m') (hx : (m.place x).unfinished = false) : m'.given x = m.given x := by
  have hne : ∀ {a : CoroId}, (m.place a).unfinished = true → a ≠ x := fun ha h => by rw [h, hx] at ha; cases ha
  cases hl with
  | silent h1 => rw [given, h1, given]
  | answered ha _ _ _ h1 =>
    rw [given_cons h1]
    simp [Event.given, hne ha, given]
  | ended _ _ h1 =>
    rw [given_cons h1]
    simp [Event.given, given]
  | passed _ _ ha _ _ h1 =>
    rw [given_cons h1, List.filterMap_cons]
    simp [Event.given, hne (show (m.place _).unfinished = true by rw [ha]; rfl), given]

theorem Computes.step (hh : m.History) (hs : TaskStep m l m') (hc : Computes F m x v) : Computes F m' x v := by
  have hold : ∀ {y : CoroId} {w : ℕ}, .returned y (some w) ∈ m.log →
      m'.user y = m.user y ∧ m'.given y = m.given y ∧ .returned y (some w) ∈ m'.log := by
    intro y w hy
    refine ⟨hs.user_eq (hh.fresh y _ hy), hs.logs.given_eq ?_, hs.mem_log hy⟩
    by_contra hu
    exact hh.unfinished y _ (by simpa using hu) hy
  induction hc with
  | library hu hr =>
    obtain ⟨h1, -, h2⟩ := hold hr
    exact .library (h1.trans hu) h2
  | call hu hr _ hv ih =>
    obtain ⟨h1, hg, h2⟩ := hold hr
    exact .call (h1.trans hu) h2 (fun y hy => ih y (hg ▸ hy)) (hg ▸ hv)

/-- Whatever is awaited is held by the task it is awaited through. -/
def Holding (m : Tasks) : Prop := ∀ a t h b, m.place a = .atTask t h b → ∀ e, m.task t = some e → e.handle = some h

theorem Holding.step (hw : m.Holding) (hf : ∀ h, m.next ≤ h → m.place h = .gone) (hok : m.Direct F l)
    (hs : TaskStep m l m') :
    m'.Holding := by
  intro a t h b hp e he
  have hold : ∀ b', m.place a = .atTask t h b' → e.handle = some h := by
    intro b' hp0
    rcases hs.task he with ⟨e0, he0, heq⟩ | ⟨-, hn⟩ | ⟨v, x, rfl, rfl⟩
    · rw [← heq]
      exact hw a t h b' hp0 e0 he0
    · exact absurd hp0 (hn a h b')
    · have hlt : a < m.next := by
        by_contra hge
        rw [hf a (not_lt.mp hge)] at hp0
        cases hp0
      exact absurd rfl (hok.2 v rfl a hlt (.var v, h) (Place.awaited_eq.mpr ⟨b', hp0⟩))
  rcases hs.atTask hp with h1 | ⟨-, h1, -⟩ | ⟨hr, rfl⟩
  · exact hold b h1
  · exact hold false h1
  · obtain ⟨e1, he1, hh1, -⟩ := hs.of_begin hp
    rcases hs.task he with ⟨e0, he0, heq⟩ | ⟨⟨u, hl⟩, -⟩ | ⟨v, x, hl, -⟩
    · obtain rfl : e1 = e0 := Option.some.inj (he1.symm.trans he0)
      exact heq.symm.trans hh1
    · cases hl
    · cases hl

/-- What holds along a run whose bodies are direct: while nothing was thrown, everybody was given what was returned,
and whatever was returned is what the direct calls compute. -/
structure Computed (F : CoroId → List ℕ → ℕ) (m : Tasks) : Prop where
  holding : m.Holding
  values : (∀ h, .returned h none ∉ m.log) → ∀ a t h v, .taskReturned a t h v ∈ m.log → .returned h (some v) ∈ m.log
  computes : (∀ h, .returned h none ∉ m.log) → ∀ h v, .returned h (some v) ∈ m.log → Computes F m h v

theorem mem_given {y : CoroId × ℕ} : y ∈ m.given x ↔ ∃ t, .taskReturned x t y.1 y.2 ∈ m.log := by
  rw [given, List.mem_reverse, List.mem_filterMap]
  constructor
  · rintro ⟨e, he, hy⟩
    cases e with
    | taskReturned a t h v =>
      simp only [Event.given] at hy
      split at hy
      · rename_i hax
        obtain rfl := Option.some.inj hy
        exact ⟨t, hax ▸ he⟩
      · cases hy
    | _ => cases hy
  · rintro ⟨t, he⟩
    exact ⟨_, he, by simp [Event.given]⟩

namespace Computed

/-- The body that ends has been given what its calls compute, and ends with `F` of that. -/
theorem of_end (hc : Computed F m) (hh : m.History) (hok : m.Direct F l) (hs : TaskStep m l m')
    (hno : ∀ h, .returned h none ∉ m.log) (hl : l = .finish x (some v) ∨ (l = .tau ∧ m.user x = false))
    (hlt : x < m.next) (hr : .returned x (some v) ∈ m'.log) (hg : m'.given x = m.given x) : Computes F m' x v := by
  by_cases hu : m.user x = true
  · obtain rfl : l = .finish x (some v) := hl.resolve_right fun h => by simp [hu] at h
    refine .call ((hs.user_eq hlt).trans hu) hr (fun y hy => ?_) (hg ▸ hok.1 (x, v) rfl hu)
    obtain ⟨t, hy⟩ := mem_given.mp (hg ▸ hy)
    exact (hc.computes hno _ _ (hc.values hno _ _ _ _ hy)).step hh hs
  · exact .library ((hs.user_eq hlt).trans (by simpa using hu)) hr

theorem step (hc : Computed F m) (hh : m.History) (hf : ∀ h, m.next ≤ h → m.place h = .gone) (hok : m.Direct F l)
    (hs : TaskStep m l m') : Computed F m' := by
  have hno' : (∀ h, .returned h none ∉ m'.log) → ∀ h, .returned h none ∉ m.log := fun hno h hm => hno h (hs.mem_log hm)
  have hlt : ∀ {h : CoroId}, m.place h = .running → h < m.next := by
    intro h hp
    by_contra hge
    cases hp.symm.trans (hf h (not_lt.mp hge))
  refine ⟨hc.holding.step hf hok hs, fun hno a t h v hm => ?_, fun hno h v hm => ?_⟩
  · by_cases h0 : .taskReturned a t h v ∈ m.log
    · exact hs.mem_log (hc.values (hno' hno) a t h v h0)
    cases hs.logs with
    | silent h1 => exact absurd (h1 ▸ hm) h0
    | answered _ he hhe hd h1 =>
      rcases List.mem_cons.mp (h1 ▸ hm) with h2 | h2
      · cases h2
        obtain ⟨out, hout⟩ := hh.ended h (.inr hd)
        cases out with
        | none => exact absurd hout (hno' hno h)
        | some w => exact hs.mem_log ((hh.code h w hout ⟨_, _, he, hhe⟩) ▸ hout)
      · exact absurd h2 h0
    | ended _ _ h1 => exact absurd ((List.mem_cons.mp (h1 ▸ hm)).resolve_left (by simp)) h0
    | @passed _ _ out _ _ _ _ _ hp he hv h1 =>
      rcases List.mem_cons.mp (h1 ▸ hm) with h2 | h2
      · cases h2
        have hr : .returned h out ∈ m'.log := by rw [h1]; simp
        cases out with
        | none => exact absurd hr (hno h)
        | some w => exact (hv (hc.holding _ _ _ _ hp _ he) w rfl) ▸ hr
      · exact absurd ((List.mem_cons.mp h2).resolve_left (by simp)) h0
  · by_cases h0 : .returned h (some v) ∈ m.log
    · exact (hc.computes (hno' hno) h v h0).step hh hs
    cases hs.logs with
    | silent h1 => exact absurd (h1 ▸ hm) h0
    | answered _ _ _ _ h1 => exact absurd ((List.mem_cons.mp (h1 ▸ hm)).resolve_left (by simp)) h0
    | ended hl hr h1 =>
      rcases List.mem_cons.mp (h1 ▸ hm) with h2 | h2
      · cases h2
        refine hc.of_end hh hok hs (hno' hno) hl (hlt hr) hm ?_
        rw [given_cons h1]
        simp [Event.given, given]
      · exact absurd h2 h0
    | @passed a _ _ _ _ _ hl hr hp _ _ h1 =>
      rcases List.mem_cons.mp ((List.mem_cons.mp (h1 ▸ hm)).resolve_left (by simp)) with h2 | h2
      · cases h2
        have hne : a ≠ h := by
          rintro rfl
          cases hr.symm.trans hp
        refine hc.of_end hh hok hs (hno' hno) hl (hlt hr) hm ?_
        rw [given_cons h1, List.filterMap_cons]
        simp [Event.given, given, hne]
      · exact absurd h2 h0

end Computed

end Tasks

/-! ### The program refines the machine -/

/-- The states that the machine reaches from `m₀` by steps that all meet `P`. -/
inductive TaskRun (P : Tasks → TaskLabel → Prop) (m₀ : Tasks) : Tasks → Prop
  | refl : TaskRun P m₀ m₀
  | step {m m' : Tasks} {l : TaskLabel} : TaskRun P m₀ m → P m l → TaskStep m l m' → TaskRun P m₀ m'

/-- **The program refines the task machine.**  In every run of the program in which no completion comes for an
awaitable that is held after its `co_await` has returned, with any requests, completions, batches, polls and kills
in between, the coroutines and the tasks go through a run of the machine, which takes the steps the labels say. -/
theorem tasks_refine {P : Tasks → TaskLabel → Prop} {s : State}
    (h : Reach (fun s c => s.OnTime c ∧ P s.tasks (s.label c)) s) :
    ∃ s₀, State.Initial s₀ ∧ TaskRun P s₀.tasks s.tasks := by
  obtain ⟨s₀, hi, hr⟩ := h
  refine ⟨s₀, hi, hr.inv_of (I := fun s => TaskRun P s₀.tasks s.tasks) (J := fun s => Reachable s)
    (fun s hs => Reach.reachable ⟨s₀, hi, hs⟩) .refl fun s c s' hreach ht hP hs => ?_⟩
  exact ht.step hP.2 (step_tasks hreach.sound hreach.killing hs)

/-- A coroutine is called and started and returns 5, and so does one of the machine. -/
theorem tasks_refine_returned : ∃ s s₀ : State, s.tasks.log = [.returned 1 (some 5)] ∧ State.Initial s₀ ∧
    TaskRun (fun _ _ => True) s₀.tasks s.tasks := by
  have he : (exec State.step (fun s c => s.OnTime c ∧ True) (init 4)
    [.user .call, .user (.startTask 0), .user (.coReturn 5)]).map
      (fun s => decide (s.tasks.log = [.returned 1 (some 5)])) = some true := by decide
  obtain ⟨s, hreach, hs⟩ := Reach.of_exec (.up 4) he
  obtain ⟨s₀, hi, hr⟩ := tasks_refine (P := fun _ _ => True) hreach
  exact ⟨s, s₀, of_decide_eq_true hs, hi, hr⟩

/-- The step is as `F` says: a body of the user ends with the value of `F`, and no task is moved from under a
`co_await`; and no completion comes for an awaitable that is held after its `co_await` has returned. -/
def State.DirectCalls (F : CoroId → List ℕ → ℕ) (s : State) (c : Choice) : Prop :=
  s.tasks.Direct F (s.label c) ∧ s.OnTime c

instance (F : CoroId → List ℕ → ℕ) (s : State) (c : Choice) : Decidable (s.DirectCalls F c) := by
  unfold State.DirectCalls; infer_instance

theorem Reach.computed {s : State} (h : Reach (State.DirectCalls F) s) : Computed F s.tasks := by
  refine Reach.inv_of (I := fun s => Computed F s.tasks) (J := fun s => Reachable s) (fun s hs => Reach.reachable hs)
    (fun s hi => ?_) (fun s c s' hreach hc hP hs => ?_) h
  · have hlog : s.tasks.log = [] := by cases hi <;> rfl
    refine ⟨fun a t x b hp => ?_, fun _ a t x v hm => ?_, fun _ x v hm => ?_⟩
    · have hp' : s.tasks.place a = if a = 0 then .initial else .gone := hi.place a
      rw [hp'] at hp
      split at hp <;> cases hp
    · rw [hlog] at hm
      cases hm
    · rw [hlog] at hm
      cases hm
  · exact hc.step hreach.history.1 (tasks_fresh hreach.sound) hP.1 (step_tasks hreach.sound hreach.killing hs)

/-- **Tasks behave as direct calls.**  Let every body of the user end with the value of `F` at the values its
`co_await`s were given, in that order.  Then, unless a body threw, whatever a body has returned is what the
recursive function computes that calls the awaited tasks directly, with the values of the library's bodies at the
leaves: however the tasks were started, whatever they waited for in between, and in whatever order it completed. -/
theorem direct_calls {s : State} (h : Reach (State.DirectCalls F) s) (hno : ∀ x, .returned x none ∉ s.trace)
    (hx : .returned x (some v) ∈ s.trace) : Computes F s.tasks x v :=
  h.computed.computes (fun y hy => hno y ((State.mem_log rfl).mp hy)) x v ((State.mem_log rfl).mpr hx)

/-- A coroutine awaits another, which reads before it returns: it returns one more than it was given. -/
theorem direct_calls_two : ∃ s : State, .returned 1 (some 2) ∈ s.trace ∧ s.tasks.given 1 = [(2, 1)] ∧
    Computes (fun _ vs => vs.sum + 1) s.tasks 1 2 := by
  have he : (exec State.step (State.DirectCalls fun _ vs => vs.sum + 1) (init 4)
    [.user .call, .user .call, .user (.startTask 0),
      .user (.awaitTask 1), .user (.awaitOp (.read ⟨3, 100, 8⟩)), .sub 1, .tau, .tau, .tau, .user .start,
      .message 0, .cqe 0 8 0, .user (.coReturn 1), .user (.coReturn 2)]).map (fun s => decide (s.tasks.log =
        [.returned 1 (some 2), .taskReturned 1 (.var 1) 2 1, .returned 2 (some 1)])) = some true := by decide
  obtain ⟨s, hreach, hs⟩ := Reach.of_exec (.up 4) he
  have hlog := of_decide_eq_true hs
  have hx : .returned 1 (some 2) ∈ s.trace := (State.mem_log rfl).mp (by rw [hlog]; simp)
  refine ⟨s, hx, by rw [Tasks.given, hlog]; rfl, direct_calls hreach (fun y hy => ?_) hx⟩
  have hy := (State.mem_log rfl).mpr hy
  rw [hlog] at hy
  simp at hy

end EvManager
