import EvManager.Awaiting
import EvManager.TaskRun

/-!
# The slot for an awaiter

Where the slot of a coroutine, its exception and its frame change.  `Begun`: nobody is stored in the promise of a
coroutine that was not started.
-/

namespace EvManager

open Lib State

variable {m m' : Tasks} {l : TaskLabel}

/-- The slot of a coroutine is filled by an `await_suspend`, of a task that was started. -/
theorem TaskStep.awaiter_eq (hs : TaskStep m l m') (h : CoroId) :
    m'.awaiter h = m.awaiter h ∨ (h = m.next ∧ m'.awaiter h = none) ∨
      ∃ a t e, m.task t = some e ∧ e.handle = some h ∧ m.done h = false ∧
        (l = .begin a t ∧ e.startedCoro = true ∨
          l = .tail a t ∧ Activation.taskAwait t a ∈ m.calls ∧
          (m.place a = .atTask t h false ∨ m.place a = .gone)) := by
  have hstart : ∀ {n : Tasks} {t : TaskRef}, Started n t m' → n.awaiter = m.awaiter → m'.awaiter h = m.awaiter h := by
    intro m₁ t h1 h2
    rw [← h2]
    cases h1 <;> rfl
  cases hs with
  | call =>
    by_cases hn : h = m.next
    · exact .inr (.inl ⟨hn, by simp [Tasks.call, hn]⟩)
    · exact .inl (by simp [Tasks.call, hn])
  | start h1 | register h1 | beginStart _ _ _ _ _ h1 => exact .inl (hstart h1 rfl)
  | @beginArm a x t e _ _ _ ht hst hh hd =>
    by_cases hx : h = x
    · subst hx
      exact .inr (.inr ⟨a, t, e, ht, hh, hd, .inl ⟨rfl, hst⟩⟩)
    · exact .inl (by simp [Tasks.arm, Tasks.setPlace, hx])
  | @tailArm a x t e _ hc hp ht hh hd =>
    by_cases hx : h = x
    · subst hx
      exact .inr (.inr ⟨a, t, e, ht, hh, hd, .inr ⟨rfl, by simp [hc], hp⟩⟩)
    · exact .inl (by simp [Tasks.arm, hx])
  | finish _ _ h1 | finishResume _ _ _ h1 =>
    cases h1
    exact .inl rfl
  | _ => exact .inl rfl

theorem TaskStep.nextVar_le (hs : TaskStep m l m') : m.nextVar ≤ m'.nextVar := by
  have hstart : ∀ {n : Tasks} {t : TaskRef}, Started n t m' → m'.nextVar = n.nextVar := by
    intro m₁ t h1
    cases h1 <;> rfl
  cases hs with
  | call => exact Nat.le_succ _
  | start h1 | register h1 | beginStart _ _ _ _ _ h1 => exact (hstart h1).ge
  | finish _ _ h1 | finishResume _ _ _ h1 =>
    cases h1
    exact le_rfl
  | _ => exact le_rfl

theorem TaskStep.thrown_eq (hs : TaskStep m l m') (h : CoroId) :
    m'.thrown h = m.thrown h ∨ (h = m.next ∧ m'.thrown h = false) ∨
      m.place h = .running ∧ (l = .finish h none ∨ l = .tau ∧ m.user h = false) := by
  have hstart : ∀ {n : Tasks} {t : TaskRef}, Started n t m' → n.thrown = m.thrown → m'.thrown h = m.thrown h := by
    intro m₁ t h1 h2
    rw [← h2]
    cases h1 <;> rfl
  have hend : ∀ {n : Tasks} {x : CoroId} {out : Option ℕ}, Ended m x out n → l = .finish x out ∨ l = .tau ∧
    m.user x = false →
      n.thrown h = m.thrown h ∨ m.place h = .running ∧ (l = .finish h none ∨ l = .tau ∧ m.user h = false) := by
    intro m₁ x out h1 hl
    cases h1 with
    | mk _ hp =>
      cases out with
      | some y => exact .inl rfl
      | none =>
        by_cases hx : h = x
        · subst hx
          exact .inr ⟨hp, hl⟩
        · exact .inl (by simp [hx])
  cases hs with
  | call =>
    by_cases hn : h = m.next
    · exact .inr (.inl ⟨hn, by simp [Tasks.call, hn]⟩)
    · exact .inl (by simp [Tasks.call, hn])
  | start h1 | register h1 | beginStart _ _ _ _ _ h1 => exact .inl (hstart h1 rfl)
  | finish hl _ h1 => exact (hend h1 hl).imp_right .inr
  | finishResume hl _ _ h1 => exact (hend h1 hl).imp_right .inr
  | _ => exact .inl rfl

/-- A frame goes after `final_suspend`, or `register_coro` destroys it. -/
theorem TaskStep.gone (hs : TaskStep m l m') {h : CoroId} (hp : m'.place h = .gone) :
    m.place h = .gone ∨ m.place h = .final ∨ ∃ v, l = .registered v (some h) := by
  have hplace : ∀ {n : Tasks} {x : CoroId} {p : Place}, (n.setPlace x p).place h = .gone →
      n.place h = .gone ∨ p = .gone ∧ h = x := by
    intro m₁ x p h1
    by_cases hx : h = x
    · exact .inr ⟨by simpa [Tasks.setPlace, hx] using h1, hx⟩
    · exact .inl (by simpa [Tasks.setPlace, hx] using h1)
  have hstart : ∀ {n : Tasks} {t : TaskRef}, Started n t m' → n.place h = .gone := by
    intro m₁ t h1
    cases h1 with
    | already => exact hp
    | now => exact (hplace (n := { m₁.setTask _ _ with calls := _ }) hp).resolve_right (by simp)
  have harm : ∀ {n : Tasks} {x a : CoroId}, (n.arm x a).place h = .gone → n.place h = .gone := by
    intro m₁ x a h1
    by_cases ha : h = a
    · subst ha
      simp only [Tasks.arm, Function.update_self] at h1
      cases hp : m₁.place h <;> rw [hp] at h1 <;> first | rfl | cases h1
    · simpa [Tasks.arm, ha] using h1
  have hrun : ∀ {x : CoroId} {p : Place}, p ≠ .gone → (m.setPlace x p).place h = .gone → m.place h = .gone :=
    fun hne h1 => (hplace h1).resolve_right fun h2 => hne h2.1
  cases hs with
  | idle | startReturn | rethrowRegister | beginDone | destroy | registered => exact .inl hp
  | suspend _ _ _ hsu => exact .inl (hrun (fun he => by simp [he, Place.suspended] at hsu) hp)
  | event => exact .inl (hrun (by simp) hp)
  | wake | wakeKill => exact .inl (hrun (p := .running) (by simp) hp)
  | call =>
    by_cases hn : h = m.next
    · simp [Tasks.call, hn] at hp
    · exact .inl (by simpa [Tasks.call, hn] using hp)
  | start h1 => exact .inl (hstart h1)
  | register h1 =>
    have h2 := hstart h1
    exact .inl h2
  | rethrowAwait => exact .inl (hrun (p := .running) (by simp) hp)
  | @beginStart a x t _ _ _ _ _ _ _ _ h1 =>
    have h2 := hstart h1
    exact .inl (hrun (p := .atTask t x false) (by simp) h2)
  | @beginArm a x t => exact .inl (hrun (p := .atTask t x false) (by simp) (harm (x := x) hp))
  | tailDone => exact .inl (hrun (p := .running) (by simp) hp)
  | @tailArm _ x => exact .inl (harm (n := { m with calls := _ }) (x := x) hp)
  | finish _ _ h1 =>
    rw [h1.place] at hp
    exact .inl (hrun (by simp) hp)
  | @finishResume _ x a out t e y m₁ _ _ _ h1 =>
    have h2 : m₁.place h = .gone := (hplace (n := m₁) (p := .running) hp).resolve_right (by simp)
    rw [h1.place] at h2
    exact .inl (hrun (by simp) h2)
  | @finalReturn x _ _ _ hf =>
    rcases hplace (n := m) hp with h1 | ⟨-, rfl⟩
    · exact .inl h1
    · exact .inr (.inl hf)
  | @overwritten v x =>
    rcases hplace (n := m) hp with h1 | ⟨-, rfl⟩
    · exact .inl h1
    · exact .inr (.inr ⟨v, rfl⟩)

theorem TaskStep.initial (hs : TaskStep m l m') {h : CoroId} (hp : m'.place h = .initial) :
    m.place h = .initial ∨ h = m.next ∧ ∃ user, l = .call user := by
  have hplace : ∀ {n : Tasks} {x : CoroId} {p : Place}, p ≠ .initial → (n.setPlace x p).place h = .initial →
      n.place h = .initial := by
    intro m₁ x p hne h1
    by_cases hx : h = x
    · exact absurd (by simpa [Tasks.setPlace, hx] using h1) hne
    · simpa [Tasks.setPlace, hx] using h1
  have hstart : ∀ {n : Tasks} {t : TaskRef}, Started n t m' → n.place h = .initial := by
    intro m₁ t h1
    cases h1 with
    | already => exact hp
    | now => exact hplace (n := { m₁.setTask _ _ with calls := _ }) (p := .running) (by simp) hp
  have harm : ∀ {n : Tasks} {x a : CoroId}, (n.arm x a).place h = .initial → n.place h = .initial := by
    intro m₁ x a h1
    by_cases ha : h = a
    · subst ha
      exact Place.initial_of_arm (by simpa [Tasks.arm] using h1)
    · simpa [Tasks.arm, ha] using h1
  cases hs with
  | idle | startReturn | rethrowRegister | beginDone | destroy | registered => exact .inl hp
  | suspend _ _ _ _ _ hne => exact .inl (hplace (n := m) hne hp)
  | event => exact .inl (hplace (n := m) (by simp) hp)
  | wake | wakeKill => exact .inl (hplace (n := m) (p := .running) (by simp) hp)
  | @call user =>
    by_cases hn : h = m.next
    · exact .inr ⟨hn, user, rfl⟩
    · exact .inl (by simpa [Tasks.call, hn] using hp)
  | start h1 => exact .inl (hstart h1)
  | register h1 =>
    have h2 := hstart h1
    exact .inl h2
  | rethrowAwait => exact .inl (hplace (n := m) (p := .running) (by simp) hp)
  | @beginStart a x t _ _ _ _ _ _ _ _ h1 =>
    have h2 := hstart h1
    exact .inl (hplace (n := m) (p := .atTask t x false) (by simp) h2)
  | @beginArm a x t => exact .inl (hplace (n := m) (p := .atTask t x false) (by simp) (harm (x := x) hp))
  | tailDone => exact .inl (hplace (n := m) (p := .running) (by simp) hp)
  | @tailArm _ x => exact .inl (harm (n := { m with calls := _ }) (x := x) hp)
  | finish _ _ h1 =>
    rw [h1.place] at hp
    exact .inl (hplace (n := m) (p := .final) (by simp) hp)
  | @finishResume _ x a out t e y m₁ _ _ _ h1 =>
    have h2 : m₁.place h = .initial := hplace (n := m₁) (p := .running) (by simp) hp
    rw [h1.place] at h2
    exact .inl (hplace (n := m) (p := .final) (by simp) h2)
  | finalReturn | overwritten => exact .inl (hplace (n := m) (p := .gone) (by simp) hp)

/-- A task that holds a coroutine held it before, and was started then, unless it is started or made now. -/
theorem TaskStep.task_started (hs : TaskStep m l m') {t : TaskRef} {e' : EvTask} {h : CoroId}
    (he : m'.task t = some e') (hh : e'.handle = some h) :
    (∃ e, m.task t = some e ∧ e.handle = some h ∧ (e'.startedCoro = e.startedCoro ∨
      e'.startedCoro = true ∧ m'.place h ≠ .initial)) ∨
        (∃ user, l = .call user) ∧ t = .var m.nextVar ∧ h = m.next ∧ e'.startedCoro = false := by
  have hstart : ∀ {n : Tasks} {t₁ : TaskRef}, Started n t₁ m' → n.task = m.task →
      ∃ e, m.task t = some e ∧ e.handle = some h ∧ (e'.startedCoro = e.startedCoro ∨
        e'.startedCoro = true ∧ m'.place h ≠ .initial) := by
    intro m₁ t₁ h1 h2
    rw [← h2]
    cases h1 with
    | already => exact ⟨e', he, hh, .inl rfl⟩
    | @now e x he1 hst hx =>
      by_cases htt : t = t₁
      · subst htt
        simp only [Tasks.enter, Tasks.setPlace, Tasks.setTask, Function.update_self, Option.some.injEq] at he
        subst he
        obtain rfl : x = h := Option.some.inj (hx.symm.trans hh)
        exact ⟨e, he1, hx, .inr ⟨rfl, by simp [Tasks.enter, Tasks.setPlace]⟩⟩
      · exact ⟨e', by simpa [Tasks.enter, Tasks.setPlace, Tasks.setTask, htt] using he, hh, .inl rfl⟩
  have hmoved : ∀ {v : VarId} {task : TaskRef → Option EvTask}, m.Fewer task →
      Function.update task (.var v) (some {}) t = some e' → m.task t = some e' := by
    intro v task hfew h1
    by_cases htt : t = .var v
    · subst htt
      rw [Function.update_self, Option.some.injEq] at h1
      simp [← h1] at hh
    · exact hfew.2 t e' (by simpa [htt] using h1)
  cases hs with
  | @call user =>
    by_cases htt : t = .var m.nextVar
    · subst htt
      simp only [Tasks.call, Function.update_self, Option.some.injEq] at he
      subst he
      exact .inr ⟨⟨user, rfl⟩, rfl, (Option.some.inj hh).symm, rfl⟩
    · exact .inl ⟨e', by simpa [Tasks.call, htt] using he, hh, .inl rfl⟩
  | start h1 | register h1 | beginStart _ _ _ _ _ h1 => exact .inl (hstart h1 rfl)
  | finish _ _ h1 | finishResume _ _ _ h1 => exact .inl ⟨e', h1.fewer.2 t e' he, hh, .inl rfl⟩
  | @destroy v =>
    by_cases htt : t = .var v
    · simp [Tasks.setTask, htt] at he
    · exact .inl ⟨e', by simpa [Tasks.setTask, htt] using he, hh, .inl rfl⟩
  | registered => exact .inl ⟨e', hmoved ⟨rfl, fun _ _ h1 => h1⟩ he, hh, .inl rfl⟩
  | overwritten _ _ hfew => exact .inl ⟨e', hmoved hfew he, hh, .inl rfl⟩
  | _ => exact .inl ⟨e', he, hh, .inl rfl⟩

/-- An `await_suspend` comes on the stack to start the task that is awaited. -/
theorem TaskStep.taskAwait_new (hs : TaskStep m l m') {t : TaskRef} {a : CoroId}
    (hm : Activation.taskAwait t a ∈ m'.calls) : Activation.taskAwait t a ∈ m.calls ∨
      (∃ e h, m.task t = some e ∧ e.handle = some h) ∧ (l = .begin a t) ∧
        ∀ e, m'.task t = some e → e.startedCoro = true := by
  have hpop : ∀ {x : Activation} {rest : List Activation}, m.calls = x :: rest → Activation.taskAwait t a ∈ rest →
      Activation.taskAwait t a ∈ m.calls := by
    intro x rest hc h1
    rw [hc]
    exact List.mem_cons_of_mem _ h1
  have hrun : ∀ {x : Activation} {rest : List Activation}, x ≠ .taskAwait t a → Activation.taskAwait t a ∈ x :: rest →
      Activation.taskAwait t a ∈ rest := fun hx h1 => (List.mem_cons.mp h1).resolve_left (Ne.symm hx)
  have hstart : ∀ {n : Tasks} {t₁ : TaskRef}, Started n t₁ m' → Activation.taskAwait t a ∈ n.calls ∧
      ∀ e, m'.task t₁ = some e → e.startedCoro = true := by
    intro m₁ t₁ h1
    cases h1 with
    | already he hst =>
      refine ⟨hm, fun e h1 => ?_⟩
      rw [← Option.some.inj (he.symm.trans h1)]
      exact hst
    | now =>
      refine ⟨hrun (by simp) (hrun (by simp) hm), fun e h1 => ?_⟩
      simp only [Tasks.enter, Tasks.setPlace, Tasks.setTask, Function.update_self, Option.some.injEq] at h1
      rw [← h1]
  have hend : ∀ {n : Tasks} {x : CoroId} {out : Option ℕ}, Ended m x out n → Activation.taskAwait t a ∈ n.calls →
      Activation.taskAwait t a ∈ m.calls := by
    intro m₁ x out h1 h2
    cases h1 with
    | mk hc => exact hpop hc (hrun (by simp) h2)
  cases hs with
  | idle | call | beginDone | destroy => exact .inl hm
  | suspend hc | event hc | startReturn hc | finalReturn hc | registered hc | overwritten hc | beginArm hc
  | tailArm hc =>
    exact .inl (hpop hc hm)
  | wake | wakeKill => exact .inl (hrun (by simp) hm)
  | start h1 => exact .inl (hstart h1).1
  | register h1 =>
    have h2 := (hstart h1).1
    exact .inl (hrun (by simp) h2)
  | rethrowRegister hc => exact .inl (hpop hc (List.mem_cons_of_mem _ hm))
  | rethrowAwait hc => exact .inl (hpop hc (List.mem_cons_of_mem _ (hrun (by simp) hm)))
  | @beginStart x y t₁ e rest m₁ hc hr ht hst hh h1 =>
    obtain ⟨h2, h3⟩ := hstart h1
    rcases List.mem_cons.mp h2 with h4 | h4
    · obtain ⟨rfl, rfl⟩ : t = t₁ ∧ a = x := by simpa using h4
      exact .inr ⟨⟨e, y, ht, hh⟩, rfl, h3⟩
    · exact .inl (hpop hc h4)
  | tailDone hc => exact .inl (hpop hc (hrun (by simp) hm))
  | finish _ _ h1 => exact .inl (hend h1 hm)
  | finishResume _ _ _ h1 => exact .inl (hend h1 (hrun (by simp) hm))

/-- A `co_await` that begins and waits has started the task, which was not started. -/
theorem TaskStep.begin_started {a x : CoroId} {t : TaskRef} (hs : TaskStep m (.begin a t) m')
    (hp : m'.place a = .atTask t x false) : m.place x = .initial ∧ m'.awaiter = m.awaiter ∧
      ∃ rest, m.calls = .run a :: rest ∧ m'.calls = .run x :: .taskStart t x :: .taskAwait t a :: rest := by
  cases hs with
  | idle hl | finish hl | finishResume hl => simp at hl
  | beginDone _ hr =>
    rw [hr] at hp
    cases hp
  | beginArm => simp [Tasks.arm, Tasks.setPlace, Place.arm] at hp
  | @beginStart _ y _ e rest _ hc hr ht hst hh h1 =>
    have h2 := h1.place_eq (a := a) (by simp [Tasks.setPlace])
    rw [hp] at h2
    obtain rfl : x = y := by simpa [Tasks.setPlace] using h2
    cases h1 with
    | already h3 h4 =>
      obtain rfl := Option.some.inj (ht.symm.trans h3)
      rw [hst] at h4
      cases h4
    | @now e' y h3 h4 h5 h6 =>
      obtain rfl := Option.some.inj (ht.symm.trans h3)
      obtain rfl := Option.some.inj (hh.symm.trans h5)
      refine ⟨?_, rfl, rest, hc, rfl⟩
      by_cases hx : x = a
      · simp [Tasks.setPlace, hx] at h6
      · simpa [Tasks.setPlace, hx] using h6

namespace Tasks

/-- Whoever is awaited was started. -/
structure Begun (m : Tasks) : Prop where
  started : ∀ t e h, m.task t = some e → e.handle = some h → e.startedCoro = true → m.place h ≠ .initial
  calls : ∀ t a, Activation.taskAwait t a ∈ m.calls → (∀ v, t = .var v → v < m.nextVar) ∧
    ∀ e h, m.task t = some e → e.handle = some h → e.startedCoro = true
  awaiter : ∀ h, m.place h = .initial → m.awaiter h = none

/-- The names of the machine are fresh. -/
structure Bounded (m : Tasks) : Prop where
  var : ∀ v e, m.task (.var v) = some e → v < m.nextVar
  handle : ∀ t e h, m.task t = some e → e.handle = some h → h < m.next

theorem Begun.step (hb : m.Begun) (hf : m.Bounded) (hs : TaskStep m l m') : m'.Begun := by
  refine ⟨fun t e h he hh hst hp => ?_, fun t a hm => ⟨fun v hv => ?_, fun e h he hh => ?_⟩, fun h hp => ?_⟩
  · rcases hs.task_started he hh with ⟨e0, he0, hh0, h1⟩ | ⟨-, -, -, h1⟩
    · rcases h1 with h1 | ⟨-, h1⟩
      · rcases hs.initial hp with h2 | ⟨rfl, -⟩
        · exact hb.started t e0 h he0 hh0 (h1 ▸ hst) h2
        · exact lt_irrefl _ (hf.handle t e0 _ he0 hh0)
      · exact h1 hp
    · rw [h1] at hst
      cases hst
  · refine lt_of_lt_of_le ?_ hs.nextVar_le
    rcases hs.taskAwait_new hm with h1 | ⟨⟨e, h, he, -⟩, -⟩
    · exact (hb.calls t a h1).1 v hv
    · exact hf.var v e (hv ▸ he)
  · rcases hs.taskAwait_new hm with h1 | ⟨-, -, h1⟩
    · rcases hs.task_started he hh with ⟨e0, he0, hh0, h2⟩ | ⟨-, rfl, -⟩
      · rcases h2 with h2 | ⟨h2, -⟩
        · rw [h2]
          exact (hb.calls t a h1).2 e0 h he0 hh0
        · exact h2
      · exact absurd ((hb.calls _ a h1).1 m.nextVar rfl) (lt_irrefl _)
    · exact h1 e he
  · rcases hs.awaiter_eq h with h1 | ⟨-, h1⟩ | ⟨a, t, e, ht, hh, -, h1⟩
    · rcases hs.initial hp with h2 | ⟨rfl, user, rfl⟩
      · exact h1.trans (hb.awaiter h h2)
      · cases hs with
        | idle hl => simp at hl
        | call => simp [Tasks.call]
        | finish hl | finishResume hl => simp at hl
    · exact h1
    · exfalso
      have hst : e.startedCoro = true := by
        rcases h1 with ⟨-, h1⟩ | ⟨-, h1, -⟩
        · exact h1
        · exact (hb.calls t a h1).2 e h ht hh
      rcases hs.initial hp with h2 | ⟨rfl, -⟩
      · exact hb.started t e h ht hh hst h2
      · exact lt_irrefl _ (hf.handle t e _ ht hh)

end Tasks

theorem Reachable.begun {s : State} (h : Reachable s) : s.tasks.Begun := by
  refine Reach.inv_of (I := fun s => s.tasks.Begun) (J := Reachable) (fun s hs => hs) (fun s hi => ?_)
    (fun s c s' hr hb _ hs => ?_) h
  · refine ⟨fun t e x he hh hst => ?_, fun t a hm => ?_, fun x hp => ?_⟩
    · have he' : s.task t = some e := he
      rw [hi.task] at he'
      split at he' <;> cases he'
      cases hst
    · have h1 : s.tasks.calls = [] := by simp [State.tasks, hi.stack, Activation.isCall]
      simp [h1] at hm
    · cases hi <;> by_cases hx : x = 0 <;> simp [State.tasks, State.init, initFailed, blank, hx]
  · refine hb.step ⟨fun v e he => ?_, fun t e x he hh => ?_⟩ (step_tasks hr.sound hr.killing hs)
    · by_contra hge
      have h1 := hr.sound.linked.varFresh v (not_lt.mp hge)
      have h2 : s.vars v = some e := he
      rw [h1] at h2
      cases h2
    · exact hr.sound.linked.bound (.task t) e x he hh

end EvManager
