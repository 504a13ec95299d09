import EvManager.TaskHistory

/-!
# Awaiting one coroutine

A promise has one slot for an awaiter, and `final_suspend` looks at it once.  `AwaitOk c` is the condition under which
this is enough for `c`: no handle is stored over another one, or after the body is over.  `Awaited` is what the task
machine then keeps, and **`TaskStep.counts`** counts the `co_await`s of a coroutine on `c`: what has begun has been
answered or waits.
-/

namespace EvManager

variable {m m' : Tasks} {l : TaskLabel} {c : CoroId}

/-- The task that the coroutine is in a `co_await` of, and the coroutine of that task. -/
def Place.awaited : Place → Option (TaskRef × CoroId)
  | .atTask t h _ => some (t, h)
  | _ => none

theorem Place.awaited_eq {p : Place} {t : TaskRef} {h : CoroId} :
    p.awaited = some (t, h) ↔ ∃ b, p = .atTask t h b := by
  cases p <;> simp [Place.awaited]

namespace Tasks

/-- The one slot for an awaiter of `c` is empty, and `c` is yet to look at it. -/
def SlotFree (c : CoroId) (m : Tasks) : Prop := m.awaiter c = none ∧ (m.place c).unfinished = true

/-- The step stores no handle of an awaiter of `c` over another one or once the body of `c` is over. -/
def SlotOk (c : CoroId) (m : Tasks) : TaskLabel → Prop
  | .begin _ t => ∀ e ∈ m.task t, e.handle = some c → e.startedCoro = true → m.done c = false → m.SlotFree c
  | .tail _ t => ∀ e ∈ m.task t, e.handle = some c → m.done c = false → m.SlotFree c
  | _ => True

instance (c : CoroId) (m : Tasks) (l : TaskLabel) : Decidable (m.SlotOk c l) := by
  cases l <;> unfold SlotOk <;> (try unfold SlotFree) <;> infer_instance

/-- The step does not take an awaiter of `c` its answer: it stores no handle of an awaiter of `c` over another one
or once the body of `c` is over, and `register_coro` neither moves a task through which `c` is awaited nor destroys a
coroutine that awaits `c`. -/
def AwaitOk (c : CoroId) (m : Tasks) : TaskLabel → Prop
  | .begin _ t => ∀ e ∈ m.task t, e.handle = some c → e.startedCoro = true → m.done c = false → m.SlotFree c
  | .tail _ t => ∀ e ∈ m.task t, e.handle = some c → m.done c = false → m.SlotFree c
  | .registered v x => ∀ a < m.next, ∀ p ∈ (m.place a).awaited, p.2 = c → p.1 ≠ .var v ∧ x ≠ some a
  | _ => True

instance (c : CoroId) (m : Tasks) (l : TaskLabel) : Decidable (m.AwaitOk c l) := by
  cases l <;> unfold AwaitOk <;> (try unfold SlotFree) <;> infer_instance

theorem AwaitOk.slotOk (hok : m.AwaitOk c l) : m.SlotOk c l := by
  cases l <;> first | exact hok | exact trivial

/-- Whoever is stored in the slot of `c` waits for a body that has not ended. -/
def Armed (c : CoroId) (m : Tasks) : Prop :=
  ∀ a t, m.place a = .atTask t c true → m.awaiter c = some a ∧ c < m.next ∧ ∀ out, Event.returned c out ∉ m.log

/-- Every answer to a `co_await` of `c` is the code that `c` has returned before. -/
def Answered (c : CoroId) (log : List Event) : Prop :=
  ∀ l₁ l₂ a t x, log = l₁ ++ .taskReturned a t c x :: l₂ → Event.returned c (some x) ∈ l₂

theorem answered_cons {e : Event} {log : List Event} (h : Answered c log)
    (he : ∀ a t x, e = .taskReturned a t c x → Event.returned c (some x) ∈ log) : Answered c (e :: log) := by
  intro l₁ l₂ a t x heq
  cases l₁ with
  | nil =>
    obtain ⟨h1, h2⟩ := List.cons.inj heq
    exact h2 ▸ he a t x h1
  | cons e' l₁ => exact h l₁ l₂ a t x (List.cons.inj heq).2

/-- The coroutines in a `co_await` of `c` are on their way to an answer. -/
structure Awaited (c : CoroId) (m : Tasks) : Prop where
  armed : ∀ a t, m.place a = .atTask t c true →
    m.awaiter c = some a ∧ c < m.next ∧ ∀ out, Event.returned c out ∉ m.log
  holds : ∀ a t b, m.place a = .atTask t c b → ∀ e, m.task t = some e → e.handle = some c
  value : Answered c m.log

end Tasks

open Tasks

/-- The log tells of the end of a body only when it ends, and then whoever is stored in its slot goes on. -/
theorem TaskStep.returned (hs : TaskStep m l m') {out : Option ℕ} (hm : Event.returned c out ∈ m'.log) :
    Event.returned c out ∈ m.log ∨
      m.awaiter c = none ∨ ∃ a, m.awaiter c = some a ∧ m'.place a = .running := by
  by_cases h0 : Event.returned c out ∈ m.log
  · exact .inl h0
  · rcases (hs.ended hm h0).2.2 with ⟨ha, -⟩ | ⟨a, t, code, ha, -, hrun, -⟩
    · exact .inr (.inl ha)
    · exact .inr (.inr ⟨a, ha, hrun⟩)

theorem TaskStep.next_le (hs : TaskStep m l m') : m.next ≤ m'.next := by
  have hstart : ∀ {m₁ : Tasks} {t : TaskRef}, Started m₁ t m' → m'.next = m₁.next := by
    intro m₁ t h1
    cases h1 <;> rfl
  cases hs with
  | call => exact Nat.le_succ _
  | start h1 | register h1 | beginStart _ _ _ _ _ h1 => exact (hstart h1).ge
  | finish _ _ h1 | finishResume _ _ _ h1 =>
    cases h1
    exact le_rfl
  | _ => exact le_rfl

/-- The slot of `c` changes only when it is free. -/
theorem TaskStep.awaiter (hs : TaskStep m l m') (hok : m.SlotOk c l) (hlt : c < m.next) :
    m'.awaiter c = m.awaiter c ∨ m.SlotFree c := by
  have hstart : ∀ {m₁ : Tasks} {t : TaskRef}, Started m₁ t m' → m'.awaiter = m₁.awaiter := by
    intro m₁ t h1
    cases h1 <;> rfl
  cases hs with
  | call =>
    have hne : c ≠ m.next := hlt.ne
    exact .inl (by simp [Tasks.call, hne])
  | start h1 => exact .inl (congrFun (hstart h1) c)
  | register h1 => exact .inl (congrFun (hstart h1) c)
  | beginStart _ _ _ _ _ h1 => exact .inl (congrFun (hstart h1) c)
  | @beginArm a h t e _ _ _ ht hst hh hd =>
    by_cases hc : c = h
    · subst hc
      exact .inr (hok e ht hh hst hd)
    · exact .inl (by simp [Tasks.arm, Tasks.setPlace, hc])
  | @tailArm a h t e _ _ _ ht hh hd =>
    by_cases hc : c = h
    · subst hc
      exact .inr (hok e ht hh hd)
    · exact .inl (by simp [Tasks.arm, hc])
  | finish _ _ h1 | finishResume _ _ _ h1 =>
    cases h1
    exact .inl rfl
  | _ => exact .inl rfl

theorem TaskStep.task (hs : TaskStep m l m') {t : TaskRef} {e' : EvTask} (he : m'.task t = some e') :
    (∃ e, m.task t = some e ∧ e.handle = e'.handle) ∨
      ((∃ user, l = .call user) ∧ ∀ a h b, m.place a ≠ .atTask t h b) ∨ ∃ v x, l = .registered v x ∧ t = .var v := by
  have hstart : ∀ {m₁ : Tasks} {t' : TaskRef}, Started m₁ t' m' → ∃ e, m₁.task t = some e ∧ e.handle = e'.handle := by
    intro m₁ t' h1
    cases h1 with
    | already => exact ⟨e', he, rfl⟩
    | @now e h he1 hst hh hp =>
      by_cases htt : t = t'
      · subst htt
        simp only [Tasks.enter, Tasks.setPlace, Tasks.setTask, Function.update_self, Option.some.injEq] at he
        exact ⟨e, he1, by rw [← he]⟩
      · exact ⟨e', by simpa [Tasks.enter, Tasks.setPlace, Tasks.setTask, htt] using he, rfl⟩
  cases hs with
  | call hp hv =>
    by_cases htt : t = .var m.nextVar
    · exact .inr (.inl ⟨⟨_, rfl⟩, fun a h b => htt ▸ hv a h b⟩)
    · exact .inl ⟨e', by simpa [Tasks.call, htt] using he, rfl⟩
  | start h1 => exact .inl (hstart h1)
  | register h1 | beginStart _ _ _ _ _ h1 =>
    have h2 := hstart h1
    exact .inl h2
  | finish _ _ h1 | finishResume _ _ _ h1 => exact .inl ⟨e', h1.fewer.2 t e' he, rfl⟩
  | @destroy v =>
    by_cases htt : t = .var v
    · simp [Tasks.setTask, htt] at he
    · exact .inl ⟨e', by simpa [Tasks.setTask, htt] using he, rfl⟩
  | @registered v e rest =>
    by_cases htt : t = .var v
    · exact .inr (.inr ⟨v, none, rfl, htt⟩)
    · exact .inl ⟨e', by simpa [Tasks.setTask, htt] using he, rfl⟩
  | @overwritten v x e task rest _ _ hfew =>
    by_cases htt : t = .var v
    · exact .inr (.inr ⟨v, some x, rfl, htt⟩)
    · have h1 : task t = some e' := by simpa [htt] using he
      exact .inl ⟨e', hfew.2 t e' h1, rfl⟩
  | _ => exact .inl ⟨e', he, rfl⟩

theorem TaskStep.of_begin {a : CoroId} {t : TaskRef} {b : Bool} (hs : TaskStep m (.begin a t) m')
    (hp : m'.place a = .atTask t c b) : ∃ e, m.task t = some e ∧ e.handle = some c ∧
      (b = true → e.startedCoro = true ∧ m.done c = false ∧ m'.awaiter c = some a ∧ m'.log = m.log ∧
        m'.next = m.next) := by
  cases hs with
  | idle hl | finish hl | finishResume hl => simp at hl
  | @beginStart a h t e rest m₁ hc hr ht hst hh h1 =>
    have h2 := h1.place_eq (a := a) (by simp [Tasks.setPlace])
    rw [hp] at h2
    obtain ⟨rfl, rfl⟩ : c = h ∧ b = false := by simpa [Tasks.setPlace] using h2
    exact ⟨e, ht, hh, fun hb => by cases hb⟩
  | beginDone hc hr =>
    rw [hr] at hp
    cases hp
  | @beginArm a h t e rest hc hr ht hst hh hd =>
    obtain ⟨rfl, rfl⟩ : h = c ∧ b = true := by simpa [Tasks.arm, Tasks.setPlace, Place.arm] using hp
    exact ⟨e, ht, hh, fun _ => ⟨hst, hd, by simp [Tasks.arm], rfl, rfl⟩⟩

theorem TaskStep.of_tail {a : CoroId} {t : TaskRef} (hs : TaskStep m (.tail a t) m')
    (hp : m'.place a = .atTask t c true) : ∃ e, m.task t = some e ∧ e.handle = some c ∧
      m.done c = false ∧ m'.awaiter c = some a ∧ m'.log = m.log ∧ m'.next = m.next := by
  cases hs with
  | idle hl | finish hl | finishResume hl => simp at hl
  | tailDone => simp [Tasks.returns, Tasks.enter, Tasks.setPlace] at hp
  | @tailArm a h t e rest hc hpl ht hh hd =>
    rcases hpl with hpl | hpl
    · obtain rfl : h = c := by simpa [Tasks.arm, hpl, Place.arm] using hp
      exact ⟨e, ht, hh, hd, by simp [Tasks.arm], rfl, rfl⟩
    · simp [Tasks.arm, hpl, Place.arm] at hp

/-- Who is stored in the slot of `c` stays there until `c` looks at it. -/
theorem Tasks.Armed.step (hw : m.Armed c) (hh : m.History) (hf : ∀ h, m.next ≤ h → m.place h = .gone)
    (hok : m.SlotOk c l) (hs : TaskStep m l m') : m'.Armed c := by
  intro a t hp
  have hfree : m.SlotFree c → c < m.next ∧ ∀ out, Event.returned c out ∉ m.log := by
    intro hsl
    refine ⟨?_, fun out => hh.unfinished c out hsl.2⟩
    by_contra hge
    have hu := hsl.2
    rw [hf c (not_lt.mp hge)] at hu
    cases hu
  rcases hs.atTask hp with h1 | ⟨-, h1, rfl⟩ | ⟨hr, rfl⟩
  · obtain ⟨ha, hlt, hno⟩ := hw a t h1
    refine ⟨?_, hlt.trans_le hs.next_le, fun out hm => ?_⟩
    · rcases hs.awaiter hok hlt with h2 | h2
      · exact h2.trans ha
      · rw [h2.1] at ha
        cases ha
    · rcases hs.returned hm with h2 | h2 | ⟨a', h2, hrun⟩
      · exact hno out h2
      · rw [ha] at h2
        cases h2
      · obtain rfl : a = a' := Option.some.inj (ha.symm.trans h2)
        rw [hp] at hrun
        cases hrun
  · obtain ⟨e, ht, he, hd, ha, hlog, hn⟩ := hs.of_tail hp
    rw [hlog, hn]
    exact ⟨ha, hfree (hok e ht he hd)⟩
  · obtain ⟨e, ht, he, h2⟩ := hs.of_begin hp
    obtain ⟨hst, hd, ha, hlog, hn⟩ := h2 rfl
    rw [hlog, hn]
    exact ⟨ha, hfree (hok e ht he hst hd)⟩

namespace Tasks.Awaited

/-- A body that is done and has not thrown has returned its code. -/
theorem code_of_done (hh : m.History) {t : TaskRef} {e : EvTask} (ht : m.task t = some e) (he : e.handle = some c)
    (hd : m.done c = true) (hno : Event.returned c none ∉ m.log) : Event.returned c (some (m.code c)) ∈ m.log := by
  obtain ⟨out, hm⟩ := hh.ended c (.inr hd)
  cases out with
  | none => exact absurd hm hno
  | some x => rwa [hh.code c x hm ⟨t, e, ht, he⟩]

/-- A task through which `c` is awaited holds `c` as long as it is there. -/
theorem holds_step (hw : m.Awaited c) (hf : ∀ h, m.next ≤ h → m.place h = .gone) (hok : m.AwaitOk c l)
    (hs : TaskStep m l m') {a : CoroId} {t : TaskRef} {b : Bool}
    (hp : m'.place a = .atTask t c b) {e : EvTask} (he : m'.task t = some e) : e.handle = some c := by
  have hold : ∀ b', m.place a = .atTask t c b' → e.handle = some c := by
    intro b' hp0
    rcases hs.task he with ⟨e0, he0, heq⟩ | ⟨-, hn⟩ | ⟨v, x, rfl, rfl⟩
    · rw [← heq]
      exact hw.holds a t b' hp0 e0 he0
    · exact absurd hp0 (hn a c b')
    · have hlt : a < m.next := by
        by_contra hge
        rw [hf a (not_lt.mp hge)] at hp0
        cases hp0
      exact absurd rfl (hok a hlt (.var v, c) (Place.awaited_eq.mpr ⟨b', hp0⟩) rfl).1
  rcases hs.atTask hp with h1 | ⟨-, h1, -⟩ | ⟨hr, rfl⟩
  · exact hold b h1
  · exact hold false h1
  · obtain ⟨e1, he1, hh1, -⟩ := hs.of_begin hp
    rcases hs.task he with ⟨e0, he0, heq⟩ | ⟨⟨u, hl⟩, -⟩ | ⟨v, x, hl, -⟩
    · obtain rfl : e1 = e0 := Option.some.inj (he1.symm.trans he0)
      exact heq.symm.trans hh1
    · cases hl
    · cases hl

theorem value_step (hh : m.History) (hw : m.Awaited c) (hs : TaskStep m l m')
    (hno : Event.returned c none ∉ m'.log) : Answered c m'.log := by
  have hother : ∀ {a h : CoroId} {t : TaskRef} {x : ℕ}, h ≠ c → ∀ b u y,
      Event.taskReturned a t h x = .taskReturned b u c y → Event.returned c (some y) ∈ m.log := by
    intro a h t x hhc b u y heq
    exact absurd (by simpa using heq) fun h2 : a = b ∧ t = u ∧ h = c ∧ x = y => hhc h2.2.2.1
  have hdone : ∀ {a h : CoroId} {t : TaskRef} {e : EvTask}, m.task t = some e → e.handle = some h → m.done h = true →
      Event.returned c none ∉ m.log → Answered c (.taskReturned a t h (m.code h) :: m.log) := by
    intro a h t e ht he hd hn
    refine answered_cons hw.value fun b u y heq => ?_
    obtain ⟨-, -, rfl, rfl⟩ : a = b ∧ t = u ∧ h = c ∧ m.code h = y := by simpa using heq
    exact code_of_done hh ht he hd hn
  have hstart : ∀ {m₁ : Tasks} {t : TaskRef}, Started m₁ t m' → m₁.log = m.log → Answered c m'.log := by
    intro m₁ t h1 hlog
    have h2 := hw.value
    rw [← hlog] at h2
    cases h1 <;> exact h2
  cases hs with
  | start h1 | register h1 => exact hstart h1 rfl
  | beginStart _ _ _ _ _ h1 => exact hstart h1 rfl
  | beginDone hc hr ht hst hh' hd => exact hdone ht hh' hd fun hm => hno (List.mem_cons_of_mem _ hm)
  | tailDone hc hp ht hh' hd => exact hdone ht hh' hd fun hm => hno (List.mem_cons_of_mem _ hm)
  | finish _ _ h1 =>
    cases h1
    exact answered_cons hw.value (by simp)
  | @finishResume _ h a out t e x m₁ _ ha hp h1 ht hx =>
    have h2 : Answered c m₁.log := by
      cases h1
      exact answered_cons hw.value (by simp)
    refine answered_cons h2 fun b u y heq => ?_
    obtain ⟨-, -, rfl, rfl⟩ : a = b ∧ t = u ∧ h = c ∧ x = y := by simpa using heq
    have hh1 : e.handle = some h := hw.holds a t true hp e (h1.fewer.2 t e ht)
    have hno1 : Event.returned h none ∉ m₁.log := fun hm => hno (List.mem_cons_of_mem _ hm)
    rw [hx hh1]
    have h3 := hh.step_ended h1
    obtain ⟨o, hm⟩ := h3.ended h (.inl (by simp [h1.place]))
    cases o with
    | none => exact absurd hm hno1
    | some z => rwa [h3.code h z hm ⟨t, e, ht, hh1⟩]
  | _ => exact hw.value

theorem step (hh : m.History) (hf : ∀ h, m.next ≤ h → m.place h = .gone) (hw : m.Awaited c) (hok : m.AwaitOk c l)
    (hs : TaskStep m l m') (hno : Event.returned c none ∉ m'.log) : m'.Awaited c where
  armed := Armed.step hw.armed hh hf hok.slotOk hs
  holds _ _ _ hp _ he := hw.holds_step hf hok hs hp he
  value := hw.value_step hh hs hno

end Tasks.Awaited

/-! ### Counting answers -/

/-- The event is the answer to a `co_await` of `a` on `c`. -/
def Event.answers (a c : CoroId) : Event → Bool
  | .taskReturned x _ h _ => x = a ∧ h = c
  | _ => false

/-- The coroutine is in a `co_await` of `c`. -/
def Place.awaits (c : CoroId) : Place → Bool
  | .atTask _ h _ => h = c
  | _ => false

theorem Place.awaits_eq {p : Place} : p.awaits c = true ↔ ∃ t b, p = .atTask t c b := by
  cases p <;> simp [Place.awaits]

@[simp] theorem Place.awaits_arm (p : Place) : p.arm.awaits c = p.awaits c := by cases p <;> rfl

namespace Tasks

/-- How many `co_await`s of `a` on `c` have returned, and whether one has not. -/
def answers (a c : CoroId) (m : Tasks) : ℕ := m.log.countP (Event.answers a c)

def waits (a c : CoroId) (m : Tasks) : ℕ := if (m.place a).awaits c then 1 else 0

/-- A `co_await` of `a` on `c` begins. -/
def Begins (a c : CoroId) (m : Tasks) (l : TaskLabel) : Prop :=
  ∃ t e, l = .begin a t ∧ m.task t = some e ∧ e.handle = some c

theorem waits_of_place {a x : CoroId} {p : Place} (hp : p.awaits c = (m.place x).awaits c) :
    (m.setPlace x p).waits a c = m.waits a c := by
  by_cases hax : a = x
  · subst hax
    simp [waits, Tasks.setPlace, hp]
  · simp [waits, Tasks.setPlace, hax]

theorem waits_arm {a x h : CoroId} : (m.arm h x).waits a c = m.waits a c := by
  by_cases hax : a = x
  · subst hax
    simp [waits, Tasks.arm]
  · simp [waits, Tasks.arm, hax]

theorem waits_started {a : CoroId} {t : TaskRef} (hs : Started m t m') : m'.waits a c = m.waits a c := by
  cases hs with
  | already => rfl
  | @now e h he hst hh hp =>
    have h1 : ((m.setTask t (some { e with startedCoro := true })).setPlace h .running).waits a c = m.waits a c :=
      waits_of_place (m := m.setTask t _) (by simp [Tasks.setTask, hp, Place.awaits])
    exact h1

theorem answers_started {a : CoroId} {t : TaskRef} (hs : Started m t m') : m'.answers a c = m.answers a c := by
  cases hs <;> rfl

/-- An answer to the only `co_await` that `x` is in. -/
theorem answered_returns {a x h : CoroId} {t : TaskRef} {y : ℕ} (hx : ∃ b, m.place x = .atTask t h b) :
    (m.returns x t h y).answers a c + (m.returns x t h y).waits a c = m.answers a c + m.waits a c := by
  obtain ⟨b, hx⟩ := hx
  by_cases hax : x = a
  · subst hax
    by_cases hhc : h = c
    · simp [answers, waits, Tasks.returns, Tasks.enter, Tasks.setPlace, Event.answers, hhc, hx, Place.awaits]
    · simp [answers, waits, Tasks.returns, Tasks.enter, Tasks.setPlace, Event.answers, hhc, hx, Place.awaits]
  · simp [answers, waits, Tasks.returns, Tasks.enter, Tasks.setPlace, Event.answers, hax, Ne.symm hax]

/-- A `co_await` is counted where it begins, waits and is answered. -/
def Counts (a c : CoroId) (m m' : Tasks) (l : TaskLabel) : Prop :=
  m.Begins a c l ∧ m'.answers a c + m'.waits a c = m.answers a c + m.waits a c + 1 ∨
    ¬ m.Begins a c l ∧ m'.answers a c + m'.waits a c = m.answers a c + m.waits a c

theorem Counts.of_eq {a : CoroId} (hl : ∀ t, l ≠ .begin a t) (hans : m'.answers a c = m.answers a c)
    (hw : m'.waits a c = m.waits a c) : Counts a c m m' l :=
  .inr ⟨fun ⟨t, _, hlt, _⟩ => hl t hlt, by rw [hans, hw]⟩

theorem awaits_of_suspended {p : Place} (ht : p.isTask = false) : p.awaits c = false := by
  cases p <;> simp_all [Place.isTask, Place.awaits]

theorem counts_begin {a x h : CoroId} {t : TaskRef} {e : EvTask} (hr : m.place x = .running) (ht : m.task t = some e)
    (hh : e.handle = some h) (hans : m'.answers a c = m.answers a c)
    (hw : m'.waits a c = (m.setPlace x (.atTask t h false)).waits a c) : Counts a c m m' (.begin x t) := by
  by_cases hax : a = x
  · subst hax
    by_cases hhc : h = c
    · subst hhc
      refine .inl ⟨⟨t, e, rfl, ht, hh⟩, ?_⟩
      rw [hans, hw]
      simp [waits, Tasks.setPlace, hr, Place.awaits]
    · refine .inr ⟨fun hb => hhc ?_, ?_⟩
      · obtain ⟨t', e', hl, ht', he'⟩ := hb
        cases hl
        obtain rfl : e = e' := Option.some.inj (ht.symm.trans ht')
        exact Option.some.inj (hh.symm.trans he')
      · rw [hans, hw]
        simp [waits, Tasks.setPlace, hr, Place.awaits, hhc]
  · refine .of_eq (fun t' hl => hax ?_) hans ?_
    · cases hl
      rfl
    · rw [hw]
      simp [waits, Tasks.setPlace, hax]

theorem counts_over {a h : CoroId} {out : Option ℕ} (he : Ended m h out m') :
    m'.answers a c = m.answers a c ∧ m'.waits a c = m.waits a c := by
  cases he with
  | @mk rest code task hc hp hlt hcode hval hfew =>
    refine ⟨by simp [answers, Event.answers], ?_⟩
    have h1 : (m.setPlace h .final).waits a c = m.waits a c := waits_of_place (by simp [hp, Place.awaits])
    exact h1

end Tasks

open Tasks in
/-- **Every `co_await` on `c` is counted once**: what has begun has been answered or waits. -/
theorem TaskStep.counts (hh : m.History) (hsp : m.Suspends) (hf : ∀ h, m.next ≤ h → m.place h = .gone)
    (hok : m.AwaitOk c l) (hs : TaskStep m l m') (hno : Event.returned c none ∉ m.log) (a : CoroId) :
    Counts a c m m' l := by
  have hrun : ∀ {x : CoroId}, m.place x = .running → (m.place x).awaits c = false := by
    intro x hx
    simp [hx, Place.awaits]
  have henter : ∀ {m₁ : Tasks} {x : CoroId}, (m₁.place x).awaits c = false → m₁.place = m.place →
      (m₁.enter x).waits a c = m.waits a c := by
    intro m₁ x hx hp
    have h1 : (m₁.setPlace x .running).waits a c = m₁.waits a c := waits_of_place hx.symm
    have h2 : m₁.waits a c = m.waits a c := by simp [waits, hp]
    exact h1.trans h2
  cases hs with
  | idle hl =>
    refine .of_eq (fun t ht => ?_) rfl rfl
    subst ht
    simp at hl
  | suspend hc hp hu hsus hnt hni =>
    refine .of_eq (by simp) rfl (waits_of_place ?_)
    rw [hrun hp, awaits_of_suspended hnt]
  | event hc hp => exact .of_eq (by simp) rfl (waits_of_place (hrun hp).symm)
  | wake hp =>
    refine .of_eq (by simp) rfl (henter ?_ rfl)
    rcases hp with ⟨r, hp⟩ | hp <;> simp [hp, Place.awaits]
  | wakeKill hp => exact .of_eq (by simp) rfl (henter (by simp [hp, Place.awaits]) rfl)
  | call hp _ =>
    refine .of_eq (by simp) rfl ?_
    have h1 : (m.setPlace m.next .initial).waits a c = m.waits a c := waits_of_place (by simp [hp, Place.awaits])
    exact h1
  | start h1 => exact .of_eq (by simp) (answers_started h1) (waits_started h1)
  | @register v m₁ h1 =>
    have hans := answers_started (a := a) (c := c) h1
    have hw := waits_started (a := a) (c := c) h1
    exact .of_eq (by simp) hans hw
  | startReturn | rethrowRegister | destroy | registered => exact .of_eq (by simp) rfl rfl
  | @rethrowAwait t t' h x rest hc hth hsus =>
    refine .of_eq (by simp) rfl (henter ?_ rfl)
    have hin : [.taskStart t h, .taskAwait t' x] <:+: m.calls := by
      rw [hc]
      exact (List.prefix_append _ rest).isInfix
    rcases hsp.above t t' h x hin with h1 | h1
    · -- an exception of `c` itself is what does not happen here
      have hne : h ≠ c := fun heq => hno (heq ▸ hh.thrown h hth)
      simpa [h1, Place.awaits] using hne
    · simp [h1, Place.awaits]
  | @beginStart x h t e rest m₁ hc hr ht hst hh' h1 =>
    have hans := answers_started (a := a) (c := c) h1
    have hw := waits_started (a := a) (c := c) h1
    exact counts_begin hr ht hh' hans hw
  | @beginDone x h t e rest hc hr ht hst hh' hd =>
    by_cases hx : x = a ∧ h = c
    · obtain ⟨rfl, rfl⟩ := hx
      refine .inl ⟨⟨t, e, rfl, ht, hh'⟩, ?_⟩
      have h1 : Event.answers x h (.taskReturned x t h (m.code h)) = true := by simp [Event.answers]
      simp only [answers, List.countP_cons, h1, waits, if_true]
      omega
    · refine .inr ⟨fun ⟨t', e', hl, ht', he'⟩ => hx ?_, ?_⟩
      · cases hl
        obtain rfl : e = e' := Option.some.inj (ht.symm.trans ht')
        exact ⟨rfl, Option.some.inj (hh'.symm.trans he')⟩
      · have h1 : Event.answers a c (.taskReturned x t h (m.code h)) = false := by simpa [Event.answers] using hx
        simp only [answers, List.countP_cons, h1, waits]
        simp
  | @beginArm x h t e rest hc hr ht hst hh' hd =>
    refine counts_begin hr ht hh' rfl ?_
    exact waits_arm (m := { m.setPlace x (.atTask t h false) with calls := rest })
  | tailDone hc hp =>
    refine .inr ⟨by simp [Begins], ?_⟩
    exact answered_returns (m := { m with calls := _ }) ⟨false, hp⟩
  | tailArm => exact .of_eq (by simp) rfl (waits_arm (m := { m with calls := _ }))
  | finish hl _ h1 =>
    obtain ⟨hans, hw⟩ := counts_over (a := a) (c := c) h1
    refine .of_eq (fun t ht => ?_) hans hw
    subst ht
    simp at hl
  | @finishResume _ h x out t e y m₁ hl _ hp h1 =>
    obtain ⟨hans, hw⟩ := counts_over (a := a) (c := c) h1
    have hne : x ≠ h := by
      cases h1 with
      | mk _ hrun => exact fun hxh => by simp [← hxh, hp] at hrun
    refine .inr ⟨fun ⟨t', e', hl', _⟩ => ?_, ?_⟩
    · subst hl'
      simp at hl
    · rw [← hans, ← hw]
      exact answered_returns ⟨true, by simp [h1.place, hne, hp]⟩
  | @finalReturn h done rest hc hp =>
    refine .of_eq (by simp) rfl ?_
    have h1 : (m.setPlace h .gone).waits a c = m.waits a c := waits_of_place (by simp [hp, Place.awaits])
    exact h1
  | @overwritten v x e task rest hc hsus hfew he =>
    refine .of_eq (by simp) rfl ?_
    have hx : (m.place x).awaits c = false := by
      by_contra hx
      obtain ⟨t, b, hp⟩ := Place.awaits_eq.mp (by simpa using hx)
      have hlt : x < m.next := by
        by_contra hge
        rw [hf x (not_lt.mp hge)] at hp
        cases hp
      exact (hok x hlt (t, c) (Place.awaited_eq.mpr ⟨b, hp⟩) rfl).2 rfl
    have h1 : (m.setPlace x .gone).waits a c = m.waits a c := waits_of_place hx.symm
    exact h1

end EvManager
