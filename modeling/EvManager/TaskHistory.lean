import EvManager.TaskMachine

/-!
# What the task machine keeps

`History`: the log of the machine is right about the bodies that have ended.  `Suspends`: a coroutine whose
`await_suspend` has not returned is waiting for the coroutine that it starts.
-/

namespace EvManager

/-- What the log says of the ends of bodies is so. -/
structure Tasks.History (m : Tasks) : Prop where
  fresh : ∀ h out, Event.returned h out ∈ m.log → h < m.next
  unfinished : ∀ h out, (m.place h).unfinished = true → Event.returned h out ∉ m.log
  ended : ∀ h, m.place h = .final ∨ m.done h = true → ∃ out, Event.returned h out ∈ m.log
  thrown : ∀ h, m.thrown h = true → Event.returned h none ∈ m.log
  code : ∀ h x, Event.returned h (some x) ∈ m.log → m.Held h → m.code h = x

namespace Tasks

namespace History

variable {m m' : Tasks}

theorem calls (hh : m.History) (calls : List Activation) : History { m with calls } := { hh with }

theorem tasks (hh : m.History) {task : TaskRef → Option EvTask}
    (ht : ∀ t e h, task t = some e → e.handle = some h → m.Held h) : History { m with task } := by
  refine { hh with code := fun h x hm hheld => ?_ }
  obtain ⟨t, e, he, hh'⟩ := hheld
  exact hh.code h x hm (ht t e h he hh')

theorem setPlace (hh : m.History) {h : CoroId} {p : Place} (hu : p.unfinished = true → (m.place h).unfinished = true)
    (hf : p ≠ .final) : (m.setPlace h p).History := by
  refine { hh with unfinished := fun x out hx => ?_, ended := fun x hx => hh.ended x ?_ }
  · by_cases hxh : x = h
    · subst hxh
      exact hh.unfinished x out (hu (by simpa [Tasks.setPlace] using hx))
    · exact hh.unfinished x out (by simpa [Tasks.setPlace, hxh] using hx)
  · refine hx.imp_left fun hp => ?_
    by_cases hxh : x = h
    · subst hxh
      simp [Tasks.setPlace, hf] at hp
    · simpa [Tasks.setPlace, hxh] using hp

theorem enter (hh : m.History) {h : CoroId} (hu : (m.place h).unfinished = true) : (m.enter h).History :=
  (hh.setPlace (p := .running) (fun _ => hu) (by simp)).calls _

theorem arm (hh : m.History) {h a : CoroId} (hp : (m.place a).arm ≠ .final)
    (hu : (m.place a).arm.unfinished = true → (m.place a).unfinished = true) : (m.arm h a).History :=
    { hh.setPlace (h := a) (p := (m.place a).arm) hu hp with }

theorem log (hh : m.History) {e : Event} (he : ∀ h out, e ≠ .returned h out) :
    History { m with log := e :: m.log } where
  fresh h out hm := hh.fresh h out ((List.mem_cons.mp hm).resolve_left fun heq => he h out heq.symm)
  unfinished h out hu hm := hh.unfinished h out hu ((List.mem_cons.mp hm).resolve_left fun heq => he h out heq.symm)
  ended h hp := by
    obtain ⟨out, hm⟩ := hh.ended h hp
    exact ⟨out, List.mem_cons_of_mem _ hm⟩
  thrown h ht := List.mem_cons_of_mem _ (hh.thrown h ht)
  code h x hm := hh.code h x ((List.mem_cons.mp hm).resolve_left fun heq => he h (some x) heq.symm)

theorem returns (hh : m.History) {a h : CoroId} {t : TaskRef} {x : ℕ} (hu : (m.place a).unfinished = true) :
    (m.returns a t h x).History := (hh.enter hu).log (by simp)

theorem started (hh : m.History) {t : TaskRef} (hs : Started m t m') : m'.History := by
  cases hs with
  | already => exact hh
  | @now e h he hst hh' hp =>
    refine History.enter (m := { m.setTask t _ with calls := _ }) ?_ (by simp [Tasks.setTask, hp, Place.unfinished])
    refine (hh.tasks fun t' e' h' he' hh'' => ?_).calls _
    by_cases ht : t' = t
    · subst ht
      simp only [Function.update_self, Option.some.injEq] at he'
      subst he'
      exact ⟨t', e, he, hh''⟩
    · exact ⟨t', e', by simpa [ht] using he', hh''⟩

theorem step_ended (hh : m.History) {h : CoroId} {out : Option ℕ} (he : Ended m h out m') : m'.History := by
  cases he with
  | @mk rest code task hc hp hlt hcode hval hfew =>
    have hno : ∀ out, Event.returned h out ∉ m.log := fun out => hh.unfinished h out (by simp [hp, Place.unfinished])
    refine ⟨fun x o hm => ?_, fun x o hu hm => ?_, fun x hx => ?_, fun x ht => ?_, fun x y hm hheld => ?_⟩
    · rcases List.mem_cons.mp hm with heq | hm
      · cases heq
        exact hlt
      · exact hh.fresh x o hm
    · have hx : x ≠ h := fun hxh => by simp [hxh, Tasks.setPlace, Place.unfinished] at hu
      rcases List.mem_cons.mp hm with heq | hm
      · cases heq
        exact hx rfl
      · exact hh.unfinished x o (by simpa [Tasks.setPlace, hx] using hu) hm
    · by_cases hxh : x = h
      · exact ⟨out, hxh ▸ List.mem_cons_self⟩
      · obtain ⟨o, hm⟩ := hh.ended x (by simpa [Tasks.setPlace, hxh] using hx)
        exact ⟨o, List.mem_cons_of_mem _ hm⟩
    · by_cases hxh : x = h ∧ out = none
      · rw [hxh.1, hxh.2]
        exact List.mem_cons_self
      · refine List.mem_cons_of_mem _ (hh.thrown x ?_)
        by_cases ho : out = none
        · simpa [ho, show x ≠ h from fun hx => hxh ⟨hx, ho⟩] using ht
        · simpa [ho] using ht
    · have hheld' : m.Held x := by
        obtain ⟨t, e, he, hh'⟩ := hheld
        exact ⟨t, e, hfew.2 t e he, hh'⟩
      rcases List.mem_cons.mp hm with heq | hm
      · cases heq
        exact hval y rfl hheld'
      · have hx : x ≠ h := fun hxh => hno _ (hxh ▸ hm)
        exact (hcode x hx).trans (hh.code x y hm hheld')

theorem call (hh : m.History) (user : Bool) : (m.call user).History := by
  have hno : ∀ out, Event.returned m.next out ∉ m.log := fun out hm => lt_irrefl _ (hh.fresh m.next out hm)
  refine ⟨fun h out hm => Nat.lt_succ_of_lt (hh.fresh h out hm), fun h out hu hm => ?_, fun h hx => ?_, fun h ht => ?_,
    fun h x hm hheld => ?_⟩
  · by_cases hn : h = m.next
    · exact hno out (hn ▸ hm)
    · exact hh.unfinished h out (by simpa [Tasks.call, hn] using hu) hm
  · by_cases hn : h = m.next
    · simp [Tasks.call, hn] at hx
    · exact hh.ended h (by simpa [Tasks.call, hn] using hx)
  · by_cases hn : h = m.next
    · simp [Tasks.call, hn] at ht
    · exact hh.thrown h (by simpa [Tasks.call, hn] using ht)
  · have hn : h ≠ m.next := fun hn => hno _ (hn ▸ hm)
    obtain ⟨t, e, he, hh'⟩ := hheld
    have hheld' : m.Held h := by
      by_cases ht : t = .var m.nextVar
      · simp only [Tasks.call, ht, Function.update_self, Option.some.injEq] at he
        subst he
        exact absurd (by simpa using hh'.symm) hn
      · exact ⟨t, e, by simpa [Tasks.call, ht] using he, hh'⟩
    simpa [Tasks.call, hn] using hh.code h x hm hheld'

theorem finalReturn (hh : m.History) {h : CoroId} {done : CoroId → Bool} (hp : m.place h = .final)
    (hd : ∀ x, x ≠ h → done x = m.done x) : History { m.setPlace h .gone with done } := by
  have hg := hh.setPlace (h := h) (p := .gone) (by simp [Place.unfinished]) (by simp)
  refine { hg with ended := fun x hx => ?_ }
  by_cases hxh : x = h
  · exact hh.ended x (.inl (hxh ▸ hp))
  · refine hg.ended x (hx.imp_right fun hdx => ?_)
    exact (hd x hxh).symm.trans hdx

theorem setTask (hh : m.History) (t : TaskRef) {o : Option EvTask} (ho : ∀ e, o = some e → e.handle = none) :
    (m.setTask t o).History := by
  refine hh.tasks fun t' e h he hh' => ?_
  by_cases ht : t' = t
  · subst ht
    rw [Function.update_self] at he
    simp [ho e he] at hh'
  · exact ⟨t', e, by simpa [ht] using he, hh'⟩

theorem step (hh : m.History) {l : TaskLabel} (hs : TaskStep m l m') : m'.History := by
  cases hs with
  | idle _ => exact hh
  | suspend hc hp hu hsus hnt hni =>
    exact (hh.setPlace (fun _ => by simp [hp, Place.unfinished]) fun hf =>
      by simp [hf, Place.suspended] at hsus).calls _
  | event hc hp => exact (hh.setPlace (fun _ => by simp [hp, Place.unfinished]) (by simp)).calls _
  | wake hp => exact hh.enter (by rcases hp with ⟨r, hp⟩ | hp <;> simp [hp, Place.unfinished])
  | wakeKill hp => exact hh.enter (by simp [hp, Place.unfinished])
  | call _ _ => exact hh.call _
  | start h => exact hh.started h
  | register h => exact (hh.calls _).started h
  | startReturn hc => exact hh.calls _
  | rethrowRegister hc ht => exact hh.calls _
  | rethrowAwait hc ht hsus =>
    refine (hh.calls _).enter ?_
    revert hsus
    cases m.place _ <;> simp [Place.suspended, Place.unfinished]
  | beginStart hc hp ht hst hh' h =>
    exact History.started ((hh.setPlace (fun _ => by simp [hp, Place.unfinished]) (by simp)).calls _) h
  | beginDone hc hp ht hst hh' hd => exact hh.log (by simp)
  | @beginArm a h t e rest hc hp ht hst hh' hd =>
    have hg : History { m.setPlace a (.atTask t h false) with calls := rest } :=
      (hh.setPlace (fun _ => by simp [hp, Place.unfinished]) (by simp)).calls _
    exact hg.arm (by simp [Tasks.setPlace, Place.arm]) (by simp [Tasks.setPlace, Place.unfinished])
  | tailDone hc hp ht hh' hd => exact (hh.calls _).returns (by simp [hp, Place.unfinished])
  | tailArm hc hp ht hh' hd =>
    refine (hh.calls _).arm ?_ ?_
    · rcases hp with hp | hp <;> simp [hp, Place.arm]
    · rcases hp with hp | hp <;> simp [hp, Place.arm, Place.unfinished]
  | finish _ _ h => exact hh.step_ended h
  | @finishResume _ h a out t e x m₁ _ ha hp h' ht hx =>
    refine (hh.step_ended h').returns ?_
    have hne : a ≠ h := by
      cases h' with
      | mk _ hrun => exact fun hah => by simp [← hah, hp] at hrun
    simp [h'.place, hne, hp, Place.unfinished]
  | finalReturn hc hp hd hheld => exact (hh.finalReturn hp hd).calls _
  | destroy => exact hh.setTask _ (by simp)
  | registered hc he => exact (hh.setTask _ (by rintro e ⟨⟩; rfl)).calls _
  | @overwritten v x e task rest hc hsus hfew he =>
    have ht : History { m with task } := hh.tasks fun t e h he hh' => ⟨t, e, hfew.2 t e he, hh'⟩
    exact ((ht.setTask (.var v) (o := some {}) (by rintro e ⟨⟩; rfl)).setPlace (h := x) (p := .gone)
      (by simp [Place.unfinished]) (by simp)).calls _

end History
end Tasks
theorem TaskStep.mem_log {m m' : Tasks} {l : TaskLabel} (hs : TaskStep m l m') {e : Event} (hm : e ∈ m.log) :
    e ∈ m'.log := by
  have hstart : ∀ {n : Tasks} {t : TaskRef}, Started n t m' → m'.log = n.log := by
    intro m₁ t h1
    cases h1 <;> rfl
  cases hs with
  | start h1 | register h1 | beginStart _ _ _ _ _ h1 => exact (hstart h1).symm ▸ hm
  | beginDone | tailDone => exact List.mem_cons_of_mem _ hm
  | finish _ _ h1 =>
    cases h1
    exact List.mem_cons_of_mem _ hm
  | finishResume _ _ _ h1 =>
    cases h1
    exact List.mem_cons_of_mem _ (List.mem_cons_of_mem _ hm)
  | _ => exact hm

/-! ### Where awaiting begins and ends -/

variable {m m' : Tasks} {l : TaskLabel}

theorem Started.place_eq {t : TaskRef} (hs : Started m t m') {a : CoroId} (ha : m.place a ≠ .initial) :
    m'.place a = m.place a := by
  cases hs with
  | already => rfl
  | @now e h he hst hh hp =>
    have hne : a ≠ h := fun hah => ha (hah ▸ hp)
    simp [Tasks.enter, Tasks.setPlace, Tasks.setTask, hne]

theorem Started.atTask {t t' : TaskRef} (hs : Started m t m') {a h : CoroId} {b : Bool}
    (hp : m'.place a = .atTask t' h b) : m.place a = .atTask t' h b := by
  cases hs with
  | already => exact hp
  | @now e x he hst hh hi =>
    by_cases hax : a = x
    · simp [Tasks.enter, Tasks.setPlace, hax] at hp
    · simpa [Tasks.enter, Tasks.setPlace, Tasks.setTask, hax] using hp

theorem Tasks.atTask_of_setPlace {x a h : CoroId} {p : Place} {t : TaskRef} {b : Bool}
    (hp : (m.setPlace x p).place a = .atTask t h b) : m.place a = .atTask t h b ∨ a = x ∧ p = .atTask t h b := by
  by_cases hax : a = x
  · exact .inr ⟨hax, by simpa [Tasks.setPlace, hax] using hp⟩
  · exact .inl (by simpa [Tasks.setPlace, hax] using hp)

theorem Tasks.atTask_of_enter {x a h : CoroId} {t : TaskRef} {b : Bool} (hp : (m.enter x).place a = .atTask t h b) :
    m.place a = .atTask t h b :=
  (atTask_of_setPlace hp).resolve_right (by simp)

theorem Tasks.atTask_of_arm {x y a h : CoroId} {t : TaskRef} {b : Bool} (hp : (m.arm y x).place a = .atTask t h b) :
    m.place a = .atTask t h b ∨ a = x ∧ b = true ∧ ∃ b', m.place a = .atTask t h b' := by
  by_cases hax : a = x
  · subst hax
    right
    simp only [Tasks.arm, Function.update_self] at hp
    revert hp
    cases m.place a <;> simp_all [Place.arm]
  · exact .inl (by simpa [Tasks.arm, hax] using hp)

/-- A coroutine comes to a `co_await` of a task by beginning it, and its handle is stored then or later. -/
theorem TaskStep.atTask (hs : TaskStep m l m') {a h : CoroId} {t : TaskRef} {b : Bool}
    (hp : m'.place a = .atTask t h b) :
    m.place a = .atTask t h b ∨ b = true ∧ m.place a = .atTask t h false ∧ l = .tail a t ∨
      m.place a = .running ∧ l = .begin a t := by
  cases hs with
  | idle | startReturn | rethrowRegister | beginDone | destroy | registered => exact .inl hp
  | suspend _ _ _ _ hn =>
    rcases Tasks.atTask_of_setPlace (p := _) hp with h1 | ⟨-, h1⟩
    · exact .inl h1
    · simp [h1, Place.isTask] at hn
  | event => exact .inl ((Tasks.atTask_of_setPlace hp).resolve_right (by simp))
  | wake | wakeKill => exact .inl (Tasks.atTask_of_enter hp)
  | call => 
    by_cases han : a = m.next
    · simp [Tasks.call, han] at hp
    · exact .inl (by simpa [Tasks.call, han] using hp)
  | start h1 => exact .inl (h1.atTask hp)
  | register h1 => exact .inl (h1.atTask hp)
  | rethrowAwait => exact .inl (Tasks.atTask_of_enter hp)
  | @beginStart x y t' e rest m₁ hc hr ht hst hh h1 =>
    rcases Tasks.atTask_of_setPlace (m := m) (h1.atTask hp) with h2 | ⟨rfl, h2⟩
    · exact .inl h2
    · obtain ⟨rfl, rfl, rfl⟩ : t' = t ∧ y = h ∧ false = b := by simpa using h2
      exact .inr (.inr ⟨hr, rfl⟩)
  | @beginArm x y t' e rest hc hr =>
    have hx : (m.setPlace x (.atTask t' y false)).place x = .atTask t' y false := by simp [Tasks.setPlace]
    rcases Tasks.atTask_of_arm (m := { m.setPlace x (.atTask t' y false) with calls := rest }) hp with h1 |
      ⟨rfl, hb, b', h1⟩
    · rcases Tasks.atTask_of_setPlace (m := m) h1 with h2 | ⟨rfl, h2⟩
      · exact .inl h2
      · obtain ⟨rfl, rfl, rfl⟩ : t' = t ∧ y = h ∧ false = b := by simpa using h2
        exact .inr (.inr ⟨hr, rfl⟩)
    · obtain ⟨rfl, rfl, rfl⟩ : t' = t ∧ y = h ∧ false = b' := by simpa using hx.symm.trans h1
      exact .inr (.inr ⟨hr, rfl⟩)
  | tailDone => exact .inl (Tasks.atTask_of_enter hp)
  | @tailArm x y t' e rest hc hpl =>
    rcases Tasks.atTask_of_arm (m := { m with calls := rest }) hp with h1 | ⟨rfl, hb, b', h1⟩
    · exact .inl h1
    · rcases hpl with hpl | hpl
      · obtain ⟨rfl, rfl, rfl⟩ : t' = t ∧ y = h ∧ false = b' := by simpa using hpl.symm.trans h1
        exact .inr (.inl ⟨hb, hpl, rfl⟩)
      · cases hpl.symm.trans h1
  | @finish _ x out _ _ _ h1 =>
    rw [h1.place] at hp
    exact .inl ((Tasks.atTask_of_setPlace (m := m) (x := x) hp).resolve_right (by simp))
  | @finishResume _ x a' out t' e y m₁ _ _ _ h1 =>
    have hp1 := Tasks.atTask_of_enter (m := m₁) hp
    rw [h1.place] at hp1
    exact .inl ((Tasks.atTask_of_setPlace (m := m) (x := x) hp1).resolve_right (by simp))
  | finalReturn | overwritten => exact .inl ((Tasks.atTask_of_setPlace (m := m) hp).resolve_right (by simp))

/-- A coroutine that waits for no task was where it is, or has just run. -/
theorem TaskStep.place_of_suspended (hs : TaskStep m l m') {h : CoroId} (hsus : (m'.place h).suspended = true)
    (ht : (m'.place h).isTask = false) (hi : m'.place h ≠ .initial) : m'.place h = m.place h ∨
    m.place h = .running := by
  have hset : ∀ {n : Tasks} {x : CoroId} {q : Place}, m'.place = (n.setPlace x q).place → q.suspended = false →
      m'.place h = n.place h := by
    intro m₁ x q hm hq
    by_cases hx : h = x
    · simp [hm, Tasks.setPlace, hx, hq] at hsus
    · simp [hm, Tasks.setPlace, hx]
  have harm : ∀ {n : Tasks} {x a : CoroId}, m'.place = (n.arm x a).place → m'.place h = n.place h := by
    intro m₁ x a hm
    by_cases ha : h = a
    · subst ha
      simp only [hm, Tasks.arm, Function.update_self] at ht ⊢
      cases hp : m₁.place h <;> rw [hp] at ht <;> first | rfl | cases ht
    · simp [hm, Tasks.arm, ha]
  have hstarted : ∀ {n m₂ : Tasks} {t : TaskRef}, Started n t m' → n.place = m₂.place →
      m'.place h = m₂.place h := by
    intro m₁ m₂ t h1 hm
    rw [← hm]
    cases h1 with
    | already => rfl
    | @now e => exact hset (n := { m₁.setTask t (some { e with startedCoro := true }) with calls := _ }) rfl rfl
  have hrun : ∀ {n : Tasks} {x : CoroId} {q : Place}, m.place x = .running →
      n.place = (m.setPlace x q).place → m'.place h = n.place h → m'.place h = m.place h ∨ m.place h = .running := by
    intro m₁ x q hr hm h1
    by_cases hx : h = x
    · exact .inr (hx ▸ hr)
    · exact .inl (by simp [h1, hm, Tasks.setPlace, hx])
  cases hs with
  | idle | startReturn | rethrowRegister | beginDone | destroy | registered => exact .inl rfl
  | suspend _ hr => exact hrun (n := { m.setPlace _ _ with calls := _ }) hr rfl rfl
  | event _ hr => exact hrun (n := { m.setPlace _ _ with calls := _ }) hr rfl rfl
  | wake | wakeKill => exact .inl (hset (n := m) rfl rfl)
  | call =>
    refine .inl ?_
    by_cases hn : h = m.next
    · exact absurd (by simp [Tasks.call, hn]) hi
    · simp [Tasks.call, hn]
  | start h1 | register h1 => exact .inl (hstarted h1 rfl)
  | rethrowAwait => exact .inl (hset (n := m) rfl rfl)
  | beginStart _ hr _ _ _ h1 => exact hrun (n := m.setPlace _ _) hr rfl (hstarted h1 rfl)
  | @beginArm _ y _ _ _ _ hr => exact hrun (n := { m.setPlace _ _ with calls := _ }) hr rfl (harm (x := y) rfl)
  | tailDone => exact .inl (hset (n := m) rfl rfl)
  | @tailArm _ y => exact .inl (harm (n := { m with calls := _ }) (x := y) rfl)
  | finish _ _ h1 => exact .inl (hset (n := m) h1.place rfl)
  | @finishResume _ x a out t e y m₁ _ _ _ h1 =>
    have h2 : m₁.place h = (m.setPlace x .final).place h := by rw [h1.place]; rfl
    have h3 := hset (n := m₁) (x := a) (q := .running) rfl rfl
    refine .inl (h3.trans ?_)
    by_cases hx : h = x
    · have h4 : (m₁.returns a t x y).place h = .final := by rw [h3, h2, hx]; simp [Tasks.setPlace]
      rw [h4] at hsus
      cases hsus
    · rw [h2]
      simp [Tasks.setPlace, hx]
  | finalReturn => exact .inl (hset (n := m) rfl rfl)
  | overwritten => exact .inl (hset (n := m) rfl rfl)

/-- The body of a coroutine that runs is on the stack. -/
def Tasks.Running (m : Tasks) : Prop := ∀ h, m.place h = .running → Activation.run h ∈ m.calls

theorem Started.running {t : TaskRef} (hs : Started m t m') (hr : m.Running) : m'.Running := by
  cases hs with
  | already => exact hr
  | @now e x =>
    intro h hp
    by_cases hx : h = x
    · simp [Tasks.enter, hx]
    · refine List.mem_cons_of_mem _ (List.mem_cons_of_mem _ (hr h ?_))
      simpa [Tasks.enter, Tasks.setPlace, Tasks.setTask, hx] using hp

theorem TaskStep.running (hs : TaskStep m l m') (hr : m.Running) : m'.Running := by
  -- where the coroutine of a place is not made to run, its body has stayed on the stack
  have hset : ∀ {n : Tasks} {x : CoroId} {p : Place}, n.place = m.place → p ≠ .running →
      (∀ h, h ≠ x → Activation.run h ∈ m.calls → Activation.run h ∈ n.calls) → (n.setPlace x p).Running := by
    intro m₁ x p hm hp hc h h1
    by_cases hx : h = x
    · exact absurd (by simpa [Tasks.setPlace, hx] using h1) hp
    · exact hc h hx (hr h (by simpa [Tasks.setPlace, hx, hm] using h1))
  have henter : ∀ {n : Tasks} {x : CoroId}, n.Running → (n.enter x).Running := by
    intro m₁ x h1 h h2
    by_cases hx : h = x
    · simp [Tasks.enter, hx]
    · exact List.mem_cons_of_mem _ (h1 h (by simpa [Tasks.enter, Tasks.setPlace, hx] using h2))
  have harm : ∀ {n : Tasks} {x a : CoroId}, n.Running → (n.arm x a).Running := by
    intro m₁ x a h1 h h2
    refine h1 h ?_
    by_cases ha : h = a
    · subst ha
      simp only [Tasks.arm, Function.update_self] at h2
      cases hp : m₁.place h <;> rw [hp] at h2 <;> first | rfl | cases h2
    · simpa [Tasks.arm, ha] using h2
  have hcalls : ∀ {l₁ : List Activation}, (∀ h, Activation.run h ∈ m.calls → Activation.run h ∈ l₁) →
      ({ m with calls := l₁ } : Tasks).Running := fun hc h h1 => hc h (hr h h1)
  have hpop : ∀ {x : Activation} {rest : List Activation}, m.calls = x :: rest → ∀ h, x ≠ .run h →
      Activation.run h ∈ m.calls → Activation.run h ∈ rest := by
    intro x rest hc h hx hm
    rw [hc] at hm
    exact (List.mem_cons.mp hm).resolve_left (Ne.symm hx)
  have hend : ∀ {n : Tasks} {x : CoroId} {out : Option ℕ}, Ended m x out n → n.Running := by
    intro m₁ x out h1
    cases h1 with
    | @mk rest code task hc =>
      exact hset (n := { m with calls := .finalSuspend x :: rest }) (p := .final) rfl (by simp) fun h hx hm =>
        List.mem_cons_of_mem _ (hpop hc h (by simpa using Ne.symm hx) hm)
  cases hs with
  | idle | beginDone | destroy => exact hr
  | @suspend x p rest hc _ _ hp =>
    exact hset (n := { m with calls := rest }) rfl (fun he => by simp [he, Place.suspended] at hp)
      fun h hx => hpop hc h (by simpa using Ne.symm hx)
  | @event x r rest hc =>
    exact hset (n := { m with calls := rest }) rfl (by simp) fun h hx => hpop hc h (by simpa using Ne.symm hx)
  | wake | wakeKill => exact henter hr
  | call => exact hset (n := m) rfl (by simp) fun h _ hm => hm
  | start h1 => exact h1.running hr
  | register h1 => exact h1.running (hcalls fun h hm => List.mem_cons_of_mem _ hm)
  | startReturn hc | registered hc => exact hcalls fun h => hpop hc h (by simp)
  | rethrowRegister hc =>
    refine hcalls fun h hm => ?_
    exact (List.mem_cons.mp (hpop hc h (by simp) hm)).resolve_left (by simp)
  | rethrowAwait hc =>
    refine henter (hcalls fun h hm => ?_)
    exact (List.mem_cons.mp (hpop hc h (by simp) hm)).resolve_left (by simp)
  | @beginStart x y t e rest m₁ hc _ _ _ _ h1 =>
    refine h1.running (hset (n := { m with calls := .taskAwait t x :: rest }) rfl (by simp) fun h hx hm => ?_)
    exact List.mem_cons_of_mem _ (hpop hc h (by simpa using Ne.symm hx) hm)
  | @beginArm x y t e rest hc =>
    exact harm (hset (n := { m with calls := rest }) rfl (by simp) fun h hx => hpop hc h (by simpa using Ne.symm hx))
  | @tailDone _ _ _ _ rest hc => exact henter (n := { m with calls := rest }) (hcalls fun h => hpop hc h (by simp))
  | tailArm hc => exact harm (hcalls fun h => hpop hc h (by simp))
  | finish _ _ h1 => exact hend h1
  | finishResume _ _ _ h1 => exact henter (hend h1)
  | @finalReturn x done rest hc =>
    exact hset (n := { m with calls := rest }) rfl (by simp) fun h _ => hpop hc h (by simp)
  | @overwritten v x e task rest hc =>
    exact hset (n := { m with calls := rest }) rfl (by simp) fun h _ => hpop hc h (by simp)

namespace Tasks

/-- A coroutine whose `await_suspend` has not returned waits for the coroutine that it starts. -/
structure Suspends (m : Tasks) : Prop where
  waiting : ∀ a t h, m.place a = .atTask t h false → Activation.taskAwait t a ∈ m.calls
  above : ∀ t t' h a, [.taskStart t h, .taskAwait t' a] <:+: m.calls →
    m.place a = .atTask t' h false ∨ m.place a = .gone

/-- What the machine is told: an `await_suspend` that has not returned belongs to a coroutine that is not armed yet,
or was destroyed. -/
def Suspending (m : Tasks) : Prop :=
  ∀ t a, Activation.taskAwait t a ∈ m.calls → (∃ h, m.place a = .atTask t h false) ∨ m.place a = .gone

end Tasks

/-- An `await_suspend` returns to let its coroutine go on, or once its handle is stored. -/
theorem TaskStep.taskAwait_mem (hs : TaskStep m l m') {a : CoroId} {t : TaskRef}
    (hm : Activation.taskAwait t a ∈ m.calls) :
    Activation.taskAwait t a ∈ m'.calls ∨ ∀ h, m'.place a ≠ .atTask t h false := by
  have hpop : ∀ {x : Activation} {rest : List Activation}, m.calls = x :: rest → x ≠ .taskAwait t a →
      Activation.taskAwait t a ∈ rest := by
    intro x rest hc hx
    rw [hc] at hm
    exact (List.mem_cons.mp hm).resolve_left (Ne.symm hx)
  have hstart : ∀ {n : Tasks} {t' : TaskRef}, Started n t' m' → Activation.taskAwait t a ∈ n.calls →
      Activation.taskAwait t a ∈ m'.calls := by
    intro m₁ t' h1 hm1
    cases h1 with
    | already => exact hm1
    | now => exact List.mem_cons_of_mem _ (List.mem_cons_of_mem _ hm1)
  cases hs with
  | idle | call | beginDone | destroy => exact .inl hm
  | suspend hc | event hc | startReturn hc | finalReturn hc | registered hc | overwritten hc =>
    exact .inl (hpop hc (by simp))
  | wake | wakeKill => exact .inl (List.mem_cons_of_mem _ hm)
  | start h1 => exact .inl (hstart h1 hm)
  | register h1 => exact .inl (hstart h1 (List.mem_cons_of_mem _ hm))
  | rethrowRegister hc =>
    have h1 := hpop hc (by simp)
    simp only [List.mem_cons, reduceCtorEq, false_or] at h1
    exact .inl h1
  | @rethrowAwait t₁ t₂ x y rest hc =>
    have h1 := hpop hc (by simp)
    simp only [List.mem_cons, Activation.taskAwait.injEq] at h1
    by_cases hy : a = y
    · exact .inr fun h => by simp [Tasks.enter, Tasks.setPlace, hy]
    · exact .inl (List.mem_cons_of_mem _ (h1.resolve_left fun h2 => hy h2.2))
  | beginStart hc hr ht hst hh h1 => exact .inl (hstart h1 (List.mem_cons_of_mem _ (hpop hc (by simp))))
  | beginArm hc => exact .inl (hpop hc (by simp))
  | @tailDone x y t₁ e rest hc =>
    by_cases hx : a = x
    · exact .inr fun h => by simp [Tasks.returns, Tasks.enter, Tasks.setPlace, hx]
    · exact .inl (List.mem_cons_of_mem _ (hpop hc (by simpa using fun _ h2 => hx h2.symm)))
  | @tailArm x y t₁ e rest hc hp =>
    by_cases hx : a = x
    · refine .inr fun h => ?_
      rcases hp with hp | hp <;> simp [Tasks.arm, hx, hp, Place.arm]
    · exact .inl (hpop hc (by simpa using fun _ h2 => hx h2.symm))
  | finish _ _ h1 =>
    cases h1 with
    | mk hc => exact .inl (List.mem_cons_of_mem _ (hpop hc (by simp)))
  | finishResume _ _ _ h1 =>
    cases h1 with
    | mk hc => exact .inl (List.mem_cons_of_mem _ (List.mem_cons_of_mem _ (hpop hc (by simp))))

/-- A coroutine at `std::suspend_always` leaves it when a completion was marked seen, or is destroyed. -/
theorem TaskStep.place_of_always (hsus : m.Suspending) (hs : TaskStep m l m') {h : CoroId}
    (hp : m.place h = .atAlways) :
    m'.place h = .atAlways ∨ l = .seen ∨ ∃ v, l = .registered v (some h) := by
  have hset : ∀ {n : Tasks} {x : CoroId} {p : Place}, m.place x ≠ .atAlways → n.place h = m.place h →
      (n.setPlace x p).place h = .atAlways := by
    intro m₁ x p hx h1
    have hne : h ≠ x := fun he => hx (he ▸ hp)
    simp [Tasks.setPlace, hne, h1, hp]
  have hstarted : ∀ {n : Tasks} {t : TaskRef}, Started n t m' → n.place h = .atAlways → m'.place h = .atAlways :=
    fun h1 h2 => (h1.place_eq (by simp [h2])).trans h2
  have harm : ∀ {n : Tasks} {x a : CoroId}, n.place h = .atAlways → (n.arm x a).place h = .atAlways := by
    intro m₁ x a h1
    by_cases ha : h = a
    · subst ha
      simp [Tasks.arm, h1, Place.arm]
    · simp [Tasks.arm, ha, h1]
  cases hs with
  | idle | startReturn | rethrowRegister | beginDone | destroy | registered => exact .inl hp
  | suspend _ hr | event _ hr => exact .inl (hset (n := m) (by simp [hr]) rfl)
  | wake hw => exact .inl (hset (n := m) (by rcases hw with ⟨r, hw⟩ | hw <;> simp [hw]) rfl)
  | wakeKill => exact .inr (.inl rfl)
  | call hg => exact .inl (hset (n := m) (by simp [hg]) rfl)
  | start h1 | register h1 => exact .inl (hstarted h1 hp)
  | @rethrowAwait t t' x a rest hc =>
    refine .inl (hset (n := m) ?_ rfl)
    rcases hsus t' a (by simp [hc]) with ⟨y, h1⟩ | h1 <;> simp [h1]
  | beginStart _ hr _ _ _ h1 => exact .inl (hstarted h1 (hset (n := m) (by simp [hr]) rfl))
  | beginArm _ hr => exact .inl (harm (hset (n := m) (by simp [hr]) rfl))
  | tailDone _ hpl => exact .inl (hset (n := m) (by simp [hpl]) rfl)
  | tailArm => exact .inl (harm hp)
  | finish _ _ h1 =>
    cases h1 with
    | mk _ hr => exact .inl (hset (n := m) (by simp [hr]) rfl)
  | finishResume _ _ hpl h1 =>
    cases h1 with
    | mk _ hr => exact .inl (hset (by simp [hpl]) ((hset (n := m) (by simp [hr]) rfl).trans hp.symm))
  | finalReturn _ hf => exact .inl (hset (n := m) (by simp [hf]) rfl)
  | @overwritten v x =>
    by_cases hx : h = x
    · exact .inr (.inr ⟨v, hx ▸ rfl⟩)
    · exact .inl (by simpa [Tasks.setPlace, hx] using hp)

/-- Why a coroutine comes to run. -/
inductive Wakes (m : Tasks) (h : CoroId) : TaskLabel → Prop
  | event {l : TaskLabel} : (∃ r, m.place h = .atIo r) ∨ m.place h = .atGeneric → Wakes m h l
  | seen : m.place h = .atAlways → Wakes m h .seen
  | task {l : TaskLabel} {t : TaskRef} {x : CoroId} {b : Bool} : m.place h = .atTask t x b → Wakes m h l
  | start {l : TaskLabel} {t : TaskRef} {e : EvTask} : m.place h = .initial → m.task t = some e → e.handle = some h →
      (l = .start t ∨ (∃ v, l = .register v ∧ t = .var v) ∨ ∃ a, l = .begin a t) → Wakes m h l

theorem Started.wakes {t : TaskRef} (hs : Started m t m') {h : CoroId} (h0 : m.place h ≠ .running)
    (h1 : m'.place h = .running) : m.place h = .initial ∧ ∃ e, m.task t = some e ∧ e.handle = some h := by
  cases hs with
  | already => exact absurd h1 h0
  | @now e x he hst hh hp =>
    by_cases hx : h = x
    · subst hx
      exact ⟨hp, e, he, hh⟩
    · exact absurd (by simpa [Tasks.enter, Tasks.setPlace, Tasks.setTask, hx] using h1) h0

/-- A response resumes a coroutine by itself, or one is resumed by the task machine. -/
theorem TaskStep.wakes_or (hsus : m.Suspending) (hs : TaskStep m l m') {h : CoroId} (h0 : m.place h ≠ .running)
    (h1 : m'.place h = .running) : ((∃ r, m.place h = .atIo r) ∨ m.place h = .atGeneric) ∧ l = .tau ∧ m' = m.enter h ∨
      (m.place h).awaitsResponse = false ∧ Wakes m h l := by
  have hset : ∀ {n : Tasks} {x : CoroId} {p : Place}, n.place = m.place → (n.setPlace x p).place h = .running →
      p ≠ .running → False := by
    intro m₁ x p hm h2 hp
    by_cases hx : h = x
    · exact hp (by simpa [Tasks.setPlace, hx] using h2)
    · exact h0 (by simpa [Tasks.setPlace, hx, hm] using h2)
  have henter : ∀ {n : Tasks} {x : CoroId}, n.place = m.place → (n.enter x).place h = .running → h = x := by
    intro m₁ x hm h2
    by_contra hx
    exact h0 (by simpa [Tasks.enter, Tasks.setPlace, hx, hm] using h2)
  cases hs with
  | idle | startReturn | rethrowRegister | beginDone | destroy | registered => exact absurd h1 h0
  | suspend _ _ _ hsu => exact (hset rfl h1 fun hp => by simp [hp, Place.suspended] at hsu).elim
  | event => exact (hset rfl h1 (by simp)).elim
  | wake hp =>
    obtain rfl := henter rfl h1
    exact .inl ⟨hp, rfl, rfl⟩
  | wakeKill hp =>
    obtain rfl := henter rfl h1
    exact .inr ⟨by rw [hp]; rfl, .seen hp⟩
  | call =>
    by_cases hn : h = m.next
    · simp [Tasks.call, hn] at h1
    · exact absurd (by simpa [Tasks.call, hn] using h1) h0
  | start h2 =>
    obtain ⟨hp, e, he, hh⟩ := h2.wakes h0 h1
    exact .inr ⟨by rw [hp]; rfl, .start hp he hh (.inl rfl)⟩
  | @register v _ h2 =>
    obtain ⟨hp, e, he, hh⟩ := h2.wakes h0 h1
    have hp' : m.place h = .initial := hp
    exact .inr ⟨by rw [hp']; rfl, .start hp' he hh (.inr (.inl ⟨v, rfl, rfl⟩))⟩
  | @rethrowAwait t t' x a rest hc ht hsu =>
    obtain rfl : h = a := henter (n := { m with calls := rest }) rfl h1
    rcases hsus t' h (by simp [hc]) with ⟨y, hp⟩ | hp
    · exact .inr ⟨by rw [hp]; rfl, .task hp⟩
    · simp [hp, Place.suspended] at hsu
  | @beginStart a x t e rest m₁ hc hr ht hst hh h2 =>
    have ha : h ≠ a := fun ha => h0 (ha ▸ hr)
    have hp0 : ({ m.setPlace a (.atTask t x false) with calls := .taskAwait t a :: rest } : Tasks).place h =
      m.place h := by
      simp [Tasks.setPlace, ha]
    obtain ⟨hp, e', he', hh'⟩ := h2.wakes (by rw [hp0]; exact h0) h1
    have hp' := hp0.symm.trans hp
    exact .inr ⟨by rw [hp']; rfl, .start hp' he' hh' (.inr (.inr ⟨a, rfl⟩))⟩
  | @beginArm a x t e rest hc hr =>
    have ha : h ≠ a := fun ha => h0 (ha ▸ hr)
    exact absurd (by simpa [Tasks.arm, Tasks.setPlace, ha] using h1) h0
  | tailDone hc hp =>
    obtain rfl := henter (n := { m with calls := _ }) rfl h1
    exact .inr ⟨by rw [hp]; rfl, .task hp⟩
  | @tailArm a x t e rest hc hp =>
    by_cases ha : h = a
    · rcases hp with hp | hp <;> simp [Tasks.arm, ha, hp, Place.arm] at h1
    · exact absurd (by simpa [Tasks.arm, ha] using h1) h0
  | finish _ _ h2 =>
    rw [h2.place] at h1
    exact (hset rfl h1 (by simp)).elim
  | @finishResume _ x a out t e y m₁ _ _ hp h2 =>
    by_cases ha : h = a
    · subst ha
      exact .inr ⟨by rw [hp]; rfl, .task hp⟩
    · have h3 : m₁.place h = .running := by simpa [Tasks.returns, Tasks.enter, Tasks.setPlace, ha] using h1
      rw [h2.place] at h3
      exact (hset rfl h3 (by simp)).elim
  | finalReturn | overwritten => exact (hset (n := m) rfl h1 (by simp)).elim

theorem TaskStep.wakes (hsus : m.Suspending) (hs : TaskStep m l m') {h : CoroId} (h0 : m.place h ≠ .running)
    (h1 : m'.place h = .running) : Wakes m h l := by
  rcases hs.wakes_or hsus h0 h1 with ⟨hp, -⟩ | ⟨-, hw⟩
  · exact .event hp
  · exact hw

/-- Nothing but a response resumes a coroutine that waits for one. -/
theorem TaskStep.wakes_response (hsus : m.Suspending) (hs : TaskStep m l m') {h : CoroId}
    (h0 : (m.place h).awaitsResponse = true) (h1 : m'.place h = .running) : l = .tau ∧
    m'.calls = .run h :: m.calls := by
  have hne : m.place h ≠ .running := fun hr => by
    rw [hr] at h0
    cases h0
  rcases hs.wakes_or hsus hne h1 with ⟨-, hl, rfl⟩ | ⟨hp, -⟩
  · exact ⟨hl, rfl⟩
  · rw [h0] at hp
    cases hp

namespace Tasks.Suspends

theorem waiting_step (hw : m.Suspends) (hs : TaskStep m l m') {a h : CoroId} {t : TaskRef}
    (hp : m'.place a = .atTask t h false) : Activation.taskAwait t a ∈ m'.calls := by
  rcases hs.atTask hp with h1 | ⟨hb, -⟩ | ⟨hr, rfl⟩
  · exact (hs.taskAwait_mem (hw.waiting a t h h1)).resolve_right fun hn => hn h hp
  · cases hb
  · cases hs with
    | idle hl => simp at hl
    | beginStart hc hr ht hst hh h1 =>
      cases h1 with
      | already => exact List.mem_cons_self
      | now => exact List.mem_cons_of_mem _ (List.mem_cons_of_mem _ List.mem_cons_self)
    | beginDone => rw [hr] at hp; cases hp
    | beginArm => simp [Tasks.arm, Tasks.setPlace, Place.arm] at hp
    | finish hl => simp at hl
    | finishResume hl => simp at hl

theorem infix_of_cons {x : Activation} {rest : List Activation} {t t' : TaskRef} {h a : CoroId}
    (hx : ∀ t h, x ≠ .taskStart t h) (hin : [.taskStart t h, .taskAwait t' a] <:+: x :: rest) :
    [.taskStart t h, .taskAwait t' a] <:+: rest := by
  rcases List.infix_cons_iff.mp hin with h1 | h1
  · exact absurd (List.cons_prefix_cons.mp h1).1.symm (hx t h)
  · exact h1

theorem infix_started {t₁ t t' : TaskRef} {h a : CoroId} (hs : Started m t₁ m')
    (hin : [.taskStart t h, .taskAwait t' a] <:+: m'.calls) :
    [.taskStart t h, .taskAwait t' a] <:+: m.calls ∨
      (∃ rest, m.calls = .taskAwait t' a :: rest) ∧ ∃ e, m.task t₁ = some e ∧ e.handle = some h := by
  cases hs with
  | already => exact .inl hin
  | @now e x he hst hh hp =>
    have h1 := infix_of_cons (by simp) hin
    rcases List.infix_cons_iff.mp h1 with h2 | h2
    · obtain ⟨h3, h4⟩ := List.cons_prefix_cons.mp h2
      obtain ⟨rfl, rfl⟩ : t = t₁ ∧ h = x := by simpa using h3
      obtain ⟨rest, h5⟩ := h4
      exact .inr ⟨⟨rest, h5.symm⟩, e, he, hh⟩
    · exact .inl h2

/-- A `start()` is called from an `await_suspend` only where that begins. -/
theorem above_step (hs : TaskStep m l m') (hstart : ∀ t, l = .start t → ∀ t' a rest, m.calls ≠ .taskAwait t' a :: rest)
    {t t' : TaskRef} {h a : CoroId} (hin : [.taskStart t h, .taskAwait t' a] <:+: m'.calls) :
    [.taskStart t h, .taskAwait t' a] <:+: m.calls ∨ m'.place a = .atTask t' h false := by
  have hpop : ∀ {x : Activation} {rest : List Activation}, m.calls = x :: rest →
      [.taskStart t h, .taskAwait t' a] <:+: rest → [.taskStart t h, .taskAwait t' a] <:+: m.calls := by
    intro x rest hc h1
    rw [hc]
    exact h1.trans (List.suffix_cons x rest).isInfix
  cases hs with
  | idle | call | beginDone | destroy => exact .inl hin
  | suspend hc | event hc | startReturn hc | finalReturn hc | registered hc | overwritten hc | beginArm hc
  | tailArm hc =>
    exact .inl (hpop hc hin)
  | wake | wakeKill => exact .inl (infix_of_cons (by simp) hin)
  | start h1 =>
    rcases infix_started h1 hin with h2 | ⟨⟨rest, h2⟩, -⟩
    · exact .inl h2
    · exact absurd h2 (hstart _ rfl t' a rest)
  | register h1 =>
    rcases infix_started h1 hin with h2 | ⟨⟨rest, h2⟩, -⟩
    · exact .inl (infix_of_cons (by simp) h2)
    · cases h2
  | rethrowRegister hc =>
    refine .inl (hpop hc ?_)
    exact hin.trans (List.suffix_cons _ _).isInfix
  | rethrowAwait hc =>
    refine .inl (hpop hc ?_)
    exact (infix_of_cons (by simp) hin).trans (List.suffix_cons _ _).isInfix
  | @beginStart x y t₁ e rest m₁ hc hr ht hst hh h1 =>
    rcases infix_started h1 hin with h2 | ⟨⟨rest', h2⟩, e', he', hh'⟩
    · exact .inl (hpop hc (infix_of_cons (by simp) h2))
    · obtain ⟨⟨rfl, rfl⟩, -⟩ : (t₁ = t' ∧ x = a) ∧ rest = rest' := by simpa using h2
      obtain rfl : e = e' := by
        have h3 : m.task t₁ = some e' := he'
        rw [ht] at h3
        exact Option.some.inj h3
      obtain rfl : y = h := Option.some.inj (hh.symm.trans hh')
      have h4 := h1.place_eq (a := x) (by simp [Tasks.setPlace])
      refine .inr (h4.trans ?_)
      simp [Tasks.setPlace]
  | tailDone hc => exact .inl (hpop hc (infix_of_cons (by simp) hin))
  | finish _ _ h1 =>
    cases h1 with
    | mk hc => exact .inl (hpop hc (infix_of_cons (by simp) hin))
  | finishResume _ _ _ h1 =>
    cases h1 with
    | mk hc => exact .inl (hpop hc (infix_of_cons (by simp) (infix_of_cons (by simp) hin)))

theorem step (hw : m.Suspends) (hsus : m.Suspending) (hsus' : m'.Suspending) (hs : TaskStep m l m')
    (hstart : ∀ t, l = .start t → ∀ t' a rest, m.calls ≠ .taskAwait t' a :: rest) : m'.Suspends := by
  refine ⟨fun a t h hp => hw.waiting_step hs hp, fun t t' h a hin => ?_⟩
  rcases above_step hs hstart hin with h1 | h1
  · -- the call was there before, and the coroutine has stayed where it was, or was destroyed
    have hm : Activation.taskAwait t' a ∈ m.calls := h1.subset (by simp)
    have hm' : Activation.taskAwait t' a ∈ m'.calls := hin.subset (by simp)
    refine (hsus' t' a hm').imp_left fun ⟨x, hx⟩ => ?_
    have hx1 : m.place a = .atTask t' x false := by
      rcases hs.atTask hx with h2 | ⟨hb, -⟩ | ⟨hr, -⟩
      · exact h2
      · cases hb
      · rcases hsus t' a hm with ⟨y, h2⟩ | h2 <;> rw [h2] at hr <;> cases hr
    rcases hw.above t t' h a h1 with h2 | h2
    · obtain rfl : x = h := by simpa using hx1.symm.trans h2
      exact hx
    · cases hx1.symm.trans h2
  · exact .inl h1

end Tasks.Suspends

/-- The body of a coroutine ends: nobody awaits it, or who awaits it is told that it returned. -/
theorem TaskStep.ended {m m' : Tasks} {l : TaskLabel} (hs : TaskStep m l m') {x : CoroId} {out : Option ℕ}
    (hm : Event.returned x out ∈ m'.log) (h0 : Event.returned x out ∉ m.log) :
    m.place x = .running ∧ m'.place x = .final ∧
      (m.awaiter x = none ∧ m'.log = .returned x out :: m.log ∨
        ∃ a t code, m.awaiter x = some a ∧ m.place a = .atTask t x true ∧ m'.place a = .running ∧
          m'.log = .taskReturned a t x code :: .returned x out :: m.log) := by
  have hstart : ∀ {n : Tasks} {t : TaskRef}, Started n t m' → n.log = m.log → m'.log = m.log := by
    intro m₁ t h1 hlog
    rw [← hlog]
    cases h1 <;> rfl
  have hret : ∀ {a h : CoroId} {t : TaskRef} {y : ℕ} {log : List Event},
      Event.returned x out ∈ .taskReturned a t h y :: log → Event.returned x out ∈ log :=
    fun h1 => (List.mem_cons.mp h1).resolve_left (by simp)
  cases hs with
  | start h1 | register h1 => exact absurd ((hstart h1 rfl) ▸ hm) h0
  | beginStart _ _ _ _ _ h1 => exact absurd ((hstart h1 rfl) ▸ hm) h0
  | beginDone | tailDone => exact absurd (hret hm) h0
  | @finish _ h o _ _ ha h1 =>
    cases h1 with
    | mk _ hrun =>
      rcases List.mem_cons.mp hm with h2 | h2
      · cases h2
        exact ⟨hrun, by simp [Tasks.setPlace], .inl ⟨ha, rfl⟩⟩
      · exact absurd h2 h0
  | @finishResume _ h a o t e y m₁ _ ha hp h1 =>
    cases h1 with
    | mk _ hrun =>
      rcases List.mem_cons.mp (hret hm) with h2 | h2
      · cases h2
        have hne : x ≠ a := fun hxa => by simp [hxa ▸ hrun] at hp
        exact ⟨hrun, by simp [Tasks.returns, Tasks.enter, Tasks.setPlace, hne],
          .inr ⟨a, t, y, ha, hp, by simp [Tasks.returns, Tasks.enter, Tasks.setPlace], rfl⟩⟩
      · exact absurd h2 h0
  | _ => exact absurd hm h0

end EvManager
