import EvManager.PollMembers
import EvManager.StartReturns

/-!
# Who polls

A call of `poll` is active from where it finds `_polling_requests` unset until it ends.  **`one_poll`**: as long
as no handler throws and the frame of an active `poll` is not destroyed, at most one is active at a time, the two
members of the manager say which, and a call is turned away exactly when another is active.
-/

namespace EvManager

open Lib State

namespace State

variable {s s' : State}

/-! ### The calls that are active -/

/-- The call of `poll` that `p` runs was not turned away and has not ended. -/
def Polls (s : State) (p : CoroId) : Prop :=
  ((s.coros p).body = .poll .waiting ∨ (s.coros p).body = .poll .handler) ∧ (s.coros p).place.unfinished = true

instance (s : State) (p : CoroId) : Decidable (s.Polls p) := by unfold Polls; infer_instance

/-- No handler of `poll` throws, and no active call of `poll` is destroyed. -/
def KeepsPoller (s : State) (c : Choice) : Prop :=
  (∀ h ∈ s.stack.head?.bind Activation.subject, s.Polls h → c ≠ .user .throw) ∧
    ∀ p ∈ (s.label c).destroys, ¬ s.Polls p

instance (s : State) (c : Choice) : Decidable (s.KeepsPoller c) := by unfold KeepsPoller; infer_instance

theorem Polls.kind {p : CoroId} (h : s.Polls p) : (s.coros p).body.kind = .poll := by
  rcases h.1 with hb | hb <;> rw [hb] <;> rfl

theorem Polls.place {p : CoroId} (h : s.Polls p) (hr : Records s) :
    (s.coros p).body = .poll .waiting ∧ (s.coros p).place = .atGeneric ∨
      (s.coros p).body = .poll .handler ∧ (s.coros p).place = .running := by
  have hf := hr.fits p
  obtain ⟨hb | hb, hu⟩ := h
  all_goals
    rw [hb] at hf
    cases hp : (s.coros p).place <;> simp_all [Body.fits, Body.waiting, Body.atBegin, Body.kind, Place.unfinished]

theorem not_polls_of_gone {c : Choice} (hreach : Reachable s) (hs : State.step s c = .ok s') {p : CoroId}
    (hp : (s.coros p).place = .gone) : ¬ s'.Polls p := by
  intro hpoll
  have hp0 : s.tasks.place p = .gone := hp
  have hstep := step_tasks hreach.sound hreach.killing hs
  rcases hpoll.place (hreach.step hs).sound.records with ⟨-, hp'⟩ | ⟨-, hp'⟩
  · have hp1 : s'.tasks.place p = .atGeneric := hp'
    rcases hstep.place_of_suspended (h := p) (by rw [hp1]; rfl) (by rw [hp1]; rfl) (by rw [hp1]; simp) with h1 | h1
    · rw [hp0, hp1] at h1
      cases h1
    · rw [hp0] at h1
      cases h1
  · have hw := hstep.wakes (tasks_suspending hreach.sound) (h := p) (by rw [hp0]; simp) hp'
    generalize s.label c = l at hw
    cases hw with
    | event h1 =>
      rw [hp0] at h1
      rcases h1 with ⟨r, h1⟩ | h1 <;> cases h1
    | seen h1 | task h1 | start h1 =>
      rw [hp0] at h1
      cases h1

/-- Where a call of `poll` does not act it stays active, unless it is destroyed. -/
theorem polls_moves (hreach : Reachable s) (hrec' : Records s') {p : CoroId}
    (hkind : (s'.coros p).body.kind = (s.coros p).body.kind) (hm : Moves p s s') :
    (s'.Polls p ↔ s.Polls p) ∨ s.Polls p ∧ (s'.coros p).place = .gone := by
  by_cases hk : (s.coros p).body.kind = .poll
  · have hf := hreach.sound.records.fits p
    obtain ⟨pc, hb⟩ : ∃ pc, (s.coros p).body = .poll pc := by
      cases hb : (s.coros p).body <;> simp_all [Body.kind]
    cases hm with
    | stays hst =>
      left
      unfold Polls
      rw [hst.body, hst.unfinished]
    | @resumed u cause hst hr =>
      left
      have hsus : (s.coros p).place.suspended = true := hst.suspended ▸ suspended_of_resume hr
      have hub : (u.coros p).body = .poll pc := hst.body.trans hb
      have hcase : (s.coros p).place = .initial ∧ pc = .begin ∨ (s.coros p).place = .atGeneric ∧ pc = .waiting := by
        rw [hb] at hf
        cases hp : (s.coros p).place <;> cases pc <;>
          simp_all [Body.fits, Body.waiting, Body.atBegin, Body.kind, Place.suspended]
      unfold State.resume at hr
      rcases hcase with ⟨hp, rfl⟩ | ⟨hp, rfl⟩
      · rw [hst.place_eq (by rw [hp]; rfl), hp] at hr
        cases hr
        have hb' : ((u.enter p).coros p).body = .poll .begin := by
          simp [State.enter, State.setPlace, State.push, modCoro, hub]
        simp [Polls, hb, hb']
      · rw [hst.place_eq (by rw [hp]; rfl), hp] at hr
        have hub' : ((u.enter p).coros p).body = .poll .waiting := by
          simp [State.enter, State.setPlace, State.push, modCoro, hub]
        simp only [genericResume, hub'] at hr
        cases hr
        simp [Polls, hb, hp, State.enter, State.setPlace, State.setBody, State.modEv, State.log, State.push, modCoro,
          Place.unfinished]
    | @thrown u t _ hsus hmem _ =>
      -- a coroutine in an `await_suspend` awaits a task
      exfalso
      have hcall : Activation.taskAwait t p ∈ s.tasks.calls := List.mem_filter.mpr ⟨hmem, rfl⟩
      rcases tasks_suspending hreach.sound t p hcall with ⟨y, hp⟩ | hp
      · rw [hb, show (s.coros p).place = _ from hp] at hf
        simp [Body.fits, Body.kind] at hf
      · rw [show (s.coros p).place = _ from hp] at hsus
        cases hsus
    | destroyed _ hp =>
      by_cases hpoll : s.Polls p
      · exact .inr ⟨hpoll, hp⟩
      · refine .inl ⟨fun h1 => ?_, fun h1 => absurd h1 hpoll⟩
        have hu := h1.2
        rw [hp] at hu
        cases hu
  · exact .inl ⟨fun h1 => absurd (hkind.symm.trans h1.kind) hk, fun h1 => absurd h1.kind hk⟩

/-! ### What a step does to them -/

theorem returned_resume {a x : CoroId} {cause o : Option ℕ} (hs : s.resume a cause = .ok s') :
    Event.returned x o ∈ s'.trace ↔ Event.returned x o ∈ s.trace := by
  cases resumes_of_resume hs with
  | enter => rfl
  | io | task | batch | poll =>
    exact ⟨fun h1 => (List.mem_cons.mp h1).resolve_left (by simp [handledBy]), List.mem_cons_of_mem _⟩

/-- The end of a body is what its end adds to the ends of bodies. -/
theorem returned_finish {h x : CoroId} {out o : Option ℕ} (hs : s.finish h out = .ok s') :
    Event.returned x o ∈ s'.trace ↔ x = h ∧ o = out ∨ Event.returned x o ∈ s.trace := by
  have hend : ((s.storeResult h out).endBody h out).trace = .returned h out :: s.trace := by
    show Event.returned h out :: ((s.storeResult h out).destroyLocals h).trace = _
    obtain ⟨coros, vars, reqs, heq, -⟩ := (s.storeResult h out).destroyLocals_eq h
    rw [heq]
    cases out with
    | none => rfl
    | some code =>
      show _ :: (s.returnValue h code).trace = _
      unfold State.returnValue
      split <;> rfl
  have hmem : Event.returned x o ∈ s'.trace ↔ Event.returned x o ∈ ((s.storeResult h out).endBody h out).trace := by
    rcases finish_ok hs with ⟨a, -, h2⟩ | ⟨-, rfl⟩
    · exact returned_resume h2
    · rfl
  rw [hmem, hend, List.mem_cons, Event.returned.injEq]

/-- What a step does to `_polling_requests` and to the calls that are active: nothing, or one is let in, or the
handler of one asks to stop. -/
inductive PollStep (s s' : State) : Prop
  | same : s'.ev.pollingRequests = s.ev.pollingRequests → (∀ p, s'.Polls p ↔ s.Polls p) → PollStep s s'
  | enters (h : CoroId) : s.ev.pollingRequests = false → s'.ev.pollingRequests = true →
      (∀ p, s'.Polls p ↔ s.Polls p ∨ p = h) → PollStep s s'
  | stops (h : CoroId) : s.Polls h → s'.ev.pollingRequests = false → Event.returned h (some 0) ∈ s'.trace →
      (∀ p, s'.Polls p ↔ s.Polls p ∧ p ≠ h) → PollStep s s'

/-- An active call whose frame goes is destroyed. -/
theorem destroys_of_gone {c : Choice} (hreach : Reachable s) (hs : State.step s c = .ok s') {p : CoroId}
    (hp : s.Polls p) (hgone : (s'.coros p).place = .gone) : p ∈ (s.label c).destroys := by
  have hu := hp.2
  rcases (step_tasks hreach.sound hreach.killing hs).gone hgone with h1 | h1 | ⟨v, hl⟩
  · rw [show (s.coros p).place = _ from h1] at hu
    cases hu
  · rw [show (s.coros p).place = _ from h1] at hu
    cases hu
  · rw [hl]
    rfl

theorem polls_aside {c : Choice} (hreach : Reachable s) (hs : State.step s c = .ok s')
    (hkeep : ∀ p ∈ (s.label c).destroys, ¬ s.Polls p) {p : CoroId}
    (htop : ∀ a rest, s.stack = a :: rest → a.subject ≠ some p) : s'.Polls p ↔ s.Polls p := by
  by_cases hgone : (s.coros p).place = .gone
  · refine iff_of_false (not_polls_of_gone hreach hs hgone) fun h1 => ?_
    have hu := h1.2
    rw [hgone] at hu
    cases hu
  · have hlt := hreach.placed.lt_nextCoro hgone
    rcases polls_moves hreach (hreach.step hs).sound.records ((Steady.step hs).kind_eq hlt)
      (step_moves hreach hs hlt htop) with h1 | ⟨h1, hp'⟩
    · exact h1
    · exact absurd h1 (hkeep p (destroys_of_gone hreach hs h1 hp'))

theorem polls_pollWait (h : CoroId) (u : State) : (u.pollWait h).Polls h := by
  refine ⟨.inl ?_, ?_⟩
  · simp [pollWait, State.setBody, State.suspend, State.setPlace, State.pop, modCoro, modEv]
  · simp [pollWait, State.setBody, State.suspend, State.setPlace, State.pop, modCoro, modEv, Place.unfinished]

theorem not_polls_finish {u : State} (hc : Coherent u) {h : CoroId} {rest : List Activation}
    (hst : u.stack = .run h :: rest) {out : Option ℕ} (hs : u.finish h out = .ok s') : ¬ s'.Polls h := by
  intro h1
  have hu := h1.2
  rw [place_finish hc hst hs] at hu
  cases hu

theorem poll_polls {c : Choice} (hreach : Reachable s) (hkeep : s.KeepsPoller c) (hs : State.step s c = .ok s')
    {h : CoroId} {rest : List Activation} (hst : s.stack = .run h :: rest) (hk : (s.coros h).body.kind = .poll) :
    PollStep s s' := by
  have hc : Coherent s := hreach.sound.coherent hst (by simp)
  have hrun := hc.placed.place_of_top hst
  obtain ⟨pc, hb⟩ : ∃ pc, (s.coros h).body = .poll pc := by
    cases hb : (s.coros h).body <;> simp_all [Body.kind]
  have hother : ∀ p, p ≠ h → (s'.Polls p ↔ s.Polls p) := by
    intro p hp
    refine polls_aside hreach hs hkeep.2 fun a rest' hst' ha => hp ?_
    rw [hst] at hst'
    cases hst'
    exact (Option.some.inj ha).symm
  have hsame : (s'.Polls h ↔ s.Polls h) → ∀ p, s'.Polls p ↔ s.Polls p := by
    intro hP p
    by_cases hp : p = h
    · exact hp ▸ hP
    · exact hother p hp
  have hs0 := hs
  rw [step_run hst] at hs
  unfold State.bodyStep at hs
  rw [hb] at hs
  simp only at hs
  split at hs
  · -- it begins
    have hno : ¬ s.Polls h := fun h1 => by simpa [hb] using h1.1
    unfold State.pollBegin at hs
    split at hs
    · exact .same (requests_finish hs) (hsame (iff_of_false (not_polls_finish hc hst hs) hno))
    · rename_i hreq
      cases hs
      refine .enters h (by simpa using hreq) rfl fun p => ?_
      by_cases hp : p = h
      · subst hp
        exact iff_of_true (polls_pollWait ..) (.inr rfl)
      · rw [hother p hp]
        simp [hp]
  · -- its handler returns
    rename_i stop
    have hpoll : s.Polls h := ⟨.inr hb, by rw [hrun]; rfl⟩
    cases stop with
    | true =>
      refine .stops h hpoll (requests_finish hs) ((returned_finish hs).mpr (.inl ⟨rfl, rfl⟩)) fun p => ?_
      have hc1 : Coherent (s.modEv fun ev => { ev with pollingRequests := false }) := hc.modEv rfl rfl rfl rfl rfl
      by_cases hp : p = h
      · subst hp
        exact iff_of_false (not_polls_finish hc1 hst hs) fun h1 => h1.2 rfl
      · rw [hother p hp]
        simp [hp]
    | false =>
      cases hs
      exact .same rfl (hsame (iff_of_true (polls_pollWait ..) hpoll))
  · exact absurd rfl (hkeep.1 h (by rw [hst]; rfl) ⟨.inr hb, by rw [hrun]; rfl⟩)
  · -- the handler does something else
    have hlt : h < s.nextCoro := hc.placed.lt_nextCoro (by rw [hrun]; simp)
    have hdoes : Does (fun y => y ≠ h) s s' := .userStep (by simp) hs
    refine .same (requests_userStep hs) (hsame ?_)
    rcases polls_moves hreach (hreach.step hs0).sound.records ((Steady.step hs0).kind_eq hlt) (hdoes.moves hlt) with
      h1 | ⟨h1, hp'⟩
    · exact h1
    · exact absurd h1 (hkeep.2 h (destroys_of_gone hreach hs0 h1 hp'))
  · cases hs

theorem step_polls {c : Choice} (hreach : Reachable s) (hkeep : s.KeepsPoller c) (hs : State.step s c = .ok s') :
    PollStep s s' := by
  by_cases htop : ∃ h rest, s.stack = .run h :: rest ∧ (s.coros h).body.kind = .poll
  · obtain ⟨h, rest, hst, hk⟩ := htop
    exact poll_polls hreach hkeep hs hst hk
  · have hreq : s'.ev.pollingRequests = s.ev.pollingRequests := by
      refine (step_requests hs).resolve_right ?_
      rintro ⟨h, rest, hst, ⟨hb, -⟩ | ⟨hb, -⟩⟩ <;> exact htop ⟨h, rest, hst, by rw [hb]; rfl⟩
    refine .same hreq fun p => ?_
    by_cases hact : ∃ a rest, s.stack = a :: rest ∧ a.subject = some p
    · -- what acts is no call of `poll`, or has ended
      obtain ⟨a, rest, hst, ha⟩ := hact
      cases a with
      | run x =>
        obtain rfl : x = p := Option.some.inj ha
        have hk : (s.coros x).body.kind ≠ .poll := fun hk => htop ⟨x, rest, hst, hk⟩
        have hlt : x < s.nextCoro := hreach.placed.lt_nextCoro (by rw [hreach.sound.place_of_top hst]; simp)
        exact iff_of_false (fun h1 => hk (((Steady.step hs).kind_eq hlt).symm.trans h1.kind)) fun h1 => hk h1.kind
      | finalSuspend x =>
        obtain rfl : x = p := Option.some.inj ha
        have hp : (s.coros x).place = .final := hreach.placed.final x (by rw [hst]; exact List.mem_cons_self)
        obtain rfl := step_finalSuspend hst hs
        refine iff_of_false (fun h1 => ?_) fun h1 => ?_
        · have hu := h1.2
          simp [State.finalReturn, State.setPlace, modCoro, Place.unfinished] at hu
        · have hu := h1.2
          rw [hp] at hu
          cases hu
      | _ => cases ha
    · exact polls_aside hreach hs hkeep.2 fun a rest hst ha => hact ⟨a, rest, hst, ha⟩

/-! ### One at a time -/

/-- At most one call of `poll` is active; `_polling_requests` tells whether one is, and `_polling_handle` is the one
that waits for a response. -/
structure OnePoll (s : State) : Prop where
  one : ∀ p q, s.Polls p → s.Polls q → p = q
  requests : s.ev.pollingRequests = true ↔ ∃ p, s.Polls p
  handle : ∀ p, s.ev.pollingHandle = some p → s.Polls p ∧ (s.coros p).place = .atGeneric

namespace OnePoll

theorem init (hi : State.Initial s) : OnePoll s := by
  have hno : ∀ p, ¬ s.Polls p := fun p h1 => by
    have hk := h1.kind
    cases hi <;> by_cases hp : p = 0 <;> simp [State.init, initFailed, blank, hp, Body.kind] at hk
  refine ⟨fun p _ hp => absurd hp (hno p), ?_, fun p hp => ?_⟩
  · refine iff_of_false ?_ (not_exists.mpr hno)
    cases hi <;> simp [State.init, initFailed, blank]
  · cases hi <;> cases hp

theorem handle_step (h : OnePoll s) {c : Choice} (hreach : Reachable s) (hkeep : s.KeepsPoller c)
    (hs : State.step s c = .ok s') {p : CoroId} (hp : s'.ev.pollingHandle = some p) :
    s'.Polls p ∧ (s'.coros p).place = .atGeneric := by
  obtain ⟨-, hb, hplace⟩ := (hreach.step hs).sound.records.polling p hp
  suffices hg : (s'.coros p).place ≠ .gone by
    have h1 := hplace.resolve_right hg
    exact ⟨⟨.inl hb, by rw [h1]; rfl⟩, h1⟩
  intro hgone
  rcases step_handle hs with (hnone | hsame) | ⟨x, rest, hst, hx⟩
  · rw [hnone] at hp
    cases hp
  · have hpoll := (h.handle p (hsame.symm.trans hp)).1
    exact hkeep.2 p (destroys_of_gone hreach hs hpoll hgone) hpoll
  · -- what runs does not go
    obtain rfl : x = p := Option.some.inj (hx.symm.trans hp)
    have hrun := hreach.sound.place_of_top hst
    rcases (step_tasks hreach.sound hreach.killing hs).gone hgone with h1 | h1 | ⟨v, hl⟩
    · rw [show (s.coros x).place = _ from h1] at hrun
      cases hrun
    · rw [show (s.coros x).place = _ from h1] at hrun
      cases hrun
    · obtain ⟨rest', hst'⟩ := stack_of_registered hl
      rw [hst] at hst'
      cases hst'

theorem step (h : OnePoll s) {c : Choice} (hreach : Reachable s) (hkeep : s.KeepsPoller c)
    (hs : State.step s c = .ok s') : OnePoll s' := by
  have hhandle : ∀ p, s'.ev.pollingHandle = some p → s'.Polls p ∧ (s'.coros p).place = .atGeneric :=
    fun p hp => h.handle_step hreach hkeep hs hp
  cases step_polls hreach hkeep hs with
  | same hreq hiff =>
    refine ⟨fun p q hp hq => h.one p q ((hiff p).mp hp) ((hiff q).mp hq), ?_, hhandle⟩
    rw [hreq, h.requests]
    exact exists_congr fun p => (hiff p).symm
  | enters x hno hreq hiff =>
    have hnone : ∀ p, ¬ s.Polls p := fun p hp => by
      rw [h.requests.mpr ⟨p, hp⟩] at hno
      cases hno
    have heq : ∀ p, s'.Polls p → p = x := fun p hp => ((hiff p).mp hp).resolve_left (hnone p)
    refine ⟨fun p q hp hq => (heq p hp).trans (heq q hq).symm, ?_, hhandle⟩
    exact iff_of_true hreq ⟨x, (hiff x).mpr (.inr rfl)⟩
  | stops x hx hreq _ hiff =>
    have hnone : ∀ p, ¬ s'.Polls p := fun p hp => ((hiff p).mp hp).2 (h.one p x ((hiff p).mp hp).1 hx)
    refine ⟨fun p _ hp => absurd hp (hnone p), ?_, hhandle⟩
    rw [hreq]
    exact iff_of_false (by simp) (not_exists.mpr hnone)

end OnePoll

/-- A call of `poll` that begins is turned away where `_polling_requests` is set, and becomes active where it is not. -/
theorem poll_begins {c : Choice} (hreach : Reachable s) (hs : State.step s c = .ok s') {h : CoroId}
    {rest : List Activation} (hst : s.stack = .run h :: rest) (hb : (s.coros h).body = .poll .begin) :
    (Event.returned h (some (u64 (-1))) ∈ s'.trace ↔ s.ev.pollingRequests = true) ∧
      (s.ev.pollingRequests = false → s'.Polls h) := by
  have hfresh : Event.returned h (some (u64 (-1))) ∉ s.trace := by
    intro hm
    refine hreach.history.1.unfinished h _ ?_ (List.mem_filter.mpr ⟨hm, rfl⟩)
    show (s.coros h).place.unfinished = true
    rw [hreach.sound.place_of_top hst]
    rfl
  rw [step_run hst] at hs
  unfold State.bodyStep at hs
  rw [hb] at hs
  cases c with
  | tau =>
    simp only [State.pollBegin] at hs
    split at hs
    · rename_i hreq
      rw [hreq]
      exact ⟨iff_of_true ((returned_finish hs).mpr (.inl ⟨rfl, rfl⟩)) rfl, by simp⟩
    · rename_i hreq
      cases hs
      exact ⟨iff_of_false hfresh hreq, fun _ => polls_pollWait ..⟩
  | _ => cases hs

end State

/-- **One call of `poll` at a time**, in every run in which no handler throws and no active call is destroyed: at
most one is active, `_polling_handle` is set only while that one waits for a response, a call returns -1 exactly
when another is active where it begins and is active from there on otherwise, and where an active one ends both
members are reset. -/
theorem one_poll {s : State} (h : Reach State.KeepsPoller s) :
    (∀ p q, s.Polls p → s.Polls q → p = q) ∧
    (∀ p, s.ev.pollingHandle = some p → s.Polls p ∧ (s.coros p).place = .atGeneric) ∧
    (∀ p rest c s', s.stack = .run p :: rest → (s.coros p).body = .poll .begin → State.step s c = .ok s' →
      (Event.returned p (some (u64 (-1))) ∈ s'.trace ↔ ∃ q, s.Polls q) ∧ ((¬ ∃ q, s.Polls q) → s'.Polls p)) ∧
    ∀ p c s', s.Polls p → s.KeepsPoller c → State.step s c = .ok s' → ¬ s'.Polls p →
      Event.returned p (some 0) ∈ s'.trace ∧ s'.ev.pollingRequests = false ∧ s'.ev.pollingHandle = none := by
  have hone : s.OnePoll := by
    refine h.inv_of (J := fun s => Reachable s) (fun s hr => hr.reachable) (fun s hi => .init hi) ?_
    exact fun s c s' hreach ho hkeep hs => ho.step hreach hkeep hs
  refine ⟨hone.one, hone.handle, fun p rest c s' hst hb hs => ?_, fun p c s' hp hkeep hs hp' => ?_⟩
  · obtain ⟨h1, h2⟩ := poll_begins h.reachable hs hst hb
    rw [← hone.requests]
    exact ⟨h1, fun hno => h2 (by simpa using hno)⟩
  · have hone' := hone.step h.reachable hkeep hs
    cases step_polls h.reachable hkeep hs with
    | same _ hiff => exact absurd ((hiff p).mpr hp) hp'
    | enters x _ _ hiff => exact absurd ((hiff p).mpr (.inl hp)) hp'
    | stops x hx hreq hret hiff =>
      obtain rfl := hone.one p x hp hx
      refine ⟨hret, hreq, ?_⟩
      cases hq : s'.ev.pollingHandle with
      | none => rfl
      | some q =>
        have hany := hone'.requests.mpr ⟨q, (hone'.handle q hq).1⟩
        rw [hreq] at hany
        cases hany

/-- The handler of a call of `poll` calls `poll`. -/
theorem one_poll_nested : ∃ s s' : State, State.step s .tau = .ok s' ∧ s.Polls 1 ∧
    Event.returned 2 (some (u64 (-1))) ∈ s'.trace := by
  have he : ((exec State.step State.KeepsPoller (init 4)
    [.user (.na (.read {}) 1), .user .poll, .user (.startTask 0), .tau,
      .tau, .user .start, .message 0, .cqe 0 8 0, .tau, .message 0, .user .poll, .user (.startTask 1)]).bind fun s =>
        (State.step s .tau).toOption.map fun _ => decide (s.stack.head? = some (.run 2) ∧
          (s.coros 2).body = .poll .begin ∧ s.Polls 1)) = some true := by decide
  obtain ⟨s, s', hr, hs, hp⟩ := Run.exists_step_of_exec he
  obtain ⟨htop, hb, hpoll⟩ := of_decide_eq_true hp
  obtain ⟨rest, hst⟩ : ∃ rest, s.stack = .run 2 :: rest := ⟨s.stack.tail, (List.cons_head?_tail htop).symm⟩
  obtain ⟨-, -, hbegins, -⟩ := one_poll ⟨init 4, .up 4, hr⟩
  exact ⟨s, s', hs, hpoll, (hbegins 2 rest .tau s' hst hb hs).1.mpr ⟨1, hpoll⟩⟩

/-- The handler of the only call of `poll` throws, and `_polling_requests` stays set. -/
theorem one_poll_fails : ¬ ∀ s, Reachable s →
    (∀ p q, s.Polls p → s.Polls q → p = q) ∧
    (∀ p, s.ev.pollingHandle = some p → s.Polls p ∧ (s.coros p).place = .atGeneric) ∧
    (∀ p rest c s', s.stack = .run p :: rest → (s.coros p).body = .poll .begin → State.step s c = .ok s' →
      (Event.returned p (some (u64 (-1))) ∈ s'.trace ↔ ∃ q, s.Polls q) ∧ ((¬ ∃ q, s.Polls q) → s'.Polls p)) ∧
    ∀ p c s', s.Polls p → State.step s c = .ok s' → ¬ s'.Polls p →
      s'.ev.pollingRequests = false ∧ s'.ev.pollingHandle = none := by
  intro hall
  have he : ((exec State.step (fun _ _ => True) (init 4)
    [.user (.na (.read {}) 1), .user .poll, .user (.startTask 0), .tau,
      .tau, .user .start, .message 0, .cqe 0 8 0, .tau, .message 0]).bind fun s =>
        (State.step s (.user .throw)).toOption.map fun s' => decide (s.Polls 1 ∧ ¬ s'.Polls 1 ∧
          s'.ev.pollingRequests = true)) = some true := by decide
  obtain ⟨s, s', hr, hs, hp⟩ := Run.exists_step_of_exec he
  obtain ⟨hpoll, hpoll', hreq⟩ := of_decide_eq_true hp
  have h1 := ((hall s ⟨init 4, .up 4, hr⟩).2.2.2 1 (.user .throw) s' hpoll hs hpoll').1
  rw [hreq] at h1
  cases h1

end EvManager
