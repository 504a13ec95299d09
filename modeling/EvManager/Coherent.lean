import EvManager.Persist

/-!
# The coherence of a program's state

`Coherent` puts the four invariants together: the places fit the stack, the tasks the coroutines, the awaiters
what they await, and the records those who wait for them.  **Every step keeps it**, but for the moment at which
an `await_suspend` has recorded its coroutine and is about to submit: then it holds of the state below.
-/

namespace EvManager

open Lib State ErrorProcessing

structure Coherent (s : State) : Prop where
  placed : Placed s
  linked : Linked s
  awaits : Awaits s
  records : Records s

theorem Body.fits_running_of_atTask {b : Body} {t : TaskRef} {h : CoroId} {armed : Bool}
    (hb : b.fits (.atTask t h armed) = true) : b.fits .running = true := by
  cases b <;> simp_all [Body.fits, Body.kind, Body.waiting]

namespace Coherent

variable {s s' : State} {h : CoroId} {rest : List Activation}

theorem push (hc : Coherent s) {a : Activation} (hsub : a.subject = none) (haw : a.awaiting = none)
    (hio : ∀ h r, a ≠ .ioSubmit h r) : Coherent (s.push a) :=
  ⟨hc.placed.push hsub, hc.linked.push a, hc.awaits.push haw hio, hc.records.push a⟩

theorem pop (hc : Coherent s) : Coherent s.pop := ⟨hc.placed.pop, hc.linked.pop, hc.awaits.pop, hc.records.pop⟩

theorem log (hc : Coherent s) (e : Event) : Coherent (s.log e) :=
  ⟨hc.placed.log e, hc.linked.log e, hc.awaits.log e, hc.records.log e⟩

theorem modPromise (hc : Coherent s) (h : CoroId) {f : Promise → Promise}
    (hptr : ∀ p, (f p).taskStatusPtr = p.taskStatusPtr) (hawaiter : ∀ p, (f p).awaiterHandle = p.awaiterHandle) :
    Coherent (s.modPromise h f) :=
  ⟨hc.placed.modPromise h f, hc.linked.modPromise h hptr, hc.awaits.modPromise h hawaiter,
    hc.records.modPromise h f⟩

theorem setBody (hc : Coherent s) {b : Body} (hrun : (s.coros h).place = .running) (hw : b.waiting = false)
    (hkind : b.kind = (s.coros h).body.kind) : Coherent (s.setBody h b) :=
  ⟨hc.placed.setBody h b, hc.linked.setBody h b, hc.awaits.setBody h b, hc.records.setBody hrun hw hkind⟩

theorem ofRecords (hc : Coherent s) (hr : Records s') (hplace : ∀ h, (s'.coros h).place = (s.coros h).place)
    (hpromise : ∀ h, (s'.coros h).promise = (s.coros h).promise) (hst : s'.statuses = s.statuses)
    (hvars : s'.vars = s.vars) (hstack : s'.stack = s.stack) (hnc : s'.nextCoro = s.nextCoro)
    (hnv : s'.nextVar = s.nextVar) (hkill : s'.ev.killCoroTask = s.ev.killCoroTask)
    (hitems : s'.ev.managedCoroutinesStore.items = s.ev.managedCoroutinesStore.items) : Coherent s' := by
  have hholder : ∀ x, s'.holder x = s.holder x := by
    intro x
    cases x with
    | task t => cases t <;> simp [State.holder, State.task, hvars, hkill]
    | item i => simp [State.holder, ItemStore.get?, hitems]
  refine ⟨hc.placed.of_eq hplace hstack hnc,
    hc.linked.of_eq hholder hplace (fun h => by rw [hpromise]) (fun h => by rw [hst]) hnc hnv,
    hc.awaits.of_eq hplace (fun h => by rw [hpromise]) (fun t e he => .inr ⟨e, ?_, rfl⟩) hstack hnc hnv, hr⟩
  have ht := hholder (.task t)
  exact ht.symm.trans he

theorem free (hc : Coherent s) (ht : ∀ t c b, (s.coros h).place = .atTask t c b → s.Free h)
    (hg : (s.coros h).place ≠ .gone) : s.Free h := by
  by_cases hex : ∃ t c b, (s.coros h).place = .atTask t c b
  · obtain ⟨t, c, b, hp⟩ := hex
    exact ht t c b hp
  · exact hc.awaits.free (fun t c b hp => hex ⟨t, c, b, hp⟩) hg

/-! ### Resuming -/

/-- What `resume` needs to know of the coroutine: if it was not started its tasks now say it was, and if it
awaits a task nobody else is going to resume it. -/
structure Resumable (s : State) (h : CoroId) : Prop where
  started : (s.coros h).place = .initial → ∀ x e, s.holder x = some e → e.handle = some h → e.startedCoro = true
  free : ∀ t c b, (s.coros h).place = .atTask t c b → s.Free h

theorem Resumable.of_place (hi : (s.coros h).place ≠ .initial) (ht : ∀ t c b, (s.coros h).place ≠ .atTask t c b) :
    Resumable s h :=
  ⟨fun hp => absurd hp hi, fun t c b hp => absurd hp (ht t c b)⟩

theorem enter_linked (hc : Coherent s) (hsus : (s.coros h).place.suspended = true) (hr : Resumable s h) :
    Linked (s.enter h) ∧ Awaits (s.enter h) := by
  have hg : (s.coros h).place ≠ .gone := fun he => by simp [he, Place.suspended] at hsus
  refine ⟨(hc.linked.setPlace (.inr hg) (.inr ?_)).push _,
    (hc.awaits.setPlace (.inr (hc.free hr.free hg)) (fun _ => ?_) fun _ _ _ hp => by cases hp).push rfl (by simp)⟩
  · by_cases hi : (s.coros h).place = .initial
    · exact .inr (hr.started hi)
    · exact .inl hi
  · cases hp : (s.coros h).place <;> simp_all [Place.suspended, Place.unfinished]

theorem resume (hc : Coherent s) {cause : Option ReqId} (hr : Resumable s h) (hs : s.resume h cause = .ok s') :
    Coherent s' := by
  have hrec : Records s' := hc.records.resume hs
  have hsus : (s.coros h).place.suspended = true := by
    cases resumes_of_resume hs with
    | enter hp => rcases hp with hp | hp <;> rw [hp] <;> rfl
    | io hp | task hp | batch hp | poll hp => rw [hp]; rfl
  obtain ⟨hl, ha⟩ := hc.enter_linked hsus hr
  cases resumes_of_resume hs with
  | enter => exact ⟨hc.placed.enter hsus, hl, ha, hrec⟩
  | io =>
    refine ⟨(((hc.placed.enter hsus).modPromise ..).modReq ..).log _, .log (.modReq (.modPromise hl h ?_) ..) _,
      .log (.modReq (.modPromise ha h ?_) ..) _, hrec⟩ <;> exact fun _ => rfl
  | task => exact ⟨((hc.placed.enter hsus).setBody ..).log _, (hl.setBody ..).log _, (ha.setBody ..).log _, hrec⟩
  | batch => exact ⟨((hc.placed.enter hsus).log _).setBody .., (hl.log _).setBody .., (ha.log _).setBody .., hrec⟩
  | poll =>
    refine ⟨(((hc.placed.enter hsus).log _).modEv _).setBody .., ((hl.log _).modEv ?_ ?_).setBody ..,
      ((ha.log _).modEv ?_).setBody .., hrec⟩ <;> rfl

/-! ### Tasks -/

theorem setTask_placed (hp : Placed s) (t : TaskRef) (e : EvTask) : Placed (s.setTask t e) := by
  cases t <;> exact ⟨hp.run, hp.final, hp.nodup, hp.fresh⟩

theorem setStarted (hc : Coherent s) {t : TaskRef} {e : EvTask} (he : s.task t = some e) :
    Coherent (s.setTask t { e with startedCoro := true }) :=
  ⟨setTask_placed hc.placed t _, hc.linked.setStarted he, hc.awaits.setStarted he, hc.records.setTask t _⟩

theorem startTask (hc : Coherent s) {t : TaskRef} (hs : s.startTask t = .ok s') : Coherent s' := by
  unfold State.startTask at hs
  obtain ⟨e, he, h1⟩ := bind_ok.mp hs
  rw [need_ok] at he
  split at h1
  · cases h1
    exact hc
  · rename_i hun
    obtain ⟨h, hh, h2⟩ := bind_ok.mp h1
    rw [need_ok] at hh
    have hcoros : (s.setTask t { e with startedCoro := true }).coros = s.coros := by cases t <;> rfl
    have hc1 := hc.setStarted he
    -- the coroutine of a task that was not started is at its beginning
    have hplace := hc.linked.unstarted (.task t) e h he hh (by simpa using hun)
    refine (hc1.push (a := .taskStart t h) rfl rfl (by simp)).resume ⟨fun _ x e' he' hh' => ?_, fun t' c b hp => ?_⟩ h2
    · exact hc.linked.all_started he hh x e' (by cases x <;> exact he') hh'
    · have hp' : (s.coros h).place = .atTask t' c b := hcoros ▸ hp
      rcases hplace with hi | hg
      · rw [hi] at hp'
        cases hp'
      · rw [hg] at hp'
        cases hp'

theorem rethrow (hc : Coherent s) (hs : s.rethrow = .ok s') : Coherent s' := by
  unfold State.rethrow at hs
  split at hs
  · cases hs
    exact hc.pop
  · rename_i t a _ hst
    split at hs
    · rename_i hsus
      cases hs
      obtain ⟨-, hpl⟩ := hc.awaits.suspending t a (by simp [hst])
      obtain ⟨c, hp⟩ : ∃ c, (s.coros a).place = .atTask t c false := by
        rcases hpl with hpl | hg
        · exact hpl
        · rw [hg] at hsus
          cases hsus
      have hp' : (s.pop.coros a).place = .atTask t c false := hp
      have hfits := hc.records.fits a
      rw [hp] at hfits
      have hres : Resumable s.pop a := by
        refine ⟨fun hi => ?_, fun _ _ _ _ => hc.pop.awaits.free_of_suspending hp' (hc.awaits.not_mem_tail hst)⟩
        rw [hp'] at hi
        cases hi
      obtain ⟨hl, ha⟩ := hc.pop.enter_linked hsus hres
      exact ⟨hc.pop.placed.enter hsus, hl, ha, hc.pop.records.enter (Body.fits_running_of_atTask hfits) (by simp [hp'])
        (by simp [hp']) (by simp [hp'])⟩
    · cases hs
  · cases hs
    exact hc

theorem startReturn (hc : Coherent s) {t : TaskRef} (hs : s.startReturn t h = .ok s') : Coherent s' := by
  unfold State.startReturn at hs
  obtain ⟨e, -, h1⟩ := bind_ok.mp hs
  split at h1
  · exact hc.rethrow h1
  · cases h1
    exact hc

/-- A coroutine whose `await_suspend` returns either goes on or is stored where its task ends. -/
theorem awaitSuspendTail (hc : Coherent s) {t : TaskRef} {a : CoroId} (hlt : a < s.nextCoro)
    (hp : (∃ c, (s.coros a).place = .atTask t c false) ∨ (s.coros a).place = .gone)
    (hno : ∀ t', Activation.taskAwait t' a ∉ s.stack) (hs : s.awaitSuspendTail t a = .ok s') : Coherent s' := by
  unfold State.awaitSuspendTail at hs
  obtain ⟨e, he, h1⟩ := bind_ok.mp hs
  rw [need_ok] at he
  split at h1
  · refine hc.resume ⟨fun hi => ?_, fun t' c b hp' => ?_⟩ h1
    · rcases hp with ⟨c, hp⟩ | hp <;> rw [hp] at hi <;> cases hi
    · rcases hp with ⟨c', hp⟩ | hp
      · exact hc.awaits.free_of_suspending hp hno
      · rw [hp] at hp'
        cases hp'
  · obtain ⟨h, hh, h2⟩ := bind_ok.mp h1
    rw [need_ok] at hh
    cases h2
    have hp2 : (s.coros a).place = .atTask t h false ∨ (s.coros a).place = .gone := by
      refine hp.imp (fun ⟨c, hp⟩ => ?_) id
      rcases hc.awaits.target a t c false hp e he with hc' | hn
      · rw [hh, Option.some.injEq] at hc'
        rw [hp, hc']
      · rw [hh] at hn
        cases hn
    have hrun : Activation.run a ∉ s.stack ∧ Activation.finalSuspend a ∉ s.stack :=
      hc.placed.not_mem (by rcases hp2 with hp | hp <;> simp [hp]) (by rcases hp2 with hp | hp <;> simp [hp])
    refine ⟨(hc.placed.modPromise h _).setPlace hlt hrun.1 hrun.2, ?_, hc.awaits.setAwaiter hlt hp2 hno,
      hc.records.setAwaiter (hp.imp (fun ⟨c, hp⟩ => ⟨t, c, hp⟩) id)⟩
    have hl1 := hc.linked.modPromise h (f := fun p => { p with awaiterHandle := some a }) fun _ => rfl
    have hplace : ((s.modPromise h fun p => { p with awaiterHandle := some a }).coros a).place = (s.coros a).place := by
      by_cases ha : a = h
      · subst ha
        simp [State.modPromise, State.modCoro]
      · simp [State.modPromise, State.modCoro, ha]
    refine hl1.setPlace ?_ ?_ <;> rw [hplace] <;> rcases hp2 with hp | hp <;> simp [hp, Place.arm]

theorem atTask (hc : Coherent s) {a : CoroId} {t : TaskRef} {e : EvTask} (hst : s.stack = .run a :: rest)
    (hb : (s.coros a).body.kind = .user ∨ (s.coros a).body = .kill none) (he : s.task t = some e)
    (hh : e.handle = some h) : Coherent (s.suspend a (.atTask t h false)) := by
  have hrun := hc.placed.place_of_top hst
  have hvar : ∀ v, t = .var v → v < s.nextVar := by
    rintro v rfl
    by_contra hle
    have hn := hc.linked.varFresh v (not_lt.mp hle)
    simp only [State.task] at he
    rw [hn] at he
    cases he
  refine ⟨hc.placed.suspend hst, (hc.linked.setPlace (.inr (by simp [hrun])) (.inr (.inl (by simp [hrun])))).pop,
    (hc.awaits.setPlace (.inr (hc.awaits.free (by simp [hrun]) (by simp [hrun]))) (fun _ => ?_)
      fun t' c b ht => ?_).pop, hc.records.suspend hrun ?_ (by simp) (by simp)⟩
  · rw [hrun]
    rfl
  · cases ht
    refine ⟨fun e' he' => .inl ?_, hvar⟩
    rw [he] at he'
    cases he'
    exact hh
  · simpa [Body.fits] using hb

theorem not_suspending (hc : Coherent s) {a : CoroId} (hst : s.stack = .run a :: rest) (p : Place) (t : TaskRef) :
    Activation.taskAwait t a ∉ (s.suspend a p).stack := by
  intro hm
  have hrun := hc.placed.place_of_top hst
  have hm' : Activation.taskAwait t a ∈ s.stack := List.mem_of_mem_tail hm
  rcases (hc.awaits.suspending t a hm').2 with ⟨c, hp⟩ | hp <;> rw [hrun] at hp <;> cases hp

theorem atTask_push (hc : Coherent s) {a : CoroId} {t : TaskRef} {e : EvTask} (hst : s.stack = .run a :: rest)
    (hb : (s.coros a).body.kind = .user ∨ (s.coros a).body = .kill none) (he : s.task t = some e)
    (hh : e.handle = some h) : Coherent ((s.suspend a (.atTask t h false)).push (.taskAwait t a)) := by
  have hc1 := hc.atTask hst hb he hh
  have hp1 : ((s.suspend a (.atTask t h false)).coros a).place = .atTask t h false := by
    simp [State.suspend, State.setPlace, State.modCoro, State.pop]
  exact ⟨hc1.placed.push rfl, hc1.linked.push _, hc1.awaits.pushTaskAwait hp1 (hc.placed.lt_of_top hst)
    (hc.not_suspending hst _), hc1.records.push _⟩

theorem awaitTask (hc : Coherent s) {a : CoroId} {t : TaskRef} (hst : s.stack = .run a :: rest)
    (hb : (s.coros a).body.kind = .user ∨ (s.coros a).body = .kill none) (hs : s.awaitTask a t = .ok s') :
    Coherent s' := by
  unfold State.awaitTask at hs
  obtain ⟨e, he, h1⟩ := bind_ok.mp hs
  obtain ⟨h, hh, h2⟩ := bind_ok.mp h1
  rw [need_ok] at he hh
  have hp1 : ((s.suspend a (.atTask t h false)).coros a).place = .atTask t h false := by
    simp [State.suspend, State.setPlace, State.modCoro, State.pop]
  simp only at h2
  split at h2
  · exact (hc.atTask hst hb he hh).awaitSuspendTail (hc.placed.lt_of_top hst) (.inl ⟨h, hp1⟩)
      (hc.not_suspending hst _) h2
  · exact startTask (hc.atTask_push hst hb he hh) h2

/-! ### The ends of coroutines -/

/-- The state in which the awaiter of `h` is resumed. -/
theorem endBody (hc : Coherent s) (hst : s.stack = .run h :: rest) {out : Option ℕ} :
    Coherent (s.endBody h out) := by
  have hrun := hc.placed.place_of_top hst
  have hplace : ((s.destroyLocals h).coros h).place = .running := by
    obtain ⟨vars, coros, heq, hstill⟩ := Records.destroyLocals_eq h s
    rw [heq]
    exact (hstill h).place.trans hrun
  refine ⟨((hc.placed.destroyLocals h).toFinal (by simpa using hst)).log _, ?_, ?_,
    (((hc.records.endFrame (.inl rfl) fun _ => hrun).pop).push _).log _⟩
  · exact ((((hc.linked.destroyLocals h).setPlace (.inr (by simp [hplace])) (.inr (.inl (by simp [hplace])))).pop).push
      _).log _
  · have hfree := (hc.awaits.destroyLocals h).free (h := h) (by simp [hplace]) (by simp [hplace])
    exact ((((hc.awaits.destroyLocals h).setPlace (p := .final) (.inr hfree) (fun hu => by cases hu)
      fun _ _ _ hp => by cases hp).pop).push (a := .finalSuspend h) rfl (by simp)).log _

/-- The places and awaiters at the end of the body of `h`. -/
theorem endBody_coros (h : CoroId) (out : Option ℕ) (s : State) (x : CoroId) :
    ((s.endBody h out).coros x).place = (if x = h then .final else (s.coros x).place) ∧
      ((s.endBody h out).coros x).promise.awaiterHandle = (s.coros x).promise.awaiterHandle := by
  have hd : ((s.destroyLocals h).coros x).place = (s.coros x).place ∧
      ((s.destroyLocals h).coros x).promise.awaiterHandle = (s.coros x).promise.awaiterHandle := by
    have hf : ∀ (vs : List VarId) (s : State),
        ((vs.foldl (fun s v => s.destroyTask v) s).coros x).place = (s.coros x).place ∧
        ((vs.foldl (fun s v => s.destroyTask v) s).coros x).promise.awaiterHandle =
          (s.coros x).promise.awaiterHandle := by
      intro vs
      induction vs with
      | nil => exact fun _ => ⟨rfl, rfl⟩
      | cons v vs ih =>
        intro s
        obtain ⟨coros, heq, hcor⟩ := s.destroyTask_eq v
        refine ⟨(ih _).1.trans ?_, (ih _).2.trans ?_⟩ <;> simp only [heq] <;>
          rcases hcor x with hx | ⟨hx, -⟩ <;> simp [hx, Coro.orphan]
    exact hf _ s
  by_cases hx : x = h
  · subst hx
    simp [State.endBody, State.log, State.push, State.pop, State.setPlace, State.modCoro, hd.2]
  · simp [State.endBody, State.log, State.push, State.pop, State.setPlace, State.modCoro, hx, hd]

theorem returnValue (hc : Coherent s) (h : CoroId) (code : ℕ) : Coherent (s.returnValue h code) := by
  refine ⟨?_, hc.linked.returnValue h code, hc.awaits.returnValue h code, hc.records.returnValue h code⟩
  unfold State.returnValue
  split
  · exact ⟨hc.placed.run, hc.placed.final, hc.placed.nodup, hc.placed.fresh⟩
  · exact hc.placed

/-- **The body of the running coroutine ends**, and its awaiter goes on. -/
theorem finish (hc : Coherent s) {out : Option ℕ} (hst : s.stack = .run h :: rest) (hs : s.finish h out = .ok s') :
    Coherent s' := by
  -- storing the result leaves the coroutines as they were, but for the exception
  obtain ⟨hc1, haw⟩ : Coherent (s.storeResult h out) ∧
      ((s.storeResult h out).coros h).promise.awaiterHandle = (s.coros h).promise.awaiterHandle := by
    cases out with
    | none =>
      refine ⟨hc.modPromise h (f := fun p => { p with exceptionPtr := true }) (fun _ => rfl) fun _ => rfl, ?_⟩
      simp [State.storeResult, State.modPromise, State.modCoro]
    | some code =>
      refine ⟨hc.returnValue h code, ?_⟩
      unfold State.storeResult State.returnValue
      simp only
      split <;> rfl
  have hst1 : (s.storeResult h out).stack = .run h :: rest := (s.stack_storeResult h out).trans hst
  have hrun := hc1.placed.place_of_top hst1
  have hc2 : Coherent ((s.storeResult h out).endBody h out) := hc1.endBody hst1
  rcases finish_ok hs with ⟨a, ha, hs1⟩ | ⟨-, rfl⟩
  · generalize s.storeResult h out = s1 at *
    have hah : (s1.coros h).promise.awaiterHandle = some a := haw.trans ha
    have hpl := hc1.awaits.awaiter h a hah (by rw [hrun]; rfl)
    have hne : a ≠ h := by
      rintro rfl
      rcases hpl with ⟨t, hp⟩ | hp <;> rw [hrun] at hp <;> cases hp
    have hplace := (endBody_coros h out s1 a).1
    rw [if_neg hne] at hplace
    refine hc2.resume ⟨fun hi => ?_, fun t c b hp => ⟨fun x hx => ?_, fun t' hm => ?_⟩⟩ hs1
    · rw [hplace] at hi
      rcases hpl with ⟨t, hp⟩ | hp <;> rw [hp] at hi <;> cases hi
    · have hg : (s1.coros a).place ≠ .gone := by
        rw [← hplace, hp]
        simp
      rw [(endBody_coros h out s1 x).1]
      rw [(endBody_coros h out s1 x).2] at hx
      split
      · rfl
      · rename_i hxh
        exact (hc1.awaits.free_of_final hah (by rw [hrun]; rfl) hg).1 x hxh hx
    · have hg : (s1.coros a).place ≠ .gone := by
        rw [← hplace, hp]
        simp
      refine (hc1.awaits.free_of_final hah (by rw [hrun]; rfl) hg).2 t' ?_
      rcases List.mem_cons.mp hm with hm | hm
      · cases hm
      · exact List.mem_of_mem_tail (by simpa using hm)
  · exact hc2

theorem finalReturn (hc : Coherent s) (hst : s.stack = .finalSuspend h :: rest) : Coherent (s.pop.finalReturn h) := by
  obtain ⟨hr, hf⟩ := hc.placed.not_mem_tail_final hst
  have hp : (s.coros h).place = .final := hc.placed.final h (by simp [hst])
  refine ⟨?_, hc.pop.linked.finalReturn, hc.pop.awaits.finalReturn, hc.pop.records.finalReturn hp⟩
  have h1 := hc.pop.placed.toGone hr hf
  unfold State.finalReturn
  simp only
  split
  · exact ⟨h1.run, h1.final, h1.nodup, h1.fresh⟩
  · exact h1

theorem call (hc : Coherent s) (ctx : Option CoroId) {b : Body} (hb : b.atBegin = true) : Coherent (s.call ctx b) :=
  ⟨hc.placed.call ctx b, hc.linked.call ctx b, hc.awaits.call hc.placed ctx b, hc.records.call hc.placed hb⟩

theorem destroyTask (hc : Coherent s) (v : VarId) : Coherent (s.destroyTask v) :=
  ⟨hc.placed.destroyTask v, hc.linked.destroyTask v, hc.awaits.destroyTask v, hc.records.destroyTask v⟩

theorem destroyCoro (hc : Coherent s) (hs : s.destroyCoro h = .ok s') : Coherent s' := by
  have hr := hc.records.destroyCoro hs
  unfold State.destroyCoro at hs
  split at hs
  · rename_i hsus
    cases hs
    obtain ⟨hnr, hnf⟩ := hc.placed.not_mem (h := h) (fun he => by simp [he, Place.suspended] at hsus)
      fun he => by simp [he, Place.suspended] at hsus
    exact ⟨(hc.placed.destroyLocals h).toGone (by simpa using hnr) (by simpa using hnf),
      (hc.linked.destroyLocals h).setPlace (.inl rfl) (.inl rfl),
      (hc.awaits.destroyLocals h).setPlace (.inl rfl) (fun hu => by cases hu) (fun _ _ _ hp => by cases hp), hr⟩
  · cases hs

end Coherent

end EvManager
