import EvManager.Awaits

/-!
# Request records and who they answer

`Records`: every coroutine is at a place its function can be at; a record with a handle answers a coroutine that
waits for it, be it at the `co_await` of the record itself, in a batch or in `poll`; and whatever address a slot
of the ring holds is that of a record which was given to the ring.
-/

namespace EvManager

open Lib State

/-! ### Bodies and places -/

/-- The function is at its beginning. -/
def Body.atBegin : Body → Bool
  | .user => true
  | .killInternal pc => pc = .begin
  | .kill ret => ret = none
  | .submitAndWait _ l => l = {}
  | .poll pc => pc = .begin

/-- The function waits for a response. -/
def Body.waiting : Body → Bool
  | .submitAndWait _ l => match l.pc with
    | .await _ => true
    | _ => false
  | .poll pc => pc = .waiting
  | _ => false

/-- A coroutine with this body may be at the place. -/
def Body.fits (b : Body) : Place → Bool
  | .initial => b.atBegin
  | .running | .final => !b.waiting
  | .atIo _ => b.kind = .user
  | .atTask .. => b.kind = .user ∨ b = .kill none
  | .atGeneric => b.waiting
  | .atAlways => b = .killInternal .wait
  | .gone => true

/-- A body that awaited a task goes on. -/
theorem Body.fits_taskReturned {b : Body} {t : TaskRef} {h : CoroId} {armed : Bool} (code : ℕ)
    (hb : b.fits (.atTask t h armed) = true) : (b.taskReturned code).fits .running = true := by
  cases b <;> simp_all [Body.fits, Body.kind, Body.taskReturned, Body.waiting]

theorem Body.not_waiting_of_atBegin {b : Body} (hb : b.atBegin = true) : b.waiting = false := by
  cases b with
  | user | killInternal | kill => rfl
  | submitAndWait q l =>
    simp only [Body.atBegin, decide_eq_true_eq] at hb
    subst hb
    rfl
  | poll pc =>
    simp only [Body.atBegin, decide_eq_true_eq] at hb
    subst hb
    rfl

/-! ### Records -/

/-- The coroutine `h` is one that the completion of `r` may resume. -/
def State.Serves (s : State) (r : ReqId) (h : CoroId) : Prop :=
  match (s.reqs r).home with
  | .awaitable a => a = some h ∧ (s.coros h).place = .atIo r
  | .vector a => a = h ∧ h < s.nextCoro ∧ (∃ q, (s.coros h).body.kind = .submitAndWait q) ∧
    (s.coros h).place ≠ .initial
  | .heap => h < s.nextCoro ∧ (s.coros h).body.kind = .poll ∧ (s.coros h).place ≠ .initial

/-- Some slot of the ring, or some entry in flight, holds the address of `r`. -/
def State.HasEntry (s : State) (r : ReqId) : Prop := ∃ x, s.ev.ring.Has x ∧ x.sqe.userData = some r

structure Records (s : State) : Prop where
  fits : ∀ h, (s.coros h).body.fits (s.coros h).place = true
  fresh : ∀ r, s.nextReq ≤ r → (s.reqs r).live = false
  owned : ∀ h r, r ∈ (s.coros h).reqs → r < s.nextReq ∧
    ((s.reqs r).home = .awaitable (some h) ∨ (s.reqs r).home = .vector h)
  atIo : ∀ h r, (s.coros h).place = .atIo r → (s.reqs r).live = true ∧ (s.reqs r).home = .awaitable (some h) ∧
    (s.reqs r).data.handle = some h ∧ r ∈ (s.coros h).reqs
  serves : ∀ r h, (s.reqs r).live = true → (s.reqs r).data.handle = some h → s.Serves r h
  polling : ∀ p, s.ev.pollingHandle = some p → p < s.nextCoro ∧ (s.coros p).body = .poll .waiting ∧
    ((s.coros p).place = .atGeneric ∨ (s.coros p).place = .gone)
  entry : ∀ r, s.HasEntry r → r < s.nextReq ∧ ((s.reqs r).home = .heap ∨ (s.reqs r).data.handle ≠ none)
  ready : ∀ x ∈ s.ev.readyRequestsStore, x.2 < s.nextReq ∧ (s.reqs x.2).home = .heap
  dynamic : ∀ r, (s.reqs r).data.allocatedDynamic = true → (s.reqs r).home = .heap

/-- Between `s` and `s'` records have at most ended their lives. -/
structure SameRecords (s s' : State) : Prop where
  data : ∀ r, (s'.reqs r).data = (s.reqs r).data
  home : ∀ r, (s'.reqs r).home = (s.reqs r).home
  live : ∀ r, (s'.reqs r).live = true → (s.reqs r).live = true
  nextReq : s'.nextReq = s.nextReq
  nextCoro : s'.nextCoro = s.nextCoro
  ring : s'.ev.ring = s.ev.ring
  ready : s'.ev.readyRequestsStore = s.ev.readyRequestsStore

/-- A coroutine has the place, the body and the records it had. -/
structure Coro.Still (c c' : Coro) : Prop where
  place : c'.place = c.place
  body : c'.body = c.body
  reqs : c'.reqs = c.reqs

theorem Coro.Still.refl (c : Coro) : c.Still c := ⟨rfl, rfl, rfl⟩

theorem SameRecords.of_reqs {s s' : State} (hreqs : s'.reqs = s.reqs) (hnr : s'.nextReq = s.nextReq)
    (hnc : s'.nextCoro = s.nextCoro) (hring : s'.ev.ring = s.ev.ring)
    (hready : s'.ev.readyRequestsStore = s.ev.readyRequestsStore) : SameRecords s s' := by
  constructor <;> simp [hreqs, hnr, hnc, hring, hready]

namespace Records

variable {s s' : State}

theorem init {s : State} (hi : State.Initial s) : Records s := by
  have hlist : ∀ h, (s.coros h).reqs = [] := by
    intro h
    cases hi <;> by_cases hh : h = 0 <;> simp [State.init, initFailed, blank, hh]
  refine ⟨fun h => ?_, fun r _ => ?_, fun h r hm => ?_, fun h r hp => ?_, fun r h hl => ?_, fun p hp => ?_, ?_,
    fun x hx => ?_, fun r hd => ?_⟩
  · rw [hi.place]
    by_cases hh : h = 0
    · subst hh
      cases hi <;> rfl
    · rw [if_neg hh]
      rfl
  · rw [hi.reqs]
  · rw [hlist] at hm
    cases hm
  · rw [hi.place] at hp
    split at hp <;> cases hp
  · rw [hi.reqs] at hl
    cases hl
  · cases hi <;> cases hp
  · rintro r ⟨x, hx, hu⟩
    obtain rfl : x = {} := by cases hi <;> exact Uring.has_init hx
    cases hu
  · cases hi <;> cases hx
  · rw [hi.reqs] at hd
    cases hd

theorem of_same (hr : Records s) (hsame : SameRecords s s')
    (hfits : ∀ h, (s'.coros h).body.fits (s'.coros h).place = true)
    (hlist : ∀ h, (s'.coros h).reqs = (s.coros h).reqs)
    (hio : ∀ h r, (s'.coros h).place = .atIo r → (s.coros h).place = .atIo r ∧ (s'.reqs r).live = true)
    (hserves : ∀ r h, (s'.reqs r).live = true → s.Serves r h → s'.Serves r h)
    (hpoll : ∀ p, s'.ev.pollingHandle = some p → p < s.nextCoro ∧ (s'.coros p).body = .poll .waiting ∧
      ((s'.coros p).place = .atGeneric ∨ (s'.coros p).place = .gone)) : Records s' := by
  refine ⟨hfits, fun r hle => ?_, fun h r hm => ?_, fun h r hp => ?_, fun r h hl hh => ?_, fun p hp => ?_,
    fun r he => ?_, fun x hx => ?_, fun r hd => ?_⟩
  · rw [← Bool.not_eq_true]
    intro hl
    exact absurd (hsame.live r hl) (by simp [hr.fresh r (hsame.nextReq ▸ hle)])
  · rw [hsame.home, hsame.nextReq]
    exact hr.owned h r (hlist h ▸ hm)
  · obtain ⟨hp, hl⟩ := hio h r hp
    obtain ⟨-, hhome, hh, hm⟩ := hr.atIo h r hp
    exact ⟨hl, by rw [hsame.home, hhome], by rw [hsame.data, hh], hlist h ▸ hm⟩
  · exact hserves r h hl (hr.serves r h (hsame.live r hl) (hsame.data r ▸ hh))
  · rw [hsame.nextCoro]
    exact hpoll p hp
  · have he' : s.HasEntry r := by
      unfold State.HasEntry at he ⊢
      rwa [hsame.ring] at he
    rw [hsame.home, hsame.data, hsame.nextReq]
    exact hr.entry r he'
  · rw [hsame.home, hsame.nextReq]
    exact hr.ready x (hsame.ready ▸ hx)
  · rw [hsame.home]
    exact hr.dynamic r (hsame.data r ▸ hd)

theorem serves_still {r : ReqId} {h : CoroId} (hhome : (s'.reqs r).home = (s.reqs r).home)
    (hnc : s'.nextCoro = s.nextCoro) (hc : (s.coros h).Still (s'.coros h)) (hserves : s.Serves r h) :
    s'.Serves r h := by
  unfold State.Serves at hserves ⊢
  rw [hhome, hnc, hc.place, hc.body]
  exact hserves

theorem still (hr : Records s) (hsame : SameRecords s s') (hc : ∀ h, (s.coros h).Still (s'.coros h))
    (hkeep : ∀ h r, (s.coros h).place = .atIo r → (s'.reqs r).live = true)
    (hpoll : s'.ev.pollingHandle = none ∨ s'.ev.pollingHandle = s.ev.pollingHandle) : Records s' := by
  refine hr.of_same hsame (fun h => ?_) (fun h => (hc h).reqs) (fun h r hp => ?_)
    (fun r h _ => serves_still (hsame.home r) hsame.nextCoro (hc h)) fun p hp => ?_
  · rw [(hc h).body, (hc h).place]
    exact hr.fits h
  · rw [(hc h).place] at hp
    exact ⟨hp, hkeep h r hp⟩
  · rcases hpoll with hn | hsm
    · rw [hn] at hp
      cases hp
    · rw [(hc p).place, (hc p).body]
      exact hr.polling p (hsm ▸ hp)

/-- One coroutine changes its place or its body.  If it comes from the `co_await` of an awaitable that record
is dead now, and a poller that waits goes on waiting or is gone. -/
theorem move (hr : Records s) (hsame : SameRecords s s') {h : CoroId}
    (hother : ∀ x, x ≠ h → (s.coros x).Still (s'.coros x))
    (hfits : (s'.coros h).body.fits (s'.coros h).place = true)
    (hkind : (s'.coros h).body.kind = (s.coros h).body.kind) (hlist : (s'.coros h).reqs = (s.coros h).reqs)
    (hdead : ∀ r, (s.coros h).place = .atIo r → (s'.reqs r).live = false)
    (hkeep : ∀ x r, x ≠ h → (s.coros x).place = .atIo r → (s'.reqs r).live = true)
    (hio : ∀ r, (s'.coros h).place ≠ .atIo r) (hinit : (s'.coros h).place ≠ .initial)
    (hpoll : ∀ p, s'.ev.pollingHandle = some p → p ≠ h ∧ s.ev.pollingHandle = some p ∨
      p < s.nextCoro ∧ (s'.coros p).body = .poll .waiting ∧
        ((s'.coros p).place = .atGeneric ∨ (s'.coros p).place = .gone)) : Records s' := by
  refine hr.of_same hsame (fun x => ?_) (fun x => ?_) (fun x r hp => ?_) (fun r x hl hserves => ?_) fun p hp => ?_
  · by_cases hx : x = h
    · exact hx ▸ hfits
    · rw [(hother x hx).body, (hother x hx).place]
      exact hr.fits x
  · by_cases hx : x = h
    · exact hx ▸ hlist
    · exact (hother x hx).reqs
  · have hx : x ≠ h := by
      rintro rfl
      exact hio r hp
    rw [(hother x hx).place] at hp
    exact ⟨hp, hkeep x r hx hp⟩
  · by_cases hx : x = h
    · subst hx
      unfold State.Serves at hserves ⊢
      rw [hsame.home, hsame.nextCoro]
      cases hhome : (s.reqs r).home with
      | awaitable a =>
        rw [hhome] at hserves
        rw [hdead r hserves.2] at hl
        cases hl
      | vector a =>
        rw [hhome] at hserves
        exact ⟨hserves.1, hserves.2.1, hkind.symm ▸ hserves.2.2.1, hinit⟩
      | heap =>
        rw [hhome] at hserves
        exact ⟨hserves.1, hkind.trans hserves.2.1, hinit⟩
    · exact serves_still (hsame.home r) hsame.nextCoro (hother x hx) hserves
  · rcases hpoll p hp with ⟨hne, hp⟩ | hp
    · rw [(hother p hne).place, (hother p hne).body]
      exact hr.polling p hp
    · exact hp

/-! ### Coroutines that are resumed and suspended -/

theorem push (hr : Records s) (a : Activation) : Records (s.push a) := { hr with }

theorem pop (hr : Records s) : Records s.pop := { hr with }

theorem log (hr : Records s) (e : Event) : Records (s.log e) := { hr with }

theorem modEv (hr : Records s) {f : EventManager → EventManager} (hring : (f s.ev).ring = s.ev.ring)
    (hready : (f s.ev).readyRequestsStore = s.ev.readyRequestsStore)
    (hpoll : (f s.ev).pollingHandle = none ∨ (f s.ev).pollingHandle = s.ev.pollingHandle) : Records (s.modEv f) :=
  hr.still (.of_reqs rfl rfl rfl hring hready) (fun _ => .refl _) (fun h r hp => (hr.atIo h r hp).1) hpoll

theorem modPromise (hr : Records s) (h : CoroId) (f : Promise → Promise) : Records (s.modPromise h f) := by
  refine hr.still (.of_reqs rfl rfl rfl rfl rfl) (fun x => ?_) (fun h r hp => (hr.atIo h r hp).1) (.inr rfl)
  by_cases hx : x = h
  · subst hx
    constructor <;> simp [State.modPromise, State.modCoro]
  · constructor <;> simp [State.modPromise, State.modCoro, hx]

theorem kill (hr : Records s) {r : ReqId} (hno : ∀ h, (s.coros h).place ≠ .atIo r) {f : Request → Request}
    (hl : ∀ q, (f q).live = false) (hd : ∀ q, (f q).data = q.data) (hh : ∀ q, (f q).home = q.home) :
    Records (s.modReq r f) := by
  have hother : ∀ x, x ≠ r → (s.modReq r f).reqs x = s.reqs x := fun x hx => by simp [State.modReq, hx]
  have hself : (s.modReq r f).reqs r = f (s.reqs r) := by simp [State.modReq]
  refine hr.still ⟨fun x => ?_, fun x => ?_, fun x h1 => ?_, rfl, rfl, rfl, rfl⟩ (fun _ => .refl _)
    (fun h x hp => ?_) (.inr rfl)
  · by_cases hx : x = r
    · rw [hx, hself, hd]
    · rw [hother x hx]
  · by_cases hx : x = r
    · rw [hx, hself, hh]
    · rw [hother x hx]
  · by_cases hx : x = r
    · rw [hx, hself, hl] at h1
      cases h1
    · rwa [hother x hx] at h1
  · have hx : x ≠ r := by
      rintro rfl
      exact hno h hp
    rw [hother x hx]
    exact (hr.atIo h x hp).1

/-- The poller that waits is at no other place. -/
theorem polling_ne (hr : Records s) {p h : CoroId} (hp : s.ev.pollingHandle = some p)
    (hwait : (s.coros h).place ≠ .atGeneric) (hgone : (s.coros h).place ≠ .gone) : p ≠ h := by
  rintro rfl
  rcases (hr.polling p hp).2.2 with hpl | hpl
  · exact hwait hpl
  · exact hgone hpl

/-- Two coroutines are never at the same record. -/
theorem atIo_inj (hr : Records s) {h h' : CoroId} {r : ReqId} (hp : (s.coros h).place = .atIo r)
    (hp' : (s.coros h').place = .atIo r) : h = h' := by
  have hhome := (hr.atIo h r hp).2.1
  rw [(hr.atIo h' r hp').2.1] at hhome
  cases hhome
  rfl

/-- A coroutine that is at no `co_await` of an awaitable goes on, with a body that fits. -/
theorem go (hr : Records s) (hsame : SameRecords s s') (hreqs : s'.reqs = s.reqs) {h : CoroId}
    (hother : ∀ x, x ≠ h → s'.coros x = s.coros x)
    (hfits : (s'.coros h).body.fits (s'.coros h).place = true)
    (hkind : (s'.coros h).body.kind = (s.coros h).body.kind) (hlist : (s'.coros h).reqs = (s.coros h).reqs)
    (hno : ∀ r, (s.coros h).place ≠ .atIo r) (hio : ∀ r, (s'.coros h).place ≠ .atIo r)
    (hinit : (s'.coros h).place ≠ .initial)
    (hpoll : s'.ev.pollingHandle = none ∨ s'.ev.pollingHandle = s.ev.pollingHandle ∧
      s.ev.pollingHandle ≠ some h) : Records s' := by
  refine hr.move hsame (fun x hx => by rw [hother x hx]; exact .refl _) hfits hkind hlist
    (fun r hp => absurd hp (hno r)) (fun x r _ hp => by rw [hreqs]; exact (hr.atIo x r hp).1) hio hinit
    fun p hp => .inl ?_
  rcases hpoll with hn | ⟨hsm, hne⟩
  · rw [hn] at hp
    cases hp
  · rw [hsm] at hp
    refine ⟨?_, hp⟩
    rintro rfl
    exact hne hp

theorem ofRunning (hr : Records s) {h : CoroId} (hrun : (s.coros h).place = .running)
    (hsame : SameRecords s s') (hreqs : s'.reqs = s.reqs) (hother : ∀ x, x ≠ h → s'.coros x = s.coros x)
    (hfits : (s'.coros h).body.fits (s'.coros h).place = true)
    (hkind : (s'.coros h).body.kind = (s.coros h).body.kind) (hlist : (s'.coros h).reqs = (s.coros h).reqs)
    (hio : ∀ r, (s'.coros h).place ≠ .atIo r) (hinit : (s'.coros h).place ≠ .initial)
    (hpoll : s'.ev.pollingHandle = none ∨ s'.ev.pollingHandle = s.ev.pollingHandle) : Records s' := by
  refine hr.go hsame hreqs hother hfits hkind hlist (by simp [hrun]) hio hinit ?_
  refine hpoll.imp id fun hsm => ⟨hsm, fun hp => ?_⟩
  exact hr.polling_ne hp (by simp [hrun]) (by simp [hrun]) rfl

theorem setBody (hr : Records s) {h : CoroId} {b : Body} (hrun : (s.coros h).place = .running)
    (hw : b.waiting = false) (hkind : b.kind = (s.coros h).body.kind) : Records (s.setBody h b) := by
  have hself : (s.setBody h b).coros h = { s.coros h with body := b } := by simp [State.setBody, State.modCoro]
  refine hr.ofRunning hrun (.of_reqs rfl rfl rfl rfl rfl) rfl
    (fun x hx => by simp [State.setBody, State.modCoro, hx]) ?_ ?_ ?_ (fun r => ?_) ?_ (.inr rfl)
  · rw [hself, hrun]
    simp [Body.fits, hw]
  · rw [hself, hkind]
  · rw [hself]
  · rw [hself, hrun]
    simp
  · rw [hself, hrun]
    simp

theorem suspend (hr : Records s) {h : CoroId} {p : Place} (hrun : (s.coros h).place = .running)
    (hfits : (s.coros h).body.fits p = true) (hio : ∀ r, p ≠ .atIo r) (hinit : p ≠ .initial) :
    Records (s.suspend h p) := by
  have hself : (s.suspend h p).coros h = { s.coros h with place := p } := by
    simp [State.suspend, State.setPlace, State.modCoro, State.pop]
  refine hr.ofRunning hrun (.of_reqs rfl rfl rfl rfl rfl) rfl
    (fun x hx => by simp [State.suspend, State.setPlace, State.modCoro, State.pop, hx]) ?_ ?_ ?_ (fun r => ?_) ?_
    (.inr rfl)
  · rw [hself]
    exact hfits
  · rw [hself]
  · rw [hself]
  · rw [hself]
    exact hio r
  · rw [hself]
    exact hinit

theorem park (hr : Records s) {h : CoroId} {b : Body} (hrun : (s.coros h).place = .running)
    (hw : b.waiting = true) (hkind : b.kind = (s.coros h).body.kind) :
    Records ((s.setBody h b).suspend h .atGeneric) := by
  have hself : ((s.setBody h b).suspend h .atGeneric).coros h = { s.coros h with body := b, place := .atGeneric } := by
    simp [State.suspend, State.setPlace, State.setBody, State.modCoro, State.pop]
  refine hr.ofRunning hrun (.of_reqs rfl rfl rfl rfl rfl) rfl
    (fun x hx => by simp [State.suspend, State.setPlace, State.setBody, State.modCoro, State.pop, hx]) ?_ ?_ ?_
    (fun r => ?_) ?_ (.inr rfl)
  · rw [hself]
    exact hw
  · rw [hself]
    exact hkind
  · rw [hself]
  · rw [hself]
    simp
  · rw [hself]
    simp

theorem enter (hr : Records s) {h : CoroId} (hfits : (s.coros h).body.fits .running = true)
    (hno : ∀ r, (s.coros h).place ≠ .atIo r) (hwait : (s.coros h).place ≠ .atGeneric)
    (hgone : (s.coros h).place ≠ .gone) : Records (s.enter h) := by
  have hself : (s.enter h).coros h = { s.coros h with place := .running } := by
    simp [State.enter, State.setPlace, State.modCoro, State.push]
  refine hr.go (.of_reqs rfl rfl rfl rfl rfl) rfl
    (fun x hx => by simp [State.enter, State.setPlace, State.modCoro, State.push, hx]) ?_ ?_ ?_ hno (fun r => ?_) ?_
    (.inr ⟨rfl, fun hp => hr.polling_ne hp hwait hgone rfl⟩)
  · rw [hself]
    exact hfits
  · rw [hself]
  · rw [hself]
  · rw [hself]
    simp
  · rw [hself]
    simp

theorem wake (hr : Records s) {h : CoroId} {r : ReqId} (hp : (s.coros h).place = .atIo r) :
    Records ((s.enter h).ioReturn h r) := by
  have hfits : (s.coros h).body.fits .running = true := by
    have hf := hr.fits h
    rw [hp] at hf
    cases hb : (s.coros h).body <;> simp [hb, Body.fits, Body.kind, Body.waiting] at hf ⊢
  have hreq : ∀ x, ((s.enter h).ioReturn h r).reqs x =
      if x = r then { s.reqs r with live := false, held := true } else s.reqs x := by
    intro x
    by_cases hx : x = r
    · subst hx
      simp [State.ioReturn, State.enter, State.push, State.setPlace, State.modCoro, State.modPromise, State.modReq,
        State.log]
    · simp [State.ioReturn, State.enter, State.push, State.setPlace, State.modCoro, State.modPromise, State.modReq,
        State.log, hx]
  have hother : ∀ x, x ≠ h → ((s.enter h).ioReturn h r).coros x = s.coros x := by
    intro x hx
    simp [State.ioReturn, State.enter, State.push, State.setPlace, State.modCoro, State.modPromise, State.modReq,
      State.log, hx]
  have hself : (((s.enter h).ioReturn h r).coros h).place = .running ∧
      (((s.enter h).ioReturn h r).coros h).body = (s.coros h).body ∧
      (((s.enter h).ioReturn h r).coros h).reqs = (s.coros h).reqs := by
    simp [State.ioReturn, State.enter, State.push, State.setPlace, State.modCoro, State.modPromise, State.modReq,
      State.log]
  refine hr.move (h := h) ⟨fun x => ?_, fun x => ?_, fun x hl => ?_, rfl, rfl, rfl, rfl⟩
    (fun x hx => by rw [hother x hx]; exact .refl _) ?_ ?_ hself.2.2 (fun x hx => ?_) (fun x r' hx hx' => ?_)
    (fun x => ?_) ?_ fun p hpoll => .inl ⟨?_, hpoll⟩
  · rw [hreq]
    split
    · rename_i hx
      rw [hx]
    · rfl
  · rw [hreq]
    split
    · rename_i hx
      rw [hx]
    · rfl
  · rw [hreq] at hl
    split at hl
    · cases hl
    · exact hl
  · rw [hself.1, hself.2.1]
    exact hfits
  · rw [hself.2.1]
  · rw [hp] at hx
    cases hx
    simp [hreq]
  · have hne : r' ≠ r := by
      rintro rfl
      exact hx (hr.atIo_inj hx' hp)
    rw [hreq, if_neg hne]
    exact (hr.atIo x r' hx').1
  · rw [hself.1]
    simp
  · rw [hself.1]
    simp
  · exact hr.polling_ne hpoll (by simp [hp]) (by simp [hp])

theorem taskResume (hr : Records s) {h : CoroId} {t : TaskRef} {child : CoroId} {armed : Bool}
    (hp : (s.coros h).place = .atTask t child armed) (hs : (s.enter h).taskResume h t child = .ok s') :
    Records s' := by
  unfold State.taskResume at hs
  obtain ⟨e, -, h1⟩ := bind_ok.mp hs
  cases h1
  have hfits := hr.fits h
  rw [hp] at hfits
  refine hr.go (h := h) (.of_reqs rfl rfl rfl rfl rfl) rfl
    (fun x hx => by simp [State.enter, State.setPlace, State.setBody, State.modCoro, State.push, State.log, hx])
    ?_ ?_ ?_ (by simp [hp]) ?_ ?_ (.inr ⟨rfl, fun hpoll => ?_⟩)
  · simpa [State.enter, State.setPlace, State.setBody, State.modCoro, State.push, State.log] using
      Body.fits_taskReturned _ hfits
  · simp [State.enter, State.setPlace, State.setBody, State.modCoro, State.push, State.log]
  · simp [State.enter, State.setPlace, State.setBody, State.modCoro, State.push, State.log]
  · simp [State.enter, State.setPlace, State.setBody, State.modCoro, State.push, State.log]
  · simp [State.enter, State.setPlace, State.setBody, State.modCoro, State.push, State.log]
  · exact hr.polling_ne hpoll (by simp [hp]) (by simp [hp]) rfl

/-- A batch or the poller is handed a response; the poller is then no longer waiting. -/
theorem genericResume (hr : Records s) {h : CoroId} {cause : Option ReqId} (hp : (s.coros h).place = .atGeneric)
    (hs : (s.enter h).genericResume h cause = .ok s') : Records s' := by
  have hbody : ((s.enter h).coros h).body = (s.coros h).body := by
    simp [State.enter, State.setPlace, State.modCoro, State.push]
  unfold State.genericResume at hs
  simp only at hs
  rw [hbody] at hs
  split at hs
  · rename_i q l hb
    split at hs
    · cases hs
      refine hr.go (h := h) (.of_reqs rfl rfl rfl rfl rfl) rfl
        (fun x hx => by simp [State.enter, State.setPlace, State.setBody, State.modCoro, State.push, State.log, hx])
        ?_ ?_ ?_ (by simp [hp]) ?_ ?_ (.inr ⟨rfl, fun hpoll => ?_⟩)
      · simp [State.enter, State.setPlace, State.setBody, State.modCoro, State.push, State.log, Body.fits, Body.waiting]
      · simp [State.enter, State.setPlace, State.setBody, State.modCoro, State.push, State.log, hb, Body.kind]
      · simp [State.enter, State.setPlace, State.setBody, State.modCoro, State.push, State.log]
      · simp [State.enter, State.setPlace, State.setBody, State.modCoro, State.push, State.log]
      · simp [State.enter, State.setPlace, State.setBody, State.modCoro, State.push, State.log]
      · -- the poller runs `poll`
        have hpb := (hr.polling h hpoll).2.1
        rw [hb] at hpb
        cases hpb
    · cases hs
  · rename_i hb
    cases hs
    refine hr.go (h := h) (.of_reqs rfl rfl rfl rfl rfl) rfl (fun x hx => ?_) ?_ ?_ ?_ (by simp [hp]) ?_ ?_
      (.inl rfl)
    · simp [State.enter, State.setPlace, State.setBody, State.modCoro, State.push, State.log, State.modEv, hx]
    · simp [State.enter, State.setPlace, State.setBody, State.modCoro, State.push, State.log, State.modEv, Body.fits,
        Body.waiting]
    · simp [State.enter, State.setPlace, State.setBody, State.modCoro, State.push, State.log, State.modEv, hb,
        Body.kind]
    · simp [State.enter, State.setPlace, State.setBody, State.modCoro, State.push, State.log, State.modEv]
    · simp [State.enter, State.setPlace, State.setBody, State.modCoro, State.push, State.log, State.modEv]
    · simp [State.enter, State.setPlace, State.setBody, State.modCoro, State.push, State.log, State.modEv]
  · cases hs

theorem resume (hr : Records s) {h : CoroId} {cause : Option ReqId} (hs : s.resume h cause = .ok s') :
    Records s' := by
  have hfits := hr.fits h
  unfold State.resume at hs
  split at hs
  · rename_i hp
    cases hs
    rw [hp] at hfits
    exact hr.enter (by simp [Body.fits, Body.not_waiting_of_atBegin hfits]) (by simp [hp]) (by simp [hp])
      (by simp [hp])
  · rename_i hp
    cases hs
    rw [hp] at hfits
    simp only [Body.fits, decide_eq_true_eq] at hfits
    exact hr.enter (by simp [Body.fits, hfits, Body.waiting]) (by simp [hp]) (by simp [hp]) (by simp [hp])
  · rename_i r hp
    cases hs
    exact hr.wake hp
  · rename_i hp
    exact hr.taskResume hp hs
  · rename_i hp
    exact hr.genericResume hp hs
  all_goals cases hs

/-! ### Tasks and frames -/

theorem setTask (hr : Records s) (t : TaskRef) (e : EvTask) : Records (s.setTask t e) := by
  cases t with
  | var v => exact { hr with }
  | kill =>
    exact hr.still (.of_reqs rfl rfl rfl rfl rfl) (fun _ => .refl _) (fun h r hp => (hr.atIo h r hp).1) (.inr rfl)

theorem returnValue (hr : Records s) (h : CoroId) (code : ℕ) : Records (s.returnValue h code) := by
  unfold State.returnValue
  split
  · exact { hr with }
  · exact hr

theorem destroyTasks_eq (vs : List VarId) (s : State) : ∃ vars coros,
    vs.foldl (fun s v => s.destroyTask v) s = { s with vars := vars, coros := coros } ∧
      ∀ x, (s.coros x).Still (coros x) := by
  induction vs generalizing s with
  | nil => exact ⟨s.vars, s.coros, rfl, fun _ => .refl _⟩
  | cons v vs ih =>
    obtain ⟨coros, heq, hc⟩ := s.destroyTask_eq v
    obtain ⟨vars', coros', heq', hc'⟩ := ih (s.destroyTask v)
    refine ⟨vars', coros', ?_, fun x => ?_⟩
    · rw [List.foldl_cons, heq', heq]
    · have h1 : (s.coros x).Still (coros x) := by
        rcases hc x with hx | ⟨hx, -⟩ <;> rw [hx] <;> exact ⟨rfl, rfl, rfl⟩
      have h2 := hc' x
      rw [heq] at h2
      exact ⟨h2.place.trans h1.place, h2.body.trans h1.body, h2.reqs.trans h1.reqs⟩

theorem destroyTask (hr : Records s) (v : VarId) : Records (s.destroyTask v) := by
  obtain ⟨vars, coros, heq, hc⟩ := destroyTasks_eq [v] s
  rw [List.foldl_cons, List.foldl_nil] at heq
  rw [heq]
  exact hr.still (.of_reqs rfl rfl rfl rfl rfl) hc (fun h r hp => (hr.atIo h r hp).1) (.inr rfl)

/-- What the end of a frame does: tasks and statuses apart, the records in it die. -/
theorem destroyLocals_eq (h : CoroId) (s : State) : ∃ vars coros,
    s.destroyLocals h = { s with
      vars := vars, coros := coros
      reqs := fun r => if r ∈ (s.coros h).reqs then { s.reqs r with live := false, held := false } else s.reqs r } ∧
      ∀ x, (s.coros x).Still (coros x) := by
  obtain ⟨vars, coros, heq, hc⟩ := destroyTasks_eq (s.coros h).vars.reverse s
  refine ⟨vars, coros, ?_, hc⟩
  unfold State.destroyLocals
  simp only [heq]

/-- The frame of `h` ends, the coroutine being final then or gone. -/
theorem endFrame (hr : Records s) {h : CoroId} {p : Place} (hp : p = .final ∨ p = .gone)
    (hw : p = .final → (s.coros h).place = .running) : Records ((s.destroyLocals h).setPlace h p) := by
  obtain ⟨vars, coros, heq, hc⟩ := destroyLocals_eq h s
  have hself : ((s.destroyLocals h).setPlace h p).coros h = { coros h with place := p } := by
    simp [State.setPlace, State.modCoro, heq]
  have hother : ∀ x, x ≠ h → ((s.destroyLocals h).setPlace h p).coros x = coros x := by
    intro x hx
    simp [State.setPlace, State.modCoro, heq, hx]
  have hreq : ∀ r, ((s.destroyLocals h).setPlace h p).reqs r =
      if r ∈ (s.coros h).reqs then { s.reqs r with live := false, held := false } else s.reqs r := by
    intro r
    simp [State.setPlace, State.modCoro, heq]
  have hev : ((s.destroyLocals h).setPlace h p).ev = s.ev := by simp [State.setPlace, State.modCoro, heq]
  refine hr.move (h := h) ⟨fun r => ?_, fun r => ?_, fun r hl => ?_, ?_, ?_, by rw [hev], by rw [hev]⟩
    (fun x hx => by rw [hother x hx]; exact hc x) ?_ ?_ ?_ (fun r hx => ?_) (fun x r hx hx' => ?_) (fun r => ?_) ?_
    fun x hx => ?_
  · rw [hreq]
    split <;> rfl
  · rw [hreq]
    split <;> rfl
  · rw [hreq] at hl
    split at hl
    · cases hl
    · exact hl
  · simp [State.setPlace, State.modCoro, heq]
  · simp [State.setPlace, State.modCoro, heq]
  · rw [hself]
    rcases hp with rfl | rfl
    · have hf := hr.fits h
      rw [hw rfl] at hf
      simpa [(hc h).body, Body.fits] using hf
    · rfl
  · rw [hself]
    simp [(hc h).body]
  · rw [hself]
    simp [(hc h).reqs]
  · rw [hreq, if_pos (hr.atIo h r hx).2.2.2]
  · have hm : r ∉ (s.coros h).reqs := by
      intro hm
      have hhome := (hr.owned h r hm).2
      rw [(hr.atIo x r hx').2.1] at hhome
      rcases hhome with hhome | hhome <;> cases hhome
      exact hx rfl
    rw [hreq, if_neg hm]
    exact (hr.atIo x r hx').1
  · rw [hself]
    rcases hp with rfl | rfl <;> simp
  · rw [hself]
    rcases hp with rfl | rfl <;> simp
  · rw [hev] at hx
    by_cases hxh : x = h
    · -- the poller that waits is not running, so it is gone
      subst hxh
      obtain ⟨hlt, hb, hpl⟩ := hr.polling x hx
      refine .inr ⟨hlt, ?_, ?_⟩
      · rw [hself]
        exact (hc x).body.trans hb
      · rcases hp with rfl | rfl
        · rw [hw rfl] at hpl
          rcases hpl with hpl | hpl <;> cases hpl
        · exact .inr (by rw [hself])
    · exact .inl ⟨hxh, hx⟩

theorem finalReturn (hr : Records s) {h : CoroId} (hp : (s.coros h).place = .final) : Records (s.finalReturn h) := by
  have h1 : Records (s.setPlace h .gone) := by
    refine hr.go (h := h) (.of_reqs rfl rfl rfl rfl rfl) rfl
      (fun x hx => by simp [State.setPlace, State.modCoro, hx]) ?_ ?_ ?_ (by simp [hp]) ?_ ?_
      (.inr ⟨rfl, fun hpoll => hr.polling_ne hpoll (by simp [hp]) (by simp [hp]) rfl⟩) <;>
      simp [State.setPlace, State.modCoro, Body.fits]
  unfold State.finalReturn
  simp only
  split
  · exact { h1 with }
  · exact h1

theorem setAwaiter (hr : Records s) {h a : CoroId} (hp : (∃ t c, (s.coros a).place = .atTask t c false) ∨
    (s.coros a).place = .gone) : Records (s.setAwaiter h a) := by
  have h1 := hr.modPromise h fun p => { p with awaiterHandle := some a }
  have hplace : ((s.modPromise h fun p => { p with awaiterHandle := some a }).coros a).place = (s.coros a).place := by
    by_cases ha : a = h
    · subst ha
      simp [State.modPromise, State.modCoro]
    · simp [State.modPromise, State.modCoro, ha]
  unfold State.setAwaiter
  generalize hs1 : (s.modPromise h fun p => { p with awaiterHandle := some a }) = s1 at h1 hplace
  have hself : (s1.modCoro a fun c => { c with place := c.place.arm }).coros a =
      { s1.coros a with place := (s1.coros a).place.arm } := by simp [State.modCoro]
  have hother : ∀ x, x ≠ a → (s1.modCoro a fun c => { c with place := c.place.arm }).coros x = s1.coros x := by
    intro x hx
    simp [State.modCoro, hx]
  rcases hp with ⟨t, c, hp⟩ | hp
  · rw [hp] at hplace
    have hfits := h1.fits a
    rw [hplace] at hfits
    refine h1.go (h := a) (.of_reqs rfl rfl rfl rfl rfl) rfl hother ?_ ?_ ?_ (by simp [hplace]) ?_ ?_
      (.inr ⟨rfl, fun hpoll => h1.polling_ne hpoll (by simp [hplace]) (by simp [hplace]) rfl⟩)
    · rw [hself, hplace]
      exact hfits
    · rw [hself]
    · rw [hself]
    · intro r
      rw [hself, hplace]
      simp [Place.arm]
    · rw [hself, hplace]
      simp [Place.arm]
  · rw [hp] at hplace
    refine h1.still (.of_reqs rfl rfl rfl rfl rfl) (fun x => ?_) (fun x r hx => (h1.atIo x r hx).1) (.inr rfl)
    by_cases hx : x = a
    · subst hx
      rw [hself]
      exact ⟨by rw [hplace]; rfl, rfl, rfl⟩
    · rw [hother x hx]
      exact .refl _

end Records

end EvManager
