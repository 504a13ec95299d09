import EvManager.Effect

/-!
# The operations on the ring, one by one

For each operation that touches the ring: what was the case when it succeeded, and the state it left.
-/

namespace EvManager

open Lib ErrorProcessing

namespace State

variable {s s' : State}

/-- An entry was to be had: the manager is not past LIVING and the ring is not full. -/
def SqeAvailable (s : State) : Prop :=
  s.shouldRestrictUsage = false ∧ s.ev.ring.pending.length < s.ev.ring.entries

instance (s : State) : Decidable s.SqeAvailable := by unfold SqeAvailable; infer_instance

theorem ioUringGetSqe_some {p : Purpose} {j : ℕ} (hs : s.ioUringGetSqe p = .ok (some j, s')) :
    ∃ ring, s.ev.ringUp = true ∧ s.ev.ring.getSqe (Slot.hand p) = some (j, ring) ∧ s' = s.setRing ring := by
  unfold ioUringGetSqe at hs
  split at hs
  · rename_i hup
    split at hs <;> cases hs
    rename_i ring hr
    exact ⟨ring, hup, hr, rfl⟩
  · cases hs

/-- An entry is handed out exactly when one is available. -/
theorem getUringSqe_ok {p : Purpose} {x : Option ℕ} (hs : s.getUringSqe p = .ok (x, s')) :
    (x = none ∧ ¬ s.SqeAvailable ∧ s' = s) ∨
    ∃ j ring, x = some j ∧ s.SqeAvailable ∧ s.ev.ringUp = true ∧
      s.ev.ring.getSqe (Slot.hand p) = some (j, ring) ∧ s' = s.setRing ring := by
  unfold getUringSqe at hs
  split at hs
  · rename_i hres
    cases hs
    exact .inl ⟨rfl, by simp [SqeAvailable, hres], rfl⟩
  · rename_i hres
    cases x with
    | none =>
      obtain rfl := ioUringGetSqe_none hs
      refine .inl ⟨rfl, fun ha => ?_, rfl⟩
      unfold ioUringGetSqe at hs
      split at hs
      · split at hs
        · cases hs
        · rename_i hr
          have hfull := Uring.getSqe_eq_none.mp hr
          have hroom := ha.2
          rw [Uring.length_pending] at hroom
          omega
      · cases hs
    | some j =>
      obtain ⟨ring, hup, hr, rfl⟩ := ioUringGetSqe_some hs
      refine .inr ⟨j, ring, rfl, ⟨by simpa using hres, ?_⟩, hup, hr, rfl⟩
      rw [Uring.length_pending]
      by_contra hfull
      rw [Uring.getSqe_eq_none.mpr (by omega)] at hr
      cases hr

theorem submitQueuedEntries_ok {ret : ℤ} (hs : s.submitQueuedEntries ret = .ok s') :
    s.ev.ringUp = true ∧ -2 ^ 31 ≤ ret ∧ ret ≤ s.ev.ring.pending.length ∧
    s' = s.modEv fun ev =>
      { ev with ring := ev.ring.submit ret.toNat, inFlightRequests := ev.inFlightRequests + ret.toNat } := by
  unfold submitQueuedEntries at hs
  split at hs
  · rename_i hup
    split at hs
    · rename_i hret
      cases hs
      refine ⟨hup, hret.1, hret.2, ?_⟩
      unfold modEv
      split
      · rfl
      · rename_i hneg
        rw [show ret.toNat = 0 by omega]
        rfl
    · cases hs
  · cases hs

theorem submitQueuedEntries_eq {ret : ℤ} (hup : s.ev.ringUp = true) (hlo : -2 ^ 31 ≤ ret)
    (hhi : ret ≤ s.ev.ring.pending.length) :
    s.submitQueuedEntries ret = .ok (s.modEv fun ev =>
      { ev with ring := ev.ring.submit ret.toNat, inFlightRequests := ev.inFlightRequests + ret.toNat }) := by
  unfold submitQueuedEntries
  rw [if_pos hup, if_pos ⟨hlo, hhi⟩]
  unfold modEv
  split
  · rfl
  · rw [show ret.toNat = 0 by omega]
    rfl

/-- The frame of the coroutine an object belongs to, with the object. -/
def ownReq (ctx : Option CoroId) (r : ReqId) (s : State) : State :=
  match ctx with
  | some c => s.modCoro c fun c => { c with reqs := c.reqs ++ [r] }
  | none => s

theorem ioOp_ok {ctx : Option CoroId} {p : ParameterPack} {r : ReqId} (hs : s.ioOp ctx p = .ok (r, s')) :
    s.shouldRestrictUsage = false ∧ r = s.nextReq ∧
    ∃ sqe s1, s.getUringSqe (.request p r) = .ok (sqe, s1) ∧
      s' = (s1.newReq (.awaitable ctx p sqe)).2.ownReq ctx r := by
  unfold ioOp at hs
  split at hs
  · cases hs
  · rename_i hres
    obtain ⟨⟨sqe, s1⟩, h1, hs⟩ := bind_ok.mp hs
    cases hs
    have hn : s1.nextReq = s.nextReq := by
      rcases getUringSqe_ok h1 with ⟨-, -, rfl⟩ | ⟨j, ring, -, -, -, -, rfl⟩ <;> rfl
    refine ⟨by simpa using hres, hn, sqe, s1, ?_, ?_⟩
    · exact hn.symm ▸ h1
    · cases ctx <;> rfl

theorem getUringSqe_stack {p : Purpose} {x : Option ℕ} (hs : s.getUringSqe p = .ok (x, s')) :
    s'.stack = s.stack := by
  rcases getUringSqe_ok hs with ⟨-, -, rfl⟩ | ⟨j, ring, -, -, -, -, rfl⟩ <;> rfl

theorem ioOp_stack {ctx : Option CoroId} {p : ParameterPack} {r : ReqId} (hs : s.ioOp ctx p = .ok (r, s')) :
    s'.stack = s.stack := by
  obtain ⟨-, -, sqe, s1, h1, rfl⟩ := ioOp_ok hs
  rw [← getUringSqe_stack h1]
  cases ctx <;> rfl

/-- What makes an awaitable of the running coroutine `h` ready to be awaited. -/
def Awaitable (h : CoroId) (r : ReqId) (s : State) : Prop :=
  r ∈ (s.coros h).reqs ∧ (s.reqs r).live = true ∧ (s.reqs r).home = .awaitable (some h) ∧
    (s.reqs r).data.handle = none

theorem awaitIo_ok {h : CoroId} {r : ReqId} (hs : s.awaitIo h r = .ok s') :
    s.Awaitable h r ∧
    ((isThereAnError (s.reqs r).error = true ∧ s' = s.ioReturn h r) ∨
    ∃ j, isThereAnError (s.reqs r).error = false ∧ s.ev.ringUp = true ∧ (s.reqs r).sqe = some j ∧
      s' = ((((s.modReq r fun q => { q with data := q.data.await h (s.coros h).promise }).writeSqe j
        fun x => (x.prep (prepareSqringOp (s.reqs r).data.specificData)).setData (some r)).suspend h (.atIo r)).push
          (.ioSubmit h r))) := by
  unfold State.awaitIo at hs
  simp only at hs
  split at hs
  · rename_i hc
    refine ⟨hc, ?_⟩
    split at hs
    · rename_i he
      cases hs
      exact .inl ⟨he, rfl⟩
    · rename_i he
      split at hs
      · rename_i hup
        split at hs
        · rename_i j hj
          cases hs
          exact .inr ⟨j, by simpa using he, hup, hj, rfl⟩
        · cases hs
      · cases hs
  · cases hs

/-- The record of an `_na` call for `p`. -/
def naRequest (p : ParameterPack) : Request :=
  { Request.allocated p with data := { reqType := p.type, allocatedDynamic := true, specificData := p } }

/-- The entry of an `_na` call for `p` with record `r`, prepared in a slot that held `x`. -/
def naSlot (p : ParameterPack) (r : ReqId) (x : Slot) : Slot :=
  ((x.hand (.request p r)).prep (prepNa p)).setData (some r)

/-- An `_na` call either gets no entry and does nothing, or enters its request and submits. -/
theorem naOp_ok {p : ParameterPack} {ret : ℤ} {e : Errnos} (hs : s.naOp p ret = .ok (e, s')) :
    (¬ s.SqeAvailable ∧ e = Errnos.unknownError ∧ s' = s) ∨
    (s.SqeAvailable ∧ ∃ j ring s2, s.ev.ring.getSqe (naSlot p s.nextReq) = some (j, ring) ∧
      (s.setRing ring).submitQueuedEntries ret = .ok s2 ∧
      ((ret < 1 ∧ e = Errnos.cast (-ret) ∧
          s' = { s2 with reqs := Function.update s2.reqs s.nextReq { naRequest p with live := false }
                         nextReq := s.nextReq + 1, trace := .deleted s.nextReq :: s2.trace }) ∨
        (1 ≤ ret ∧ e = Errnos.unknownError ∧
          s' = { s2 with reqs := Function.update s2.reqs s.nextReq (naRequest p)
                         nextReq := s.nextReq + 1, trace := .accepted s.nextReq :: s2.trace }))) := by
  unfold naOp at hs
  obtain ⟨⟨x, s1⟩, h1, h2⟩ := bind_ok.mp hs
  unfold getSqeAndReqData at h1
  obtain ⟨⟨sqe, s0⟩, h0, h1'⟩ := bind_ok.mp h1
  rcases getUringSqe_ok h0 with ⟨rfl, hna, rfl⟩ | ⟨j, ring, rfl, ha, hup, hr, rfl⟩
  · cases h1'
    cases h2
    exact .inl ⟨hna, rfl, rfl⟩
  · cases h1'
    simp only at h2
    unfold submitRequest at h2
    obtain ⟨s2, h3, hs⟩ := bind_ok.mp h2
    obtain ⟨-, hlo, hhi, rfl⟩ := submitQueuedEntries_ok h3
    have hw : s.ev.ring.getSqe (naSlot p s.nextReq) =
        some (j, (ring.write j (Slot.prep (prepNa p))).write j (Slot.setData (some s.nextReq))) :=
      Uring.getSqe_write (Slot.setData (some s.nextReq)) (Uring.getSqe_write (Slot.prep (prepNa p)) hr)
    refine .inr ⟨ha, j, _, _, hw, submitQueuedEntries_eq hup hlo hhi, ?_⟩
    split at hs
    · rename_i hret
      refine .inl ⟨hret, ?_⟩
      simp only [modReq, writeSqe, setRing, modEv, log, Function.update_self, Request.allocated] at hs
      cases hs
      simp [naRequest, Request.allocated, setRing, modEv]
    · rename_i hret
      refine .inr ⟨by omega, ?_⟩
      cases hs
      simp [modReq, writeSqe, setRing, modEv, log, naRequest, Request.allocated]

/-- The entry of an element of a batch. -/
def queuedSlot (req : ParameterPack) (r : ReqId) (x : Slot) : Slot :=
  ((x.hand (.request req r)).prep (prepGenericRequest req)).setData (some r)

theorem processSingleGenericRequest_ok {req : ParameterPack} {r : ReqId} {h : CoroId} {b : Bool}
    (hs : s.processSingleGenericRequest req r h = .ok (b, s')) :
    (b = false ∧ ¬ s.SqeAvailable ∧ s' = s) ∨
    (b = true ∧ s.SqeAvailable ∧ s.ev.ringUp = true ∧ ∃ j ring,
      s.ev.ring.getSqe (queuedSlot req r) = some (j, ring) ∧
      s' = (s.setRing ring).modReq r fun q => { q with data := q.data.queue h req }) := by
  unfold State.processSingleGenericRequest at hs
  obtain ⟨⟨x, s1⟩, h1, h2⟩ := bind_ok.mp hs
  rcases getUringSqe_ok h1 with ⟨rfl, hna, rfl⟩ | ⟨j, ring, rfl, ha, hup, hr, rfl⟩
  · cases h2
    exact .inl ⟨rfl, hna, rfl⟩
  · cases h2
    have hw : s.ev.ring.getSqe (queuedSlot req r) = some (j, ring.write j
        fun x => (x.prep (prepGenericRequest req)).setData (some r)) :=
      Uring.getSqe_write (fun x : Slot => (x.prep (prepGenericRequest req)).setData (some r)) hr
    exact .inr ⟨rfl, ha, hup, j, _, hw, rfl⟩

/-- Queueing the requests of a batch touches no coroutine. -/
theorem processRequests_coros {h : CoroId} {l : List (ParameterPack × ReqId)} :
    ∀ {s s' : State}, s.processRequests h l = .ok s' → s'.coros = s.coros := by
  induction l with
  | nil =>
    intro s s' hs
    cases hs
    rfl
  | cons x l ih =>
    intro s s' hs
    obtain ⟨req, r⟩ := x
    obtain ⟨⟨b, s1⟩, h1, h2⟩ := bind_ok.mp hs
    rw [ih h2]
    rcases processSingleGenericRequest_ok h1 with ⟨-, -, rfl⟩ | ⟨-, -, -, j, ring, -, rfl⟩ <;> rfl

end State

/-! ### What issuing requests leaves alone -/

open State

/-- Between `s` and `s'` requests were issued and submitted, and coroutines moved, but nothing was
dispatched or registered. -/
structure Issue (s s' : State) : Prop where
  ready : s'.ev.readyRequestsStore = s.ev.readyRequestsStore
  store : s'.ev.managedCoroutinesStore = s.ev.managedCoroutinesStore
  polling : s'.ev.pollingHandle = none ∨ s'.ev.pollingHandle = s.ev.pollingHandle
  kill : s'.ev.killCoroTask.handle = s.ev.killCoroTask.handle
  life : s'.ev.managerLifeState = s.ev.managerLifeState
  loops : s'.loops = s.loops
  inFlight : s.ev.inFlightRequests ≤ s'.ev.inFlightRequests

namespace Issue

variable {s s' s'' : State}

theorem of_quiet (h : Quiet s s') : Issue s s' := ⟨h.ready, h.store, h.polling, h.kill, h.life, h.loops, h.inFlight.ge⟩

theorem of_eq {ring : Uring Slot} {n : ℕ} (hev : s'.ev = { s.ev with ring := ring, inFlightRequests := n })
    (hn : s.ev.inFlightRequests ≤ n) (hstack : s'.stack = s.stack) : Issue s s' := by
  constructor <;> simp [hev, State.loops, hstack, hn]

theorem trans (h : Issue s s') (h' : Issue s' s'') : Issue s s'' := by
  refine ⟨h'.ready.trans h.ready, h'.store.trans h.store, ?_, h'.kill.trans h.kill, h'.life.trans h.life,
    h'.loops.trans h.loops, h.inFlight.trans h'.inFlight⟩
  rcases h'.polling with hp | hp
  · exact .inl hp
  · rw [hp]
    exact h.polling

theorem getUringSqe {p : Purpose} {x : Option ℕ} (hs : s.getUringSqe p = .ok (x, s')) : Issue s s' := by
  rcases getUringSqe_ok hs with ⟨-, -, rfl⟩ | ⟨j, ring, -, -, -, hr, rfl⟩
  · exact of_quiet (.refl _)
  · exact of_eq rfl le_rfl rfl

theorem ioOp {ctx : Option CoroId} {p : ParameterPack} {r : ReqId} (hs : s.ioOp ctx p = .ok (r, s')) :
    Issue s s' := by
  obtain ⟨-, -, sqe, s1, h1, rfl⟩ := ioOp_ok hs
  refine (getUringSqe h1).trans ?_
  cases ctx <;> exact of_eq rfl le_rfl rfl

theorem awaitIo {h : CoroId} {r : ReqId} {rest : List Activation} (hst : s.stack = .run h :: rest)
    (hs : s.awaitIo h r = .ok s') : Issue s s' := by
  rcases awaitIo_ok hs with ⟨-, ⟨-, rfl⟩ | ⟨j, -, -, -, rfl⟩⟩
  · exact of_quiet (.ioReturn ..)
  · refine trans ?_ (of_quiet (.push rfl _))
    refine trans ?_ (of_quiet (.suspend (by simp) (by exact hst)))
    exact of_eq rfl le_rfl rfl

theorem submit {ret : ℤ} (hs : s.submitQueuedEntries ret = .ok s') : Issue s s' := by
  obtain ⟨-, -, -, rfl⟩ := submitQueuedEntries_ok hs
  exact of_eq rfl (Nat.le_add_right ..) rfl

theorem na {p : ParameterPack} {ret : ℤ} {e : Errnos} (hs : s.naOp p ret = .ok (e, s')) : Issue s s' := by
  rcases naOp_ok hs with ⟨-, -, rfl⟩ | ⟨-, j, ring, s2, -, h2, hcase⟩
  · exact of_quiet (.refl _)
  · have h0 : Issue s (s.setRing ring) := of_eq rfl le_rfl rfl
    refine h0.trans ((submit h2).trans ?_)
    rcases hcase with ⟨-, -, rfl⟩ | ⟨-, -, rfl⟩ <;> exact of_eq rfl le_rfl rfl

theorem processRequests {h : CoroId} {l : List (ParameterPack × ReqId)} :
    ∀ {s s' : State}, s.processRequests h l = .ok s' → Issue s s' := by
  induction l with
  | nil =>
    intro s s' hs
    cases hs
    exact of_quiet (.refl _)
  | cons x l ih =>
    intro s s' hs
    obtain ⟨req, r⟩ := x
    obtain ⟨⟨b, s1⟩, h1, h2⟩ := bind_ok.mp hs
    refine trans ?_ (ih h2)
    rcases processSingleGenericRequest_ok h1 with ⟨-, -, rfl⟩ | ⟨-, -, -, j, ring, hr, rfl⟩
    · exact of_quiet (.refl _)
    · exact of_eq rfl le_rfl rfl

theorem batch {h : CoroId} {rest : List Activation} {q : RequestQueue} {ret : ℤ}
    (hst : s.stack = .run h :: rest) (hs : s.submitAndWaitBegin h q ret = .ok s') : Issue s s' := by
  unfold submitAndWaitBegin at hs
  obtain ⟨s2, h2, h3⟩ := bind_ok.mp hs
  refine (submit h2).trans ?_
  split at h3
  · exact of_quiet (.finish (by rw [(submitQueuedEntries_stack h2).1, hst]) h3)
  · obtain ⟨s3, h4, h5⟩ := bind_ok.mp h3
    cases h5
    have hv : Issue s2 (s2.newVector h q.length).2 := of_eq rfl le_rfl rfl
    exact hv.trans ((processRequests h4).trans ⟨rfl, rfl, .inr rfl, rfl, rfl, rfl, le_rfl⟩)

end Issue

/-! ### What a step does to the loop -/

/-- The effect of a step, all that only issues requests being one. -/
inductive LoopEffect (s : State) : Choice → State → Prop
  | issue {c : Choice} {s' : State} : Issue s s' → LoopEffect s c s'
  | start : s.ev.managerLifeState = .notStarted →
      LoopEffect s (.user .start) ((s.modEv fun ev => { ev with managerLifeState := .living }).push .start)
  | leave {rest : List Activation} : s.stack = .start :: rest → s.ev.managerLifeState = .dead →
      LoopEffect s .tau s.pop
  | message {base : Addr} {rest : List Activation} {s' : State} :
      s.stack = .start :: rest → s.awaitMessage base = .ok s' → LoopEffect s (.message base) s'
  | cqe {i : ℕ} {res : ℤ} {base : Addr} {rest : List Activation} {s' : State} :
      s.stack = .awaitWait :: rest → s.awaitCqe i res base = .ok s' → LoopEffect s (.cqe i res base) s'
  | seen {rest : List Activation} {s' : State} :
      s.stack = .awaitSeen :: rest → s.awaitSeen = .ok s' → LoopEffect s .tau s'
  | handlerReturn {r : ReqId} {h : CoroId} {rest : List Activation} {s' : State} :
      s.stack = .eventHandler r h :: rest → s.pop.eventHandlerReturn r h = .ok s' → LoopEffect s .tau s'
  | dying {h : CoroId} {rest : List Activation} : s.stack = .run h :: rest →
      (s.coros h).body = .killInternal .begin → s.ev.managerLifeState.rank < LivingState.dying.rank →
      LoopEffect s .tau
        ((s.modEv fun ev => { ev with managerLifeState := .dying }).setBody h (.killInternal (.flush 0)))
  | dead {h : CoroId} {rest : List Activation} {s' : State} : s.stack = .run h :: rest →
      s.ev.inFlightRequests = 0 →
      Quiet (s.modEv fun ev => { ev with managerLifeState := .dead, ringUp := false }) s' → LoopEffect s .tau s'
  | poll {c : Choice} {h : CoroId} {rest : List Activation} {s1 s' : State} :
      s.stack = .run h :: rest → s.Arms h c → Quiet s s1 →
      Quiet (s1.modEv fun ev => { ev with pollingHandle := some h }) s' → LoopEffect s c s'
  | register {v : VarId} {idx : ℕ} {grow : Bool} {rest : List Activation} {s' : State} :
      s.stack = .registerCoro v :: rest → s.pop.registerCoroReturn v idx grow = .ok s' →
      LoopEffect s (.pick idx grow) s'

theorem step_loopEffect {s s' : State} {c : Choice} (hs : step s c = .ok s') : LoopEffect s c s' := by
  cases step_effect hs with
  | quiet hq => exact .issue (.of_quiet hq)
  | io h1 => exact .issue (.ioOp h1)
  | awaitIo hst h1 => exact .issue (.awaitIo hst h1)
  | awaitOp hst h1 h2 => exact .issue ((Issue.ioOp h1).trans (.awaitIo ((ioOp_stack h1).trans hst) h2))
  | na h1 => exact .issue (.na h1)
  | submit _ _ hq h1 hq' => exact .issue (((Issue.of_quiet hq).trans (.submit h1)).trans (.of_quiet hq'))
  | rawSqe h1 => exact .issue (.getUringSqe h1)
  | start hl => exact .start hl
  | leave hst hd => exact .leave hst hd
  | message hst h1 => exact .message hst h1
  | cqe hst h1 => exact .cqe hst h1
  | seen hst h1 => exact .seen hst h1
  | handlerReturn hst h1 => exact .handlerReturn hst h1
  | dying hst hb hl => exact .dying hst hb hl
  | cancel hst hb h1 =>
    obtain ⟨ring, -, -, rfl⟩ := ioUringGetSqe_some h1
    exact .issue (.of_eq rfl le_rfl rfl)
  | dead hst hb h0 h1 => exact .dead hst h0 (.finish (by exact hst) h1)
  | batch hst _ _ h1 => exact .issue (.batch hst h1)
  | @poll _ h _ s1 hst ha hst1 hc1 hq =>
    have hk : (s1.coros h).body.kind = .poll := by rw [hc1]; exact ha.kind
    have h1 : Quiet (s1.modEv fun ev => { ev with pollingHandle := some h })
        ((s1.modEv fun ev => { ev with pollingHandle := some h }).setBody h (.poll .waiting)) := .setBody hk.symm
    exact .poll hst ha hq (h1.trans (.suspend (by simp) (by exact hst1.trans hst)))
  | register hst h1 => exact .register hst h1

end EvManager
