import EvManager.Inversion

/-!
# The counter of requests in flight

`_in_flight_requests` against what the ring has done: the entries the kernel took and the completions that
were marked seen.  The completion that is being dispatched is neither in flight nor seen; it is the
`awaitSeen` on the stack.
-/

namespace EvManager

open Lib State

/-- How many entries the kernel has taken so far. -/
def State.taken (s : State) : ℕ := s.ev.ring.khead

/-- The counter and what it counts, in one state and the other. -/
structure SameCounts (s s' : State) : Prop where
  flight : s'.ev.ring.inFlight = s.ev.ring.inFlight
  khead : s'.ev.ring.khead = s.ev.ring.khead
  counter : s'.ev.inFlightRequests = s.ev.inFlightRequests
  seen : s'.seen = s.seen
  dispatched : s'.loops.count .awaitSeen = s.loops.count .awaitSeen
  ringUp : s'.ev.ringUp = s.ev.ringUp
  life : s'.ev.managerLifeState = s.ev.managerLifeState

/-- The ring is the same, with all that is counted. -/
structure Uncounted (s s' : State) : Prop where
  ring : s'.ev.ring = s.ev.ring
  counter : s'.ev.inFlightRequests = s.ev.inFlightRequests
  seen : s'.seen = s.seen
  dispatched : s'.loops.count .awaitSeen = s.loops.count .awaitSeen
  ringUp : s'.ev.ringUp = s.ev.ringUp
  life : s'.ev.managerLifeState = s.ev.managerLifeState

/-- **The counter is right**: it is the number of entries that were taken and not yet marked seen, and at the
end it is zero. -/
structure Counted (s : State) : Prop where
  counter : s.ev.inFlightRequests = s.ev.ring.inFlight.length + s.loops.count .awaitSeen
  taken : s.taken = s.ev.inFlightRequests + s.seen
  ringUp : s.ev.ringUp = false ↔ s.ev.managerLifeState = .dead
  drained : s.ev.managerLifeState = .dead → s.ev.inFlightRequests = 0

/-! ### Operations that count nothing -/

namespace Uncounted

variable {s s' s'' : State}

theorem refl (s : State) : Uncounted s s := ⟨rfl, rfl, rfl, rfl, rfl, rfl⟩

theorem trans (h : Uncounted s s') (h' : Uncounted s' s'') : Uncounted s s'' :=
  ⟨h'.ring.trans h.ring, h'.counter.trans h.counter, h'.seen.trans h.seen, h'.dispatched.trans h.dispatched,
    h'.ringUp.trans h.ringUp, h'.life.trans h.life⟩

theorem of_quiet (h : Quiet s s') : Uncounted s s' :=
  ⟨h.ring, h.inFlight, h.seen, by rw [h.loops], h.ringUp, h.life⟩

theorem eventHandler {res : ℤ} {x : Option ReqId} {base : Addr} (hs : s.eventHandler res x base = .ok s') :
    Uncounted s s' := by
  unfold State.eventHandler at hs
  split at hs
  · cases hs
    exact refl _
  · simp only at hs
    split at hs
    · split at hs
      · cases hs
        exact ⟨rfl, rfl, rfl, rfl, rfl, rfl⟩
      · obtain ⟨pack, -, h2⟩ := bind_ok.mp hs
        refine trans ?_ (of_quiet (.resume h2))
        refine ⟨rfl, rfl, rfl, ?_, rfl, rfl⟩
        rw [State.loops, stack_push, List.filter_cons_of_pos rfl]
        exact List.count_cons_of_ne (by simp)
    · cases hs

theorem eventHandlerReturn {r : ReqId} {h : CoroId} (hs : s.eventHandlerReturn r h = .ok s') :
    Uncounted s s' := by
  unfold State.eventHandlerReturn at hs
  simp only at hs
  split at hs
  · split at hs
    · cases hs
      split <;> exact ⟨rfl, rfl, rfl, rfl, rfl, rfl⟩
    · cases hs
  · cases hs
    split <;> exact ⟨rfl, rfl, rfl, rfl, rfl, rfl⟩

theorem registerCoroReturn {v : VarId} {idx : ℕ} {grow : Bool} (hs : s.registerCoroReturn v idx grow = .ok s') :
    Uncounted s s' := by
  unfold State.registerCoroReturn at hs
  obtain ⟨s1, h2, h1⟩ := bind_ok.mp hs
  obtain ⟨e, -, h3⟩ := bind_ok.mp h1
  cases h3
  refine (of_quiet ((Quiet.makeRoom h2).trans (.relink e s1))).trans ?_
  unfold insertTask
  simp only
  split <;> exact ⟨rfl, rfl, rfl, rfl, rfl, rfl⟩

end Uncounted

namespace SameCounts

variable {s s' s'' : State}

theorem refl (s : State) : SameCounts s s := ⟨rfl, rfl, rfl, rfl, rfl, rfl, rfl⟩

theorem trans (h : SameCounts s s') (h' : SameCounts s' s'') : SameCounts s s'' :=
  ⟨h'.flight.trans h.flight, h'.khead.trans h.khead, h'.counter.trans h.counter, h'.seen.trans h.seen,
    h'.dispatched.trans h.dispatched, h'.ringUp.trans h.ringUp, h'.life.trans h.life⟩

theorem of_uncounted (h : Uncounted s s') : SameCounts s s' :=
  ⟨by rw [h.ring], by rw [h.ring], h.counter, h.seen, h.dispatched, h.ringUp, h.life⟩

theorem of_quiet (h : Quiet s s') : SameCounts s s' := of_uncounted (.of_quiet h)

theorem getSqe {mark : Slot → Slot} {j : ℕ} {ring : Uring Slot} (hr : s.ev.ring.getSqe mark = some (j, ring)) :
    SameCounts s (s.setRing ring) := by
  refine ⟨Uring.getSqe_inFlight hr, ?_, rfl, rfl, rfl, rfl, rfl⟩
  exact Uring.getSqe_khead hr

theorem getUringSqe {p : Purpose} {x : Option ℕ} (hs : s.getUringSqe p = .ok (x, s')) : SameCounts s s' := by
  rcases getUringSqe_ok hs with ⟨-, -, rfl⟩ | ⟨j, ring, -, -, -, hr, rfl⟩
  · exact refl _
  · exact getSqe hr

theorem writeSqe (j : ℕ) (f : Slot → Slot) (s : State) : SameCounts s (s.writeSqe j f) :=
  ⟨rfl, rfl, rfl, rfl, rfl, rfl, rfl⟩

theorem ioOp {ctx : Option CoroId} {p : ParameterPack} {r : ReqId} (hs : s.ioOp ctx p = .ok (r, s')) :
    SameCounts s s' := by
  obtain ⟨-, -, sqe, s1, h1, rfl⟩ := ioOp_ok hs
  refine (getUringSqe h1).trans ?_
  cases ctx <;> exact ⟨rfl, rfl, rfl, rfl, rfl, rfl, rfl⟩

theorem awaitIo {h : CoroId} {r : ReqId} {rest : List Activation} (hst : s.stack = .run h :: rest)
    (hs : s.awaitIo h r = .ok s') : SameCounts s s' := by
  rcases awaitIo_ok hs with ⟨-, ⟨-, rfl⟩ | ⟨j, -, -, -, rfl⟩⟩
  · exact of_quiet (.ioReturn ..)
  · refine trans ?_ (of_quiet (.push rfl _))
    refine trans ?_ (of_quiet (.suspend (by simp) (by exact hst)))
    exact ⟨rfl, rfl, rfl, rfl, rfl, rfl, rfl⟩

theorem processRequests {h : CoroId} {l : List (ParameterPack × ReqId)} :
    ∀ {s s' : State}, s.processRequests h l = .ok s' → SameCounts s s' := by
  induction l with
  | nil =>
    intro s s' hs
    cases hs
    exact refl s
  | cons x l ih =>
    intro s s' hs
    obtain ⟨req, r⟩ := x
    obtain ⟨⟨b, s1⟩, h1, h2⟩ := bind_ok.mp hs
    refine trans ?_ (ih h2)
    rcases processSingleGenericRequest_ok h1 with ⟨-, -, rfl⟩ | ⟨-, -, -, j, ring, hr, rfl⟩
    · exact refl _
    · exact (getSqe hr).trans ⟨rfl, rfl, rfl, rfl, rfl, rfl, rfl⟩

end SameCounts

/-! ### The counter over a step -/

namespace Counted

variable {s s' : State}

theorem same (hc : Counted s) (h : SameCounts s s') : Counted s' := by
  refine ⟨?_, ?_, ?_, ?_⟩
  · rw [h.counter, h.flight, h.dispatched, hc.counter]
  · unfold State.taken
    rw [h.khead, h.counter, h.seen]
    exact hc.taken
  · rw [h.ringUp, h.life, hc.ringUp]
  · rw [h.life, h.counter]
    exact hc.drained

theorem submit (hc : Counted s) {ret : ℤ} (hs : s.submitQueuedEntries ret = .ok s') : Counted s' := by
  obtain ⟨hup, -, hle, rfl⟩ := submitQueuedEntries_ok hs
  have hlen : ret.toNat ≤ s.ev.ring.pending.length := by omega
  have hcount := hc.counter
  have htaken := hc.taken
  unfold State.taken at htaken
  refine ⟨?_, ?_, hc.ringUp, fun hd => ?_⟩
  · simp only [modEv, Uring.submit_inFlight, List.length_append, List.length_take, State.loops] at hcount ⊢
    omega
  · rw [Uring.length_pending] at hlen
    simp only [State.taken, modEv, Uring.submit_khead]
    omega
  · have := hc.ringUp.mpr hd
    rw [hup] at this
    cases this

theorem na (hc : Counted s) {p : ParameterPack} {ret : ℤ} {e : Errnos} (hs : s.naOp p ret = .ok (e, s')) :
    Counted s' := by
  rcases naOp_ok hs with ⟨-, -, rfl⟩ | ⟨ha, j, ring, s2, hr, h2, hcase⟩
  · exact hc
  · have hc2 : Counted s2 := (hc.same (.getSqe hr)).submit h2
    rcases hcase with ⟨-, -, rfl⟩ | ⟨-, -, rfl⟩ <;> exact hc2.same ⟨rfl, rfl, rfl, rfl, rfl, rfl, rfl⟩

theorem batch (hc : Counted s) {h : CoroId} {rest : List Activation} {q : RequestQueue} {ret : ℤ}
    (hst : s.stack = .run h :: rest) (hs : s.submitAndWaitBegin h q ret = .ok s') : Counted s' := by
  unfold submitAndWaitBegin at hs
  obtain ⟨s2, h2, h3⟩ := bind_ok.mp hs
  have hc2 : Counted s2 := hc.submit h2
  split at h3
  · exact hc2.same (.of_quiet (.finish (by rw [(submitQueuedEntries_stack h2).1, hst]) h3))
  · obtain ⟨s3, h4, h5⟩ := bind_ok.mp h3
    cases h5
    have hv : SameCounts s2 (s2.newVector h q.length).2 := ⟨rfl, rfl, rfl, rfl, rfl, rfl, rfl⟩
    exact hc2.same ((hv.trans (.processRequests h4)).trans ⟨rfl, rfl, rfl, rfl, rfl, rfl, rfl⟩)

/-- `await_message` is entered: the loop is about to wait, and perhaps a parked request is dispatched. -/
theorem message (hc : Counted s) {base : Addr} (hs : s.awaitMessage base = .ok s') : Counted s' := by
  have hw : Counted (s.push .awaitWait) := by
    refine ⟨?_, hc.taken, hc.ringUp, hc.drained⟩
    rw [State.loops, stack_push, List.filter_cons_of_pos rfl, List.count_cons_of_ne (by decide)]
    exact hc.counter
  unfold awaitMessage at hs
  simp only at hs
  split at hs
  · refine hw.same (.trans ?_ (.of_uncounted (.eventHandler hs)))
    exact ⟨rfl, rfl, rfl, rfl, rfl, rfl, rfl⟩
  · cases hs
    exact hw

theorem cqe (hc : Counted s) {i : ℕ} {res : ℤ} {base : Addr} {rest : List Activation}
    (hst : s.stack = .awaitWait :: rest) (hs : s.awaitCqe i res base = .ok s') : Counted s' := by
  unfold awaitCqe at hs
  split at hs
  · rename_i hup
    split at hs
    · rename_i x hx
      have hi : i < s.ev.ring.inFlight.length := (List.getElem?_eq_some_iff.mp hx).1
      have hr : Counted ((s.pop.push .awaitSeen).setRing (s.ev.ring.reap i)) := by
        have hcount := hc.counter
        refine ⟨?_, hc.taken, hc.ringUp, hc.drained⟩
        rw [State.loops, hst, List.filter_cons_of_pos rfl, List.count_cons_of_ne (by decide)] at hcount
        simp only [setRing, modEv, Uring.reap_inFlight, State.loops, State.push, State.pop, hst, List.tail_cons,
          List.filter_cons_of_pos (show Activation.ofLoop .awaitSeen = true from rfl), List.count_cons_self,
          List.length_eraseIdx_of_lt hi]
        omega
      refine hr.same (.trans ?_ (.of_uncounted (.eventHandler hs)))
      split <;> exact ⟨rfl, rfl, rfl, rfl, rfl, rfl, rfl⟩
    · cases hs
  · cases hs

/-- The completion that was dispatched is marked seen, and the counter, which is not zero, is lowered. -/
theorem seen (hc : Counted s) {rest : List Activation} (hst : s.stack = .awaitSeen :: rest)
    (hs : s.awaitSeen = .ok s') : Counted s' := by
  have hcount := hc.counter
  have htaken := hc.taken
  rw [State.loops, hst, List.filter_cons_of_pos rfl, List.count_cons_self] at hcount
  have hpos : s.ev.inFlightRequests ≠ 0 := by omega
  have hl : Counted (({ s.pop with seen := s.seen + 1 } : State).modEv fun ev =>
      { ev with inFlightRequests := decrement ev.inFlightRequests }) := by
    have hdec : decrement s.ev.inFlightRequests = s.ev.inFlightRequests - 1 := if_neg hpos
    refine ⟨?_, ?_, hc.ringUp, fun hd => absurd (hc.drained hd) hpos⟩
    · simp only [modEv, State.pop, State.loops, hst, List.tail_cons, hdec]
      omega
    · unfold State.taken at htaken ⊢
      simp only [modEv, State.pop, hdec]
      omega
  unfold State.awaitSeen at hs
  split at hs
  · simp only at hs
    split at hs
    · exact hl.same (.of_quiet (.resume hs))
    · cases hs
    · cases hs
      exact hl
  · cases hs

theorem init {s : State} (hi : State.Initial s) : Counted s := by
  cases hi <;> refine ⟨rfl, rfl, ?_, ?_⟩ <;> simp [State.init, initFailed, blank]

theorem start (hc : Counted s) (hl : s.ev.managerLifeState = .notStarted) :
    Counted ((s.modEv fun ev => { ev with managerLifeState := .living }).push .start) := by
  refine ⟨?_, hc.taken, ?_, fun hd => by cases hd⟩
  · rw [State.loops, stack_push, List.filter_cons_of_pos rfl, List.count_cons_of_ne (by decide)]
    exact hc.counter
  · have := hc.ringUp
    rw [hl] at this
    simpa [State.push, modEv] using this

theorem dying (hc : Counted s) (hl : s.ev.managerLifeState.rank < LivingState.dying.rank) :
    Counted (s.modEv fun ev => { ev with managerLifeState := .dying }) := by
  refine ⟨hc.counter, hc.taken, ?_, fun hd => by cases hd⟩
  have hne : s.ev.managerLifeState ≠ .dead := fun he => by simp [he, LivingState.rank] at hl
  have := hc.ringUp
  simpa [modEv, hne] using this

/-- `kill_internal` exits the ring when the counter is zero. -/
theorem dead (hc : Counted s) (h0 : s.ev.inFlightRequests = 0) :
    Counted (s.modEv fun ev => { ev with managerLifeState := .dead, ringUp := false }) :=
  ⟨hc.counter, hc.taken, by simp [modEv], fun _ => h0⟩

/-- **Every step keeps the counter right.** -/
theorem step {c : Choice} (hc : Counted s) (hs : State.step s c = .ok s') : Counted s' := by
  cases step_effect hs with
  | quiet hq => exact hc.same (.of_quiet hq)
  | io h1 => exact hc.same (.ioOp h1)
  | awaitIo hst h1 => exact hc.same (.awaitIo hst h1)
  | awaitOp hst h1 h2 => exact hc.same ((SameCounts.ioOp h1).trans (.awaitIo ((ioOp_stack h1).trans hst) h2))
  | na h1 => exact hc.na h1
  | submit _ _ hq h1 hq' => exact ((hc.same (.of_quiet hq)).submit h1).same (.of_quiet hq')
  | rawSqe h1 => exact hc.same (.getUringSqe h1)
  | start hl => exact hc.start hl
  | leave hst hd =>
    refine ⟨?_, hc.taken, hc.ringUp, hc.drained⟩
    have hcount := hc.counter
    rw [State.loops, hst, List.filter_cons_of_pos rfl, List.count_cons_of_ne (by decide)] at hcount
    rw [State.loops, stack_pop, hst]
    exact hcount
  | message _ h1 => exact hc.message h1
  | cqe hst h1 => exact hc.cqe hst h1
  | seen hst h1 => exact hc.seen hst h1
  | handlerReturn hst h1 =>
    have hp : SameCounts s s.pop := by
      refine ⟨rfl, rfl, rfl, rfl, ?_, rfl, rfl⟩
      rw [State.loops, State.loops, stack_pop, hst, List.filter_cons_of_pos rfl]
      exact (List.count_cons_of_ne (by simp)).symm
    exact hc.same (hp.trans (.of_uncounted (.eventHandlerReturn h1)))
  | dying hst hb hl => exact (hc.dying hl).same ⟨rfl, rfl, rfl, rfl, rfl, rfl, rfl⟩
  | cancel hst hb h1 =>
    obtain ⟨ring, -, hr, rfl⟩ := ioUringGetSqe_some h1
    exact hc.same (((SameCounts.getSqe hr).trans (.writeSqe ..)).trans ⟨rfl, rfl, rfl, rfl, rfl, rfl, rfl⟩)
  | dead hst hb h0 h1 => exact (hc.dead h0).same (.of_quiet (.finish (by exact hst) h1))
  | batch hst _ _ h1 => exact hc.batch hst h1
  | poll hst hb hst1 hc1 hq =>
    refine (hc.same (.of_quiet hq)).same (.trans ?_ (.of_quiet (.suspend (by simp) (hst1.trans hst))))
    exact ⟨rfl, rfl, rfl, rfl, rfl, rfl, rfl⟩
  | register hst h1 =>
    exact hc.same ((SameCounts.of_quiet (.pop hst rfl)).trans (.of_uncounted (.registerCoroReturn h1)))

end Counted

theorem Reachable.counted {s : State} (h : Reachable s) : Counted s :=
  h.inv (fun _ => Counted.init) fun _ _ _ hc _ hs => hc.step hs

/-- **The counter of requests in flight**, in every state a program reaches: it is the number of entries the
kernel has taken less the number of completions marked seen, it is not zero when it is about to be lowered,
and when the manager is DEAD and its ring is exited everything that was taken was marked seen. -/
theorem inFlightRequests_eq {s : State} (h : Reachable s) :
    s.seen ≤ s.taken ∧ s.ev.inFlightRequests = s.taken - s.seen ∧
    (∀ rest, s.stack = .awaitSeen :: rest → 0 < s.ev.inFlightRequests) ∧
    (s.ev.managerLifeState = .dead ∨ s.ev.ringUp = false →
      s.seen = s.taken ∧ s.ev.ring.inFlight = [] ∧ Activation.awaitSeen ∉ s.stack) := by
  have hc := h.counted
  have htaken := hc.taken
  refine ⟨by omega, by omega, fun rest hst => ?_, fun hd => ?_⟩
  · have hcount := hc.counter
    rw [State.loops, hst, List.filter_cons_of_pos rfl, List.count_cons_self] at hcount
    omega
  · have h0 := hc.drained (hd.elim id hc.ringUp.mp)
    have hcount := hc.counter
    have hlen : s.ev.ring.inFlight.length = 0 := by omega
    have hno : s.loops.count .awaitSeen = 0 := by omega
    refine ⟨by omega, List.length_eq_zero_iff.mp hlen, fun hm => ?_⟩
    exact List.count_eq_zero.mp hno (List.mem_filter.mpr ⟨hm, rfl⟩)

/-- The completion of a read resumes a coroutine that calls `write_na` and starts a kill: inside `event_handler` three
entries have been taken and none is marked seen yet, and when the manager is DEAD all three are. -/
theorem inFlightRequests_eq_drained : (∃ s : State, s.taken = 3 ∧ s.ev.inFlightRequests = 3 - s.seen) ∧
    ∃ s : State, s.taken = 3 ∧ s.seen = s.taken ∧ s.ev.ring.inFlight = [] := by
  constructor
  · have he : (exec step (fun _ _ => True) (init 4) [.user .call, .user (.startTask 0),
        .user (.awaitOp (.read ⟨3, 100, 8⟩)), .sub 1, .tau, .user .start, .message 0, .cqe 0 8 0,
        .user (.na (.write ⟨4, 200, 8⟩) 1), .user .kill, .user (.startTask 1), .tau, .tau, .tau, .tau,
        .sub 1]).map (fun s =>
        decide (s.taken = 3)) = some true := by decide
    obtain ⟨s, hreach, hs⟩ := Reach.of_exec (.up 4) he
    have ht := of_decide_eq_true hs
    exact ⟨s, ht, by rw [(inFlightRequests_eq hreach).2.1, ht]⟩
  · have he : (exec step (fun _ _ => True) (init 4) [.user .call, .user (.startTask 0),
        .user (.awaitOp (.read ⟨3, 100, 8⟩)), .sub 1, .tau, .user .start, .message 0, .cqe 0 8 0,
        .user (.na (.write ⟨4, 200, 8⟩) 1), .user .kill, .user (.startTask 1), .tau, .tau, .tau, .tau, .sub 1,
        .tau, .tau, .tau, .tau, .tau, .user (.coReturn 0), .tau, .tau, .tau, .tau, .message 0, .cqe 0 8 0, .tau, .tau,
        .message 0, .cqe 0 0 0, .tau, .tau, .tau]).map (fun s => decide (s.taken = 3 ∧ s.ev.managerLifeState = .dead)) =
        some true := by decide
    obtain ⟨s, hreach, hs⟩ := Reach.of_exec (.up 4) he
    obtain ⟨ht, hd⟩ := of_decide_eq_true hs
    obtain ⟨hseen, hring, -⟩ := (inFlightRequests_eq hreach).2.2.2 (.inl hd)
    exact ⟨s, ht, hseen, hring⟩

end EvManager
