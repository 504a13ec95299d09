import EvManager.Loop

/-!
# Polling and the parked completions

**`not_starved`**: as long as a coroutine is set to wait in `poll` during the hand-over of a parked completion only
when no other completion is parked or some request is in flight, the loop never blocks on a poller that could be
served.
-/

namespace EvManager

open Lib State

namespace State

instance (h : CoroId) (c : Choice) (s : State) : Decidable (s.Arms h c) := by unfold Arms; infer_instance

/-- A coroutine that is made to wait in `poll` while `await_message` hands over a parked completion, and so is
still to block, leaves no completion parked or has a request in flight to wait for. -/
def ArmsAnswered (s : State) (c : Choice) : Prop :=
  match s.stack with
  | .run h :: rest => s.Arms h c → Activation.awaitWait ∈ rest →
      s.ev.readyRequestsStore = [] ∨ 0 < s.ev.inFlightRequests
  | _ => True

instance (s : State) (c : Choice) : Decidable (s.ArmsAnswered c) := by
  unfold ArmsAnswered
  split <;> infer_instance

/-- Blocking in `io_uring_wait_cqe` starves no poller. -/
def Fed (s : State) : Prop :=
  Activation.awaitWait ∈ s.loops →
    0 < s.ev.inFlightRequests ∨ s.ev.readyRequestsStore = [] ∨ s.ev.pollingHandle = none

/-- Resuming the poller clears `_polling_handle`. -/
theorem resume_polling {s s' : State} {p : CoroId} {cause : Option ReqId} (hb : (s.coros p).body = .poll .waiting)
    (hplace : (s.coros p).place = .atGeneric ∨ (s.coros p).place = .gone) (hs : s.resume p cause = .ok s') :
    s'.ev.pollingHandle = none := by
  unfold State.resume at hs
  rcases hplace with hplace | hplace <;> rw [hplace] at hs <;> simp only at hs
  · have hb' : ((s.enter p).coros p).body = .poll .waiting := by
      simpa [State.enter, State.setPlace, State.modCoro, State.push] using hb
    unfold State.genericResume at hs
    simp only [hb'] at hs
    cases hs
    rfl
  · cases hs

/-- When `await_message` hands a parked completion to the poller, the poller stops waiting. -/
theorem awaitMessage_polling {s s' : State} {base : Addr} (hr : Records s) (hs : s.awaitMessage base = .ok s') :
    s'.ev.pollingHandle = none ∨ s'.ev.readyRequestsStore = [] := by
  unfold State.awaitMessage at hs
  simp only at hs
  split at hs
  · rename_i res r ready p hready hpoll
    obtain ⟨-, hb, hplace⟩ := hr.polling p hpoll
    left
    unfold State.eventHandler at hs
    simp only at hs
    split at hs
    · have hh : ((((s.push .awaitWait).modEv fun ev => { ev with readyRequestsStore := ready }).modReq r fun q =>
          { q with data := { q.data with handle := some p } }).reqs r).data.handle = some p := by
        simp [State.modReq]
      rw [hh] at hs
      simp only at hs
      obtain ⟨pack, -, h2⟩ := bind_ok.mp hs
      refine resume_polling ?_ ?_ h2
      · simpa [State.modPromise, State.modCoro, State.modReq, State.modEv, State.push, State.log] using hb
      · simpa [State.modPromise, State.modCoro, State.modReq, State.modEv, State.push, State.log] using hplace
    · cases hs
  · rename_i hne
    cases hs
    cases hready : s.ev.readyRequestsStore with
    | nil => exact .inr hready
    | cons x ready =>
      cases hpoll : s.ev.pollingHandle with
      | none => exact .inl hpoll
      | some p => exact absurd hpoll (hne x.1 x.2 ready p hready)

namespace Fed

variable {s s' : State}

theorem same (hf : s.Fed) (hl : s'.loops = s.loops) (hn : s.ev.inFlightRequests ≤ s'.ev.inFlightRequests)
    (hready : s'.ev.readyRequestsStore = s.ev.readyRequestsStore)
    (hpoll : s'.ev.pollingHandle = none ∨ s'.ev.pollingHandle = s.ev.pollingHandle) : s'.Fed := by
  intro hm
  rw [hl] at hm
  rcases hf hm with h | h | h
  · exact .inl (h.trans_le hn)
  · exact .inr (.inl (hready.trans h))
  · exact .inr (.inr (hpoll.elim id fun he => he.trans h))

theorem issue (hf : s.Fed) (hi : Issue s s') : s'.Fed := hf.same hi.loops hi.inFlight hi.ready hi.polling

/-- A completion is taken off: the loop is past its wait. -/
theorem cqe (ho : OneLoop s) {i : ℕ} {res : ℤ} {base : Addr} {rest : List Activation}
    (hst : s.stack = .awaitWait :: rest) (hs : s.awaitCqe i res base = .ok s') : s'.Fed := by
  intro hm
  exfalso
  have hp : s.pop.loops = [.start] := by rw [State.loops, stack_pop, hst]; exact ho.of_await rfl hst
  have hw : (s.pop.push .awaitSeen).loops = [.awaitSeen, .start] := by
    rw [State.loops, stack_push, List.filter_cons_of_pos rfl]
    exact congrArg _ hp
  have hno : ∀ r h, s'.loops ≠ [.awaitSeen, .start] ∧ s'.loops ≠ [.eventHandler r h, .awaitSeen, .start] := by
    intro r h
    constructor <;> intro he <;> rw [he] at hm <;> simp at hm
  unfold State.awaitCqe at hs
  split at hs
  · split at hs
    · rcases (OneLoop.eventHandler_loops hs).1 with hl | ⟨r, h, hl⟩
      · refine (hno 0 0).1 (hl.trans ?_)
        split <;> exact hw
      · refine (hno r h).2 (hl.trans ?_)
        split <;> exact congrArg _ hw
    · cases hs
  · cases hs

/-- The completion is marked seen: only `start()` is left of the loop. -/
theorem seen (ho : OneLoop s) {rest : List Activation} (hst : s.stack = .awaitSeen :: rest)
    (hs : s.awaitSeen = .ok s') : s'.Fed := by
  intro hm
  have hp : s.pop.loops = [.start] := by rw [State.loops, stack_pop, hst]; exact ho.of_await rfl hst
  have hl : s'.loops = [.start] := by
    unfold State.awaitSeen at hs
    split at hs
    · simp only at hs
      split at hs
      · exact (Quiet.resume hs).loops.trans hp
      · cases hs
      · cases hs
        exact hp
    · cases hs
  rw [hl] at hm
  simp at hm

theorem handlerReturn (hf : s.Fed) {r : ReqId} {h : CoroId} {rest : List Activation}
    (hst : s.stack = .eventHandler r h :: rest) (hs : s.pop.eventHandlerReturn r h = .ok s') : s'.Fed := by
  have hp : s.loops = .eventHandler r h :: s.pop.loops := by
    rw [State.loops, State.loops, stack_pop, hst, List.filter_cons_of_pos rfl]
    rfl
  obtain ⟨hl, hn, hready, hpoll⟩ : s'.loops = s.pop.loops ∧ s'.ev.inFlightRequests = s.ev.inFlightRequests ∧
      s'.ev.readyRequestsStore = s.ev.readyRequestsStore ∧ s'.ev.pollingHandle = s.ev.pollingHandle := by
    unfold State.eventHandlerReturn at hs
    simp only at hs
    split at hs
    · split at hs
      · cases hs
        split <;> exact ⟨rfl, rfl, rfl, rfl⟩
      · cases hs
    · cases hs
      split <;> exact ⟨rfl, rfl, rfl, rfl⟩
  intro hm
  rw [hl] at hm
  have hm' : Activation.awaitWait ∈ s.loops := by rw [hp]; exact List.mem_cons_of_mem _ hm
  rw [hn, hready, hpoll]
  exact hf hm'

theorem step (hf : s.Fed) (hr : Records s) (ho : OneLoop s) {c : Choice} (ha : s.ArmsAnswered c)
    (hs : State.step s c = .ok s') : s'.Fed := by
  cases step_loopEffect hs with
  | issue hi => exact hf.issue hi
  | start hl =>
    intro hm
    have hm' : Activation.awaitWait ∈ s.loops := by
      rw [State.loops, stack_push, List.filter_cons_of_pos rfl, List.mem_cons] at hm
      exact hm.resolve_left (by simp)
    exact hf hm'
  | leave hst =>
    intro hm
    have hl : s.pop.loops = [] := by rw [State.loops, stack_pop, hst]; exact ho.of_start hst
    rw [hl] at hm
    cases hm
  | message hst h1 =>
    intro _
    exact .inr ((awaitMessage_polling hr h1).symm)
  | cqe hst h1 => exact cqe ho hst h1
  | seen hst h1 => exact seen ho hst h1
  | handlerReturn hst h1 => exact hf.handlerReturn hst h1
  | dying => exact hf
  | dead hst h0 hq => exact same (s := s) hf hq.loops (by rw [hq.inFlight]; exact le_rfl) hq.ready hq.polling
  | @poll _ h rest _ _ hst harm hq hq' =>
    intro hm
    rw [hq'.loops] at hm
    have hm' : Activation.awaitWait ∈ s.loops := hq.loops ▸ hm
    rw [ArmsAnswered, hst] at ha
    have hmem : Activation.awaitWait ∈ Activation.run h :: rest := hst ▸ (List.mem_filter.mp hm').1
    have hrest : Activation.awaitWait ∈ rest := (List.mem_cons.mp hmem).resolve_left fun he => by cases he
    rw [hq'.inFlight, hq'.ready]
    rcases ha harm hrest with h | h
    · exact .inr (.inl (hq.ready.trans h))
    · refine .inl ?_
      have hn : s.ev.inFlightRequests = _ := hq.inFlight.symm
      exact hn ▸ h
  | register hst h1 =>
    unfold State.registerCoroReturn at h1
    obtain ⟨s1, h2, h3⟩ := bind_ok.mp h1
    obtain ⟨e, -, h4⟩ := bind_ok.mp h3
    cases h4
    have hq := ((Quiet.pop hst rfl).trans (.makeRoom h2)).trans (.relink e s1)
    refine same (s := s1.relink e) (hf.issue (.of_quiet hq)) ?_ ?_ ?_ ?_ <;> unfold insertTask <;> simp only <;>
      split <;> first | rfl | exact le_rfl | exact .inr rfl

end Fed

end State

/-- **The loop never blocks while a poller waits for a completion that is already parked**, in every run in which
polling is taken up during a hand-over only when nothing else is parked or something is in flight. -/
theorem not_starved {s : State} (h : Reach State.ArmsAnswered s) {rest : List Activation}
    (hst : s.stack = .awaitWait :: rest) (h0 : s.ev.inFlightRequests = 0) :
    ¬ (s.ev.readyRequestsStore ≠ [] ∧ s.ev.pollingHandle ≠ none) := by
  have hf : s.Fed := by
    refine h.inv_of (J := fun s => Sound s ∧ OneLoop s) (fun s hr => ?_) (fun s hi hm => ?_)
      fun s c s' hj hf ha hs => hf.step ?_ hj.2 ha hs
    · exact ⟨hr.reachable.sound, hr.reachable.oneLoop⟩
    · rw [State.loops, hi.stack] at hm
      cases hm
    · rcases hj.1 with hc | ⟨s0, x, r, hc, -, rfl⟩
      · exact hc.records
      · exact hc.records.push _
  have hm : Activation.awaitWait ∈ s.loops := by
    rw [State.loops, hst, List.filter_cons_of_pos rfl]
    exact List.mem_cons_self
  rintro ⟨hready, hpoll⟩
  rcases hf hm with h1 | h1 | h1
  · omega
  · exact hready h1
  · exact hpoll h1

/-- A poller that is handed the one request there was and goes on. -/
theorem not_starved_once : ∃ s : State, s.stack = [.awaitWait, .start, .main] ∧ s.ev.pollingHandle = some 1 ∧
    ¬ (s.ev.readyRequestsStore ≠ [] ∧ s.ev.pollingHandle ≠ none) := by
  have he : (exec step ArmsAnswered (init 4) [.user .poll, .user (.startTask 0), .tau, .tau, .user (.na (.read {}) 1),
      .user .start, .message 0, .cqe 0 8 0, .tau, .message 0, .user (.handlerReturn false), .tau]).map (fun s =>
      decide (s.stack = [.awaitWait, .start, .main] ∧ s.ev.inFlightRequests = 0 ∧ s.ev.pollingHandle = some 1)) =
      some true := by decide
  obtain ⟨s, hreach, hs⟩ := Reach.of_exec (.up 4) he
  obtain ⟨hst, h0, hp⟩ := of_decide_eq_true hs
  exact ⟨s, hst, hp, not_starved hreach hst h0⟩

/-- Two completions are parked before the poller starts, which is handed one of them. -/
theorem not_starved_fails : ¬ ∀ (s : State) (rest : List Activation), Reachable s → s.stack = .awaitWait :: rest →
    s.ev.inFlightRequests = 0 → ¬ (s.ev.readyRequestsStore ≠ [] ∧ s.ev.pollingHandle ≠ none) := by
  intro hall
  have he : (exec step (fun _ _ => True) (init 4) [.user (.na (.read {}) 1), .user (.na (.read {}) 1), .user .call,
      .user (.registerCoro 0), .user (.awaitOp (.read {})), .sub 1, .tau, .pick 0 false, .user .start, .message 0,
      .cqe 0 1 0, .tau, .message 0, .cqe 0 1 0, .tau, .message 0, .cqe 0 1 0, .user .poll, .user (.startTask 1), .tau,
      .tau, .user (.coReturn 0), .tau, .tau, .tau, .message 0, .user (.handlerReturn false), .tau]).map (fun s =>
      decide (s.stack = [.awaitWait, .start, .main] ∧ s.ev.inFlightRequests = 0 ∧ s.ev.readyRequestsStore ≠ [] ∧
        s.ev.pollingHandle ≠ none)) = some true := by decide
  obtain ⟨s, hreach, hs⟩ := Reach.of_exec (.up 4) he
  obtain ⟨hst, h0, hready, hpoll⟩ := of_decide_eq_true hs
  exact hall s _ hreach hst h0 ⟨hready, hpoll⟩

end EvManager
