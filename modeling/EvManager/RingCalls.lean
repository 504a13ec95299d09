import EvManager.Faults

/-!
# Calls on a ring that is down

Most of the program never calls on the ring, or looks at the life of the manager first; the rest is `unchecked`.
**`ring_calls_safe`**: a run that leaves those calls alone once the manager is DEAD makes none on a ring that is down.
-/

namespace EvManager

open Lib State ErrorProcessing

namespace State

variable {s : State} {h : CoroId}

theorem avoids_eventHandler {res : ℤ} {x : Option ReqId} {base : Addr} :
    Avoids (.undefined .ringDown) (s.eventHandler res x base) := by
  unfold eventHandler
  split
  · exact .ok _
  · simp only
    split
    · split
      · exact .ok _
      · refine .bind ?_ fun pack _ => avoids_resume rfl
        cases responsePack _ _ res base <;> simp [need]
    · split <;> simp

theorem avoids_eventHandlerReturn {r : ReqId} : Avoids (.undefined .ringDown) (s.eventHandlerReturn r h) := by
  unfold eventHandlerReturn
  simp only
  split
  · split <;> simp
  · exact .ok _

/-- The step reaches the ring without a look at the life of the manager: `submit_queued_entries` is called by user
code or by a batch, or an awaitable that holds an entry is awaited. -/
def unchecked (s : State) (c : Choice) : Bool :=
  match s.stack, c with
  | _, .user (.submitQueuedEntries _) => true
  | .run _ :: _, .sub _ => true
  | .run _ :: _, .user (.awaitIo r) => !isThereAnError (s.reqs r).error
  | _, _ => false

/-- A manager that is DEAD is asked for nothing that reaches the ring without a look at its life, and the ring is not
exited while a parked completion is handed over before `io_uring_wait_cqe`. -/
def RingKept (s : State) (c : Choice) : Prop :=
  (s.ev.managerLifeState = .dead → s.unchecked c = false) ∧ (s.atExit = true → Activation.awaitWait ∉ s.stack)

instance (s : State) (c : Choice) : Decidable (s.RingKept c) := by unfold RingKept; infer_instance

end State

/-! ### Along a run -/

theorem Reachable.guarded {s : State} (h : Reachable s) : s.Guarded := by
  intro hdown
  unfold State.shouldRestrictUsage
  rw [h.counted.ringUp.mp hdown]
  rfl

theorem Reachable.ringUp_of_ne_dead {s : State} (h : Reachable s) (hl : s.ev.managerLifeState ≠ .dead) :
    s.ev.ringUp = true := by
  by_contra hdown
  exact hl (h.counted.ringUp.mp (by simpa using hdown))

/-- `kill_internal` runs on a ring that is up, once it has begun. -/
theorem Reachable.ringUp_of_kill {s : State} (h : Reachable s) {x : CoroId} {rest : List Activation} {pc : KillPc}
    (hst : s.stack = .run x :: rest) (hb : (s.coros x).body = .killInternal pc) (hpc : pc ≠ .begin) :
    s.ev.ringUp = true := by
  obtain rfl := (h.killing.only x).mp (by rw [hb]; rfl)
  refine h.ringUp_of_ne_dead ?_
  rw [h.killPlace.dying (h.sound.place_of_top hst) (by rw [hb]; simpa using hpc)]
  simp

theorem awaitWait_of_step {s s' : State} {c : Choice} (hs : State.step s c = .ok s')
    (h0 : Activation.awaitWait ∉ s.stack)
    (hm : Activation.awaitWait ∈ s'.stack) : s.ev.managerLifeState ≠ .dead ∧ s.atExit = false := by
  obtain ⟨rest, hst⟩ : ∃ rest, s.stack = .start :: rest := by
    have hss := step_stack hs
    generalize s.stack = st at hss h0
    generalize s'.stack = st' at hss hm
    cases hss <;> simp_all
  have hexit : s.atExit = false := by simp [State.atExit, hst]
  refine ⟨fun hd => ?_, hexit⟩
  cases c <;> simp only [State.step, hst] at hs <;> try cases hs
  · rw [hd] at hs
    simp only [lt_irrefl, if_false] at hs
    cases hs
    rw [stack_pop, hst, List.tail_cons] at hm
    rw [hst] at h0
    exact h0 (List.mem_cons_of_mem _ hm)
  · rw [hd] at hs
    simp at hs

/-- While the loop is about to wait the ring is up. -/
theorem ringUp_of_awaitWait {s : State} (h : Reach State.RingKept s) :
    Activation.awaitWait ∈ s.stack → s.ev.ringUp = true := by
  refine Reach.inv_of (J := Reach State.RingKept) (I := fun s => Activation.awaitWait ∈ s.stack → s.ev.ringUp = true)
    (fun s hs => hs) (fun s hi hm => ?_) (fun s c s' hr ih hkept hs hm => ?_) h
  · rw [hi.stack] at hm
    simp at hm
  · by_contra hdown
    have hdown' : s'.ev.ringUp = false := by simpa using hdown
    by_cases h0 : Activation.awaitWait ∈ s.stack
    · exact hkept.2 (atExit_of_step hs (ih h0) hdown') h0
    · obtain ⟨hl, hexit⟩ := awaitWait_of_step hs h0 hm
      have h1 := atExit_of_step hs (hr.reachable.ringUp_of_ne_dead hl) hdown'
      rw [hexit] at h1
      cases h1

/-- **No call on a ring that is down.**  In a run that asks a manager that is DEAD for nothing that reaches the ring
without a look at its life, and exits the ring in no hand-over of a parked completion, no step calls on the ring or
writes an entry of it while it is down, the ring is exited only while it is up, and it is up where the loop is about
to wait. -/
theorem ring_calls_safe {s : State} {c : Choice} (h : Reach State.RingKept s) (hc : s.RingKept c) :
    State.step s c ≠ .error (.undefined .ringDown) ∧ (s.atExit = true → s.ev.ringUp = true) ∧
      ∀ rest, s.stack = .awaitWait :: rest → s.ev.ringUp = true := by
  have hreach := h.reachable
  have hg := hreach.guarded
  have hwait : ∀ rest, s.stack = .awaitWait :: rest → s.ev.ringUp = true := fun rest hst =>
    ringUp_of_awaitWait h (by simp [hst])
  have hkill : ∀ {x rest pc}, s.stack = .run x :: rest → (s.coros x).body = .killInternal pc → pc ≠ .begin →
      s.ev.ringUp = true := hreach.ringUp_of_kill
  refine ⟨?_, fun hx => ?_, hwait⟩
  · show Avoids (.undefined .ringDown) (State.step s c)
    have hlife : s.unchecked c = true → s.ev.ringUp = true := by
      refine fun hu => hreach.ringUp_of_ne_dead fun hd => ?_
      rw [hc.1 hd] at hu
      cases hu
    unfold State.step
    split
    · rename_i a _ _
      refine avoids_userStep rfl (fun _ => hg) fun _ ret ha => hlife ?_
      rw [ha]
      simp [State.unchecked]
    · split
      · unfold State.awaitMessage
        simp only
        split
        · exact avoids_eventHandler
        · exact .ok _
      · exact avoids_disabled
    · split <;> simp
    · rename_i hst
      unfold State.awaitCqe
      rw [if_pos (hwait _ hst)]
      split
      · exact avoids_eventHandler
      · exact avoids_disabled
    · simp
    · rename_i hst
      refine avoids_awaitSeen rfl fun _ => ?_
      by_contra hdown
      have h1 := ((inFlightRequests_eq hreach).2.2.2 (.inr (by simpa using hdown))).2.2
      exact h1 (by simp [hst])
    · exact avoids_eventHandlerReturn
    · rename_i hst
      refine avoids_bodyStep rfl fun _ =>
        ⟨hg, fun ret ha => hlife ?_, fun r ha he => hlife ?_, fun ret q l ha _ => hlife ?_,
        fun pc hb hpc => hkill hst hb hpc⟩
      · simp [State.unchecked, ha]
      · simp [State.unchecked, ha, hst, he]
      · simp [State.unchecked, ha, hst]
    · exact avoids_startReturn rfl
    · exact avoids_registerCoroReturn rfl
    · exact avoids_awaitSuspendTail rfl
    · exact .ok _
    · rename_i hst
      exact avoids_ioSubmit rfl fun _ => hreach.submitsUp _ _ _ hst
    · exact avoids_disabled
  · obtain ⟨x, rest, hst, hb, -⟩ := atExit_iff.mp hx
    exact hkill hst hb (by simp)

/-- A coroutine goes on after its `co_await kill()`, with the ring exited, and returns. -/
theorem ring_calls_safe_kill : ∃ s : State, s.ev.managerLifeState = .dead ∧ s.ev.ringUp = false ∧
    (∃ rest, s.stack = .run 1 :: rest) ∧ State.step s (.user (.coReturn 0)) ≠ .error (.undefined .ringDown) := by
  have he : (exec State.step State.RingKept (init 4) [.user .call, .user (.startTask 0),
      .user (.awaitOp (.read ⟨3, 100, 8⟩)), .sub 1, .tau, .user .start, .message 0, .cqe 0 8 0, .user .kill,
      .user (.awaitTask 1), .tau, .tau, .tau, .tau, .sub 1, .tau, .tau, .tau, .tau, .tau, .tau, .tau, .tau, .tau,
      .message 0, .cqe 0 0 0, .tau, .tau, .tau]).map (fun s =>
        decide (s.ev.managerLifeState = .dead ∧ s.ev.ringUp = false ∧ s.stack.head? = some (.run 1) ∧
          s.RingKept (.user (.coReturn 0)))) = some true := by decide
  obtain ⟨s, hreach, hs⟩ := Reach.of_exec (.up 4) he
  obtain ⟨hl, hup, htop, hc⟩ := of_decide_eq_true hs
  exact ⟨s, hl, hup, List.head?_eq_some_iff.mp htop, (ring_calls_safe hreach hc).1⟩

/-- The step calls on a ring that is down. -/
def State.callsDown (s : State) (c : Choice) : Bool :=
  match State.step s c with
  | .error (.undefined .ringDown) => true
  | _ => false

theorem State.callsDown_iff {s : State} {c : Choice} :
    s.callsDown c = true ↔ State.step s c = .error (.undefined .ringDown) := by
  unfold State.callsDown
  split <;> simp_all

/-- Calls on a ring that is down: `submit_queued_entries` in a coroutine that goes on after its `co_await kill()`,
`submit_and_wait` on a manager whose constructor failed, the `co_await` of an awaitable made before the manager was
DEAD, and `io_uring_wait_cqe` after a handler of parked completions has killed the manager. -/
theorem ring_calls_safe_fails :
    (∃ s : State, Reachable s ∧ State.step s (.user (.submitQueuedEntries 0)) = .error (.undefined .ringDown)) ∧
    (∃ s : State, Reachable s ∧ (∃ h rest, s.stack = .run h :: rest ∧ (s.coros h).body = .submitAndWait [] {}) ∧
      State.step s (.sub 0) = .error (.undefined .ringDown)) ∧
    (∃ s : State, Reachable s ∧ State.step s (.user (.awaitIo 0)) = .error (.undefined .ringDown)) ∧
    ∃ s : State, Reachable s ∧ State.step s (.cqe 0 0 0) = .error (.undefined .ringDown) := by
  refine ⟨?_, ?_, ?_, ?_⟩
  · have he : (exec State.step (fun _ _ => True) (init 4) [.user .call, .user (.startTask 0),
        .user (.awaitOp (.read ⟨3, 100, 8⟩)), .sub 1, .tau, .user .start, .message 0, .cqe 0 8 0, .user .kill,
        .user (.awaitTask 1), .tau, .tau, .tau, .tau, .sub 1, .tau, .tau, .tau, .tau, .tau, .tau, .tau, .tau, .tau,
        .message 0, .cqe 0 0 0, .tau, .tau, .tau]).map
          (fun s => s.callsDown (.user (.submitQueuedEntries 0))) = some true := by decide
    obtain ⟨s, hreach, hs⟩ := Reach.of_exec (.up 4) he
    exact ⟨s, hreach, State.callsDown_iff.mp hs⟩
  · have he : (exec State.step (fun _ _ => True) initFailed [.user (.submitAndWait []), .user (.startTask 0)]).map
        (fun s => decide (s.stack.head? = some (.run 1) ∧ (s.coros 1).body = .submitAndWait [] {} ∧
          s.callsDown (.sub 0) = true)) = some true := by decide
    obtain ⟨s, hreach, hs⟩ := Reach.of_exec .failed he
    obtain ⟨htop, hb, hd⟩ := of_decide_eq_true hs
    obtain ⟨rest, hst⟩ := List.head?_eq_some_iff.mp htop
    exact ⟨s, hreach, ⟨1, rest, hst, hb⟩, State.callsDown_iff.mp hd⟩
  · have he : (exec State.step (fun _ _ => True) (init 4) [.user .call, .user (.startTask 0),
        .user (.io (.read ⟨3, 100, 8⟩)), .user .kill, .user (.startTask 1), .tau, .tau, .sub 0, .tau, .tau,
        .sub 0, .tau, .tau, .tau, .tau, .tau, .tau, .tau,
        .tau]).map (fun s => s.callsDown (.user (.awaitIo 0))) = some true := by decide
    obtain ⟨s, hreach, hs⟩ := Reach.of_exec (.up 4) he
    exact ⟨s, hreach, State.callsDown_iff.mp hs⟩
  · have he : (exec State.step (fun _ _ => True) (init 4) [.user (.na (.read ⟨3, 100, 8⟩) 1), .user .poll,
        .user (.startTask 0), .tau, .tau, .user .start, .message 0, .cqe 0 8 0, .tau, .message 0, .user .kill,
        .user (.startTask 1), .tau, .tau, .tau, .tau, .sub 0, .tau, .tau, .tau, .tau, .tau, .tau, .tau, .tau,
        .user (.handlerReturn true), .tau, .tau]).map (fun s => s.callsDown (.cqe 0 0 0)) = some true := by decide
    obtain ⟨s, hreach, hs⟩ := Reach.of_exec (.up 4) he
    exact ⟨s, hreach, State.callsDown_iff.mp hs⟩

end EvManager
