import EvManager.Calls
import EvManager.Leaks

/-!
# Every completion is delivered once

A completion is dispatched at once, or parked in `_ready_requests_store` until a poll takes it from there.
**`completions_delivered`**: in every run, what has completed is what was delivered and what is still parked, each
completion once and with its own result.  **`parked_last_first`**: the store is a stack, so of the requests in it
the one that was parked last is delivered first.
-/

namespace EvManager

open Lib State

/-- The completion that was noted. -/
def Event.completion : Event → Option (ReqId × ℤ)
  | .completed r res => some (r, res)
  | _ => none

/-- The delivery that was noted: on account of which request, with which result. -/
def Event.delivery : Event → Option (ReqId × ℤ)
  | .resumed r _ res _ => some (r, res)
  | _ => none

namespace State

variable {s s' s'' : State} {c : Choice}

/-- What has completed, newest first. -/
def completions (s : State) : List (ReqId × ℤ) := s.trace.filterMap Event.completion

/-- What was delivered, newest first. -/
def deliveries (s : State) : List (ReqId × ℤ) := s.trace.filterMap Event.delivery

/-- What is parked, newest first. -/
def parked (s : State) : List (ReqId × ℤ) := s.ev.readyRequestsStore.map Prod.swap

/-- Between `s` and `s'` nothing was dispatched or parked. -/
structure Undispatched (s s' : State) : Prop where
  trace : ∃ es, s'.trace = es ++ s.trace ∧ ∀ e ∈ es, e.completion = none ∧ e.delivery = none
  ready : s'.ev.readyRequestsStore = s.ev.readyRequestsStore

namespace Undispatched

theorem of_eq (ht : s'.trace = s.trace) (hr : s'.ev.readyRequestsStore = s.ev.readyRequestsStore) : Undispatched s s' :=
  ⟨⟨[], ht, by simp⟩, hr⟩

theorem refl (s : State) : Undispatched s s := .of_eq rfl rfl

theorem trans (h : Undispatched s s') (h' : Undispatched s' s'') : Undispatched s s'' := by
  obtain ⟨⟨es, ht, he⟩, hr⟩ := h
  obtain ⟨⟨es', ht', he'⟩, hr'⟩ := h'
  refine ⟨⟨es' ++ es, by rw [ht', ht, List.append_assoc], fun e hm => ?_⟩, hr'.trans hr⟩
  exact (List.mem_append.mp hm).elim (he' e) (he e)

theorem log {e : Event} (h : Undispatched s s') (hc : e.completion = none) (hd : e.delivery = none) :
    Undispatched s (s'.log e) :=
  h.trans ⟨⟨[e], rfl, by simpa using ⟨hc, hd⟩⟩, rfl⟩

theorem of_quiet (h : Quiet s s') : Undispatched s s' := by
  obtain ⟨es, ht, he⟩ := h.trace
  refine ⟨⟨es, ht, fun e hm => ?_⟩, h.ready⟩
  have h1 := he e hm
  cases e <;> first | exact ⟨rfl, rfl⟩ | cases h1

theorem completions (h : Undispatched s s') : s'.completions = s.completions := by
  obtain ⟨es, ht, he⟩ := h.trace
  unfold State.completions
  rw [ht, List.filterMap_append, List.filterMap_eq_nil_iff.mpr fun e hm => (he e hm).1, List.nil_append]

theorem deliveries (h : Undispatched s s') : s'.deliveries = s.deliveries := by
  obtain ⟨es, ht, he⟩ := h.trace
  unfold State.deliveries
  rw [ht, List.filterMap_append, List.filterMap_eq_nil_iff.mpr fun e hm => (he e hm).2, List.nil_append]

theorem parked (h : Undispatched s s') : s'.parked = s.parked := by
  unfold State.parked
  rw [h.ready]

end Undispatched

theorem undispatched_submit {ret : ℤ} (hs : s.submitQueuedEntries ret = .ok s') : Undispatched s s' := by
  obtain ⟨-, -, -, rfl⟩ := submitQueuedEntries_ok hs
  exact .of_eq rfl rfl

theorem undispatched_ioOp {ctx : Option CoroId} {p : ParameterPack} {a : ReqId} (hs : s.ioOp ctx p = .ok (a, s')) :
    Undispatched s s' := by
  obtain ⟨-, -, sqe, s1, h1, rfl⟩ := ioOp_ok hs
  rcases getUringSqe_ok h1 with ⟨-, -, rfl⟩ | ⟨j, ring, -, -, -, -, rfl⟩ <;> cases ctx <;> exact .of_eq rfl rfl

theorem undispatched_awaitIo {h : CoroId} {a : ReqId} (hs : s.awaitIo h a = .ok s') : Undispatched s s' := by
  rcases awaitIo_ok hs with ⟨-, ⟨-, rfl⟩ | ⟨j, -, -, -, rfl⟩⟩
  · exact ⟨⟨[_], rfl, by simp [Event.completion, Event.delivery]⟩, rfl⟩
  · exact .of_eq rfl rfl

theorem undispatched_processRequests {h : CoroId} {l : List (ParameterPack × ReqId)} : ∀ {s s' : State},
    s.processRequests h l = .ok s' → Undispatched s s' := by
  induction l with
  | nil =>
    intro s s' hs
    cases hs
    exact .refl s
  | cons y l ih =>
    intro s s' hs
    obtain ⟨req, a⟩ := y
    obtain ⟨⟨b, s1⟩, h1, h2⟩ := bind_ok.mp hs
    refine .trans ?_ (ih h2)
    rcases processSingleGenericRequest_ok h1 with ⟨-, -, rfl⟩ | ⟨-, -, -, j, ring, -, rfl⟩ <;> exact .of_eq rfl rfl

/-! ### What a step dispatches -/

/-- What a step does with the completions: nothing; it parks one that has come, or delivers it; or it delivers the
one that was parked last. -/
inductive Dispatching (s : State) (c : Choice) (s' : State) : Prop
  | nothing : Undispatched s s' → Dispatching s c s'
  | comes {i : ℕ} {r : ReqId} {res : ℤ} {base : Addr} {y : Slot} {rest : List Activation} :
      s.stack = .awaitWait :: rest →
      c = .cqe i res base → s.ev.ring.inFlight[i]? = some y → y.sqe.userData = some r →
      s'.completions = (r, res) :: s.completions →
      s'.deliveries = s.deliveries ∧ s'.parked = (r, res) :: s.parked ∨
        s'.deliveries = (r, res) :: s.deliveries ∧ s'.parked = s.parked → Dispatching s c s'
  | unparks {x : ReqId × ℤ} {rest : List Activation} : s.stack = .start :: rest → s'.completions = s.completions →
      s'.deliveries = x :: s.deliveries → s.parked = x :: s'.parked → Dispatching s c s'

theorem eventHandler_dispatches {res : ℤ} {r : ReqId} {base : Addr} (hs : s.eventHandler res (some r) base = .ok s') :
    s'.completions = s.completions ∧
      ((s.reqs r).data.handle = none ∧ s'.deliveries = s.deliveries ∧ s'.parked = (r, res) :: s.parked ∨
        s'.deliveries = (r, res) :: s.deliveries ∧ s'.parked = s.parked) := by
  unfold State.eventHandler at hs
  simp only at hs
  split at hs
  · split at hs
    · rename_i hh
      cases hs
      exact ⟨rfl, .inl ⟨hh, rfl, rfl⟩⟩
    · obtain ⟨d, -, h1⟩ := bind_ok.mp hs
      have hq := Undispatched.of_quiet (Quiet.resume h1)
      exact ⟨hq.completions, .inr ⟨hq.deliveries, hq.parked⟩⟩
  · cases hs

/-- **What a step does with the completions.** -/
theorem step_dispatches (hs : State.step s c = .ok s') : Dispatching s c s' := by
  cases step_effect hs with
  | quiet hq => exact .nothing (.of_quiet hq)
  | io h1 => exact .nothing (undispatched_ioOp h1)
  | awaitIo _ h1 => exact .nothing (undispatched_awaitIo h1)
  | awaitOp _ h1 h2 => exact .nothing ((undispatched_ioOp h1).trans (undispatched_awaitIo h2))
  | na h1 =>
    rcases naOp_ok h1 with ⟨-, -, rfl⟩ | ⟨-, j, ring, s2, -, h2, ⟨-, -, rfl⟩ | ⟨-, -, rfl⟩⟩
    · exact .nothing (.of_eq rfl rfl)
    · have hq := undispatched_submit h2
      exact .nothing ⟨(hq.log (e := .deleted s.nextReq) rfl rfl).trace, hq.ready⟩
    · have hq := undispatched_submit h2
      exact .nothing ⟨(hq.log (e := .accepted s.nextReq) rfl rfl).trace, hq.ready⟩
  | submit _ _ hq h1 hq' =>
    exact .nothing ((Undispatched.of_quiet hq).trans ((undispatched_submit h1).trans (.of_quiet hq')))
  | rawSqe h1 =>
    rcases getUringSqe_ok h1 with ⟨-, -, rfl⟩ | ⟨j, ring, -, -, -, -, rfl⟩ <;> exact .nothing (.of_eq rfl rfl)
  | start | leave | dying => exact .nothing (.of_eq rfl rfl)
  | message hst h1 =>
    unfold State.awaitMessage at h1
    simp only at h1
    split at h1
    · rename_i res r ready p hready hpoll
      have hparked : s.parked = (r, res) :: ready.map Prod.swap := by
        unfold State.parked
        rw [hready]
        rfl
      rcases eventHandler_dispatches h1 with ⟨hc, ⟨hh, -⟩ | ⟨hd, hp⟩⟩
      · simp [modReq] at hh
      · exact .unparks hst hc hd (hparked.trans (congrArg _ hp.symm))
    · cases h1
      exact .nothing (.of_eq rfl rfl)
  | cqe hst h1 =>
    unfold State.awaitCqe at h1
    split at h1
    · split at h1
      · rename_i y hy
        cases hu : y.sqe.userData with
        | none =>
          rw [hu] at h1
          cases h1
          exact .nothing (.of_eq rfl rfl)
        | some r =>
          simp only [hu] at h1
          obtain ⟨hc, hd⟩ := eventHandler_dispatches h1
          exact .comes hst rfl hy hu hc (hd.imp_left And.right)
      · cases h1
    · cases h1
  | seen _ h1 =>
    unfold State.awaitSeen at h1
    split at h1
    · simp only at h1
      split at h1
      · have hq := Undispatched.of_quiet (Quiet.resume h1)
        exact .nothing ⟨hq.trace, hq.ready⟩
      · cases h1
      · cases h1
        exact .nothing (.of_eq rfl rfl)
    · cases h1
  | @handlerReturn r _ _ _ _ h1 =>
    have hready := eventHandlerReturn_ready h1
    obtain ⟨-, -, -, -, -, -, ⟨-, -, -, ht⟩ | ⟨-, -, ht⟩⟩ := eventHandlerReturn_ok h1
    · exact .nothing ⟨⟨[.deleted r], ht, by simp [Event.completion, Event.delivery]⟩, hready⟩
    · exact .nothing ⟨⟨[], ht, by simp⟩, hready⟩
  | cancel _ _ h1 =>
    obtain ⟨ring, -, -, rfl⟩ := ioUringGetSqe_some h1
    exact .nothing (.of_eq rfl rfl)
  | dead hst _ _ h1 =>
    have hq := Undispatched.of_quiet (Quiet.finish (by exact hst) h1)
    exact .nothing ⟨hq.trace, hq.ready⟩
  | batch hst _ _ h1 =>
    obtain ⟨s1, h2, ⟨-, h3⟩ | ⟨-, s2, h3, rfl⟩⟩ := submitAndWaitBegin_ok h1
    · exact .nothing ((undispatched_submit h2).trans
        (.of_quiet (Quiet.finish (by rw [(submitQueuedEntries_stack h2).1]; exact hst) h3)))
    · have hq := undispatched_processRequests h3
      exact .nothing ((undispatched_submit h2).trans ⟨hq.trace, hq.ready⟩)
  | poll _ _ _ _ hq => exact .nothing ⟨(Undispatched.of_quiet hq).trace, hq.ready⟩
  | @register v idx grow rest _ _ h1 =>
    unfold State.registerCoroReturn at h1
    obtain ⟨s1, h2, h3⟩ := bind_ok.mp h1
    obtain ⟨t, -, h4⟩ := bind_ok.mp h3
    cases h4
    obtain ⟨coros, heq, -⟩ := insertTask_eq idx t s1
    have hq := Undispatched.of_quiet (Quiet.makeRoom h2)
    exact .nothing ⟨by rw [heq]; exact hq.trace, by rw [heq]; exact hq.ready⟩

/-- **Every completion is accounted for**: it was delivered, or is parked. -/
theorem completions_perm {s : State} (h : Reachable s) : s.completions.Perm (s.deliveries ++ s.parked) := by
  refine Reach.inv (I := fun s => s.completions.Perm (s.deliveries ++ s.parked)) (fun s hi => ?_)
    (fun s c s' hp _ hs => ?_) h
  · cases hi <;> exact .refl _
  · cases step_dispatches hs with
    | nothing h1 =>
      rw [h1.completions, h1.deliveries, h1.parked]
      exact hp
    | comes _ _ _ _ hc h1 =>
      rcases h1 with ⟨hd, hpk⟩ | ⟨hd, hpk⟩
      · rw [hc, hd, hpk]
        exact (hp.cons _).trans List.perm_middle.symm
      · rw [hc, hd, hpk]
        exact hp.cons _
    | unparks _ hc hd hpk =>
      rw [hc, hd]
      rw [hpk] at hp
      exact hp.trans List.perm_middle

/-- From `s` to `s'` the requests on top of the store of `s` were delivered, the topmost first, and those under them
are parked still, below what was parked since. -/
def LastFirst (s s' : State) : Prop :=
  ∃ taken new rest ds, s.parked = taken ++ rest ∧ s'.parked = new ++ rest ∧ s'.deliveries = ds ++ s.deliveries ∧
    taken.reverse.Sublist ds

theorem LastFirst.refl (s : State) : LastFirst s s := ⟨[], [], s.parked, [], rfl, rfl, rfl, .refl _⟩

/-- One more step: it puts a request on top, or takes the topmost one, which is a new one or the first of the rest. -/
theorem LastFirst.step (h : LastFirst s s') (hs : State.step s' c = .ok s'') : LastFirst s s'' := by
  obtain ⟨taken, new, rest, ds, h1, h2, h3, h4⟩ := h
  cases step_dispatches hs with
  | nothing hu => exact ⟨taken, new, rest, ds, h1, hu.parked.trans h2, hu.deliveries.trans h3, h4⟩
  | comes _ _ _ _ _ hd =>
    rcases hd with ⟨hd, hp⟩ | ⟨hd, hp⟩
    · exact ⟨taken, _ :: new, rest, ds, h1, by rw [hp, h2, List.cons_append], hd.trans h3, h4⟩
    · exact ⟨taken, new, rest, _ :: ds, h1, hp.trans h2, by rw [hd, h3, List.cons_append], h4.cons _⟩
  | @unparks x _ _ _ hd hp =>
    rw [h2] at hp
    cases new with
    | nil =>
      refine ⟨taken ++ [x], [], s''.parked, x :: ds, ?_, rfl, by rw [hd, h3, List.cons_append], ?_⟩
      · rw [h1, show rest = x :: s''.parked from hp, List.append_assoc, List.singleton_append]
      · rw [List.reverse_append, List.reverse_singleton, List.singleton_append]
        exact h4.cons_cons _
    | cons y new =>
      obtain ⟨rfl, hp'⟩ := List.cons.inj hp
      exact ⟨taken, new, rest, y :: ds, h1, hp'.symm, by rw [hd, h3, List.cons_append], h4.cons _⟩

end State

/-- **Every completion is delivered once.**  However many requests complete, in whatever order, each pair of a
request and a result was delivered as often as it completed, less the times it is still parked for a poll. -/
theorem completions_delivered {s : State} (h : Reachable s) (x : ReqId × ℤ) :
    s.completions.count x = s.deliveries.count x + s.parked.count x := by
  rw [(completions_perm h).count_eq x, List.count_append]

/-- A `_na` request is issued and accepted, a coroutine polls, and the request completes with the result 4: it was
delivered. -/
theorem completions_delivered_polled : ∃ s : State, s.completions = [(0, 4)] ∧
    s.completions.count (0, 4) = s.deliveries.count (0, 4) + s.parked.count (0, 4) := by
  have he : (exec State.step (fun _ _ => True) (init 4)
    [.user (.na (.read ⟨3, 100, 8⟩) 1), .user .poll, .user (.startTask 0), .tau,
      .tau, .user .start, .message 0, .cqe 0 4 0, .tau, .message 0]).map
      (fun s => decide (s.completions = [(0, 4)])) = some true := by
    decide
  obtain ⟨s, hreach, hs⟩ := Reach.of_exec (.up 4) he
  exact ⟨s, of_decide_eq_true hs, completions_delivered hreach (0, 4)⟩

/-- **What is parked last is delivered first**, in every stretch of every run. -/
theorem parked_last_first {s s' : State} (h : Run State.step (fun _ _ => True) s s') : LastFirst s s' :=
  h.inv (I := LastFirst s) (.refl s) fun _ _ _ hl _ hs => hl.step hs

/-- Two `_na` requests complete before a coroutine, resumed by a third completion, polls: the second was delivered. -/
theorem parked_last_first_two : ∃ s s' : State, s.parked = [(1, 4), (0, 8)] ∧ s'.parked = [(0, 8)] ∧
    LastFirst s s' := by
  have he : ((exec State.step (fun _ _ => True) (init 4)
    [.user (.na (.read ⟨3, 100, 8⟩) 1), .user (.na (.read ⟨3, 100, 8⟩) 1),
      .user .call, .user (.startTask 0), .user (.awaitOp (.read ⟨3, 200, 8⟩)), .sub 1, .tau, .user .start,
      .message 0, .cqe 0 8 0, .tau, .message 0, .cqe 0 4 0, .tau, .message 0, .cqe 0 2 0, .user .poll,
      .user (.awaitTask 1), .tau, .tau, .tau, .tau, .tau]).bind fun s =>
      (State.step s (.message 0)).toOption.map fun s' =>
        decide (s.parked = [(1, 4), (0, 8)] ∧ s'.parked = [(0, 8)])) = some true := by decide
  obtain ⟨s, s', -, hs, hp⟩ := Run.exists_step_of_exec (p := fun s s' : State =>
    decide (s.parked = [(1, 4), (0, 8)] ∧ s'.parked = [(0, 8)])) he
  obtain ⟨h1, h2⟩ := of_decide_eq_true hp
  exact ⟨s, s', h1, h2, parked_last_first (.tail .refl trivial hs)⟩

end EvManager
