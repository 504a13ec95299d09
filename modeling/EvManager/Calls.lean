import EvManager.Promises
import EvManager.Rounds

/-!
# The calls of a handler

How often the handler of a batch was called, and for which of its requests: **`step_calls`**.  A record of the
batch has at most one entry pending or in flight or one call, and **`share_step`** says that a step gives it no
more.
-/

namespace EvManager

open Lib State

/-- The event is a call of the handler of `h`. -/
def Event.isCallOf (h : CoroId) : Event → Bool
  | .handled x .. => x = h
  | _ => false

/-- The record for which a handler was called. -/
def Event.cause : Event → Option ReqId
  | .handled _ r .. => r
  | _ => none

namespace State

variable {s s' : State} {c : Choice} {x : CoroId} {q : RequestQueue} {l : BatchLocals} {r : ReqId}

/-- The calls of the handler of `x`, newest first. -/
def calls (s : State) (x : CoroId) : List Event := s.trace.filter (Event.isCallOf x)

theorem calls_eq_heard (s : State) (x : CoroId) : s.calls x = s.heard.filter (Event.isCallOf x) := by
  unfold calls heard
  rw [List.filter_filter]
  refine List.filter_congr fun e _ => ?_
  cases e <;> simp [Event.isCallOf, Event.isHeard]

theorem calls_of_heard (h : s'.heard = s.heard) : s'.calls x = s.calls x := by rw [calls_eq_heard, h, ← calls_eq_heard]

theorem calls_cons {e : Event} {es : List Event} (h : s'.heard = e :: es) (he : e.isCallOf x = false) :
    s'.calls x = es.filter (Event.isCallOf x) := by rw [calls_eq_heard, h, List.filter_cons_of_neg (by simp [he])]

theorem calls_of_delivers (hreach : Reachable s) {res : ℤ} {d : ResponsePack}
    (hb : (s.coros x).body = .submitAndWait q l)
    (hd : s.Delivers r x res d s') : (s.coros x).place = .atGeneric ∧ (s.reqs r).home = .vector x ∧
      s'.calls x = .handled x (some r) (some d.type) (some d) :: s.calls x := by
  obtain ⟨e, he, ht⟩ := hd.takes
  have hfits := hreach.sound.records.fits x
  cases ht with
  | awaitable h1 =>
    rw [h1, hb] at hfits
    cases hfits
  | batch hp hh =>
    refine ⟨hp, hh, ?_⟩
    rw [calls_eq_heard, he, List.filter_cons_of_pos (by simp [Event.isCallOf]),
      List.filter_cons_of_neg (by simp [Event.isCallOf]), ← calls_eq_heard]
  | poll _ _ h1 =>
    rw [hb] at h1
    cases h1

/-- **The handler of a batch is called** where the response to one of its requests is delivered. -/
theorem step_calls (hreach : Reachable s) (hs : State.step s c = .ok s') :
    s'.calls x = s.calls x ∨ ∃ r res d, s.Source r x res c ∧ s.Delivers r x res d s' := by
  cases step_hears hreach hs with
  | mute h => exact .inl (calls_of_heard h)
  | answered _ h | failed _ _ _ h =>
    refine .inl ((calls_cons h rfl).trans ?_)
    rw [← calls_eq_heard]
  | @refused u h r hh _ _ he =>
    obtain ⟨resp, h1⟩ := heard_ioReturn h r u
    refine .inl ((calls_cons (he ▸ h1) rfl).trans ?_)
    rw [← calls_eq_heard]
    exact calls_of_heard hh.heard
  | @delivers r h res d hsrc hd =>
    by_cases hx : h = x
    · exact .inr ⟨r, res, d, hx ▸ hsrc, hx ▸ hd⟩
    · obtain ⟨e, he, ht⟩ := hd.takes
      have hne : e.isCallOf x = false := by cases ht <;> simp [Event.isCallOf, hx]
      refine .inl ((calls_cons he hne).trans ?_)
      rw [List.filter_cons_of_neg (by simp [Event.isCallOf]), calls_eq_heard]

/-! ### One entry for each record -/

/-- How many entries are pending or in flight for the record, and calls of the handler of `x` there were. -/
def share (s : State) (x : CoroId) (r : ReqId) : ℕ :=
  s.queuedFor [r] + s.takenFor [r] + (s.calls x).countP fun e => e.cause = some r

theorem among_singleton {y : Slot} (h : y.among [r] = true) : y.sqe.userData = some r := by
  unfold Slot.among at h
  split at h
  · rename_i a ha
    have h1 : a = r := by simpa using h
    rw [ha, h1]
  · cases h

theorem among_of_mem {y : Slot} {rs : List ReqId} (h : y.among [r] = true) (hr : r ∈ rs) : y.among rs = true := by
  unfold Slot.among
  rw [among_singleton h]
  simpa using hr

theorem queuedFor_write_le {j : ℕ} {a : ReqId} {f : Slot → Slot} (ha : a ≠ r)
    (hs : s'.ev.ring = s.ev.ring.write j fun y => (f y).setData (some a)) : s'.queuedFor [r] ≤ s.queuedFor [r] := by
  rw [queuedFor, hs, queuedFor]
  refine Uring.countP_write_le _ _ fun y hy => ?_
  rw [postedFor_setData (by simpa using ha)] at hy
  cases hy

/-- **A record of a batch gets no second entry**, and no second call, while no entry with its address is taken that
was not written for it. -/
theorem share_step (hreach : Reachable s) (hs : State.step s c = .ok s') (hb : (s.coros x).body = .submitAndWait q l)
    (hr : r < s.nextReq) (hh : (s.reqs r).home = .vector x)
    (hclean : ∀ y ∈ s.ev.ring.pending.take (s.taking c), y.among [r] = true → y.written = true) :
    s'.share x r ≤ s.share x r := by
  unfold share
  rcases step_calls hreach hs with hc | ⟨a, res, d, hsrc, hd⟩
  · rw [hc]
    have hle : s'.queuedFor [r] + s'.takenFor [r] ≤ s.queuedFor [r] + s.takenFor [r] := by
      have hposts : Posts [r] s c s' := step_posts (by simpa using hr) hs
      cases hposts with
      | keeps h => rw [h.queued, h.taken]
      | @writes h a j rest f _ _ ha _ hring =>
        have hne : a ≠ r := by
          rintro rfl
          have h1 := ha.2.2.1
          rw [hh] at h1
          cases h1
        have htaken : s'.takenFor [r] = s.takenFor [r] := by rw [takenFor, hring, Uring.write_inFlight, takenFor]
        have := queuedFor_write_le hne hring
        omega
      | takes hq ht =>
        -- what is taken was posted
        have h1 : (s.ev.ring.pending.take (s.taking c)).countP (Slot.among [r]) ≤
            (s.ev.ring.pending.take (s.taking c)).countP (Slot.postedFor [r]) := by
          refine List.countP_mono_left fun y hy ha => ?_
          simp [Slot.postedFor, hclean y hy ha, ha]
        omega
      | reaps _ _ _ hq ht =>
        rw [hq]
        split at ht <;> omega
    omega
  · -- the call is for an entry that was in flight
    obtain ⟨hp, -, hc⟩ := calls_of_delivers hreach hb hd
    have hv : s.Vector x q l := hreach.vectors x q l hb (by rw [hp]; rfl)
    obtain ⟨i, base, y, rest, hst, rfl, hy, hu, -⟩ := among_of_delivers hreach hv hb hsrc hd
    have hring : s'.ev.ring = s.ev.ring.reap i := (ring_awaitCqe (by simpa only [State.step, hst] using hs)).1
    have hq : s'.queuedFor [r] = s.queuedFor [r] := by rw [queuedFor, hring, Uring.reap_pending, queuedFor]
    have ht := takenFor_reap [r] hy hring
    rw [hc, List.countP_cons, hq]
    by_cases har : a = r
    · subst har
      rw [if_pos (by simp [Slot.among, hu])] at ht
      rw [if_pos (by simp [Event.cause])]
      omega
    · rw [if_neg (by simp [Slot.among, hu, har])] at ht
      rw [if_neg (by simp [Event.cause, har])]
      omega

/-! ### What was noted stays -/

theorem mem_of_quiet (h : Quiet s s') {e : Event} (he : e ∈ s.trace) : e ∈ s'.trace := by
  obtain ⟨es, ht, -⟩ := h.trace
  rw [ht]
  exact List.mem_append_right _ he

theorem mem_of_eventHandler {res : ℤ} {a : Option ReqId} {base : Addr}
    (hs : s.eventHandler res a base = .ok s') {e : Event} (he : e ∈ s.trace) : e ∈ s'.trace := by
  unfold State.eventHandler at hs
  split at hs
  · cases hs
    exact he
  · simp only at hs
    split at hs
    · split at hs
      · cases hs
        exact he
      · obtain ⟨d, -, hs⟩ := bind_ok.mp hs
        exact mem_of_quiet (Quiet.resume hs) (List.mem_cons_of_mem _ he)
    · cases hs

theorem mem_of_submit {ret : ℤ} (hs : s.submitQueuedEntries ret = .ok s') {e : Event} (he : e ∈ s.trace) :
    e ∈ s'.trace := by
  obtain ⟨-, -, -, rfl⟩ := submitQueuedEntries_ok hs
  exact he

theorem mem_of_ioOp {ctx : Option CoroId} {p : ParameterPack} {a : ReqId} (hs : s.ioOp ctx p = .ok (a, s')) {e : Event}
    (he : e ∈ s.trace) : e ∈ s'.trace := by
  obtain ⟨-, -, sqe, s1, h1, rfl⟩ := ioOp_ok hs
  rcases getUringSqe_ok h1 with ⟨-, -, rfl⟩ | ⟨j, ring, -, -, -, -, rfl⟩ <;> cases ctx <;> exact he

theorem mem_of_awaitIo {h : CoroId} {a : ReqId} (hs : s.awaitIo h a = .ok s') {e : Event} (he : e ∈ s.trace) :
    e ∈ s'.trace := by
  rcases awaitIo_ok hs with ⟨-, ⟨-, rfl⟩ | ⟨j, -, -, -, rfl⟩⟩
  · exact List.mem_cons_of_mem _ he
  · exact he

theorem trace_processRequests {h : CoroId} {l : List (ParameterPack × ReqId)} : ∀ {s s' : State},
    s.processRequests h l = .ok s' → s'.trace = s.trace := by
  induction l with
  | nil =>
    intro s s' hs
    cases hs
    rfl
  | cons y l ih =>
    intro s s' hs
    obtain ⟨req, a⟩ := y
    obtain ⟨⟨b, s1⟩, h1, h2⟩ := bind_ok.mp hs
    rw [ih h2]
    rcases processSingleGenericRequest_ok h1 with ⟨-, -, rfl⟩ | ⟨-, -, -, j, ring, -, rfl⟩ <;> rfl

theorem mem_of_awaitCqe {i : ℕ} {res : ℤ} {base : Addr} (hs : s.awaitCqe i res base = .ok s') {e : Event}
    (he : e ∈ s.trace) : e ∈ s'.trace := by
  unfold State.awaitCqe at hs
  split at hs
  · split at hs
    · refine mem_of_eventHandler hs ?_
      split
      · exact List.mem_cons_of_mem _ he
      · exact he
    · cases hs
  · cases hs

theorem completed_of_awaitCqe {i : ℕ} {res : ℤ} {base : Addr} {y : Slot} (hs : s.awaitCqe i res base = .ok s')
    (hy : s.ev.ring.inFlight[i]? = some y) (hu : y.sqe.userData = some r) : .completed r res ∈ s'.trace := by
  unfold State.awaitCqe at hs
  rw [hy] at hs
  simp only [hu] at hs
  split at hs
  · exact mem_of_eventHandler hs List.mem_cons_self
  · cases hs

/-- **Nothing that was noted is forgotten.** -/
theorem step_mem (hs : State.step s c = .ok s') {e : Event} (he : e ∈ s.trace) : e ∈ s'.trace := by
  cases step_effect hs with
  | quiet hq => exact mem_of_quiet hq he
  | io h1 => exact mem_of_ioOp h1 he
  | awaitIo _ h1 => exact mem_of_awaitIo h1 he
  | awaitOp _ h1 h2 => exact mem_of_awaitIo h2 (mem_of_ioOp h1 he)
  | na h1 =>
    rcases naOp_ok h1 with ⟨-, -, rfl⟩ | ⟨-, j, ring, s2, -, h2, ⟨-, -, rfl⟩ | ⟨-, -, rfl⟩⟩
    · exact he
    · exact List.mem_cons_of_mem _ (mem_of_submit h2 he)
    · exact List.mem_cons_of_mem _ (mem_of_submit h2 he)
  | submit _ _ hq h1 hq' => exact mem_of_quiet hq' (mem_of_submit h1 (mem_of_quiet hq he))
  | rawSqe h1 => rcases getUringSqe_ok h1 with ⟨-, -, rfl⟩ | ⟨j, ring, -, -, -, -, rfl⟩ <;> exact he
  | start | leave | dying => exact he
  | message _ h1 =>
    unfold State.awaitMessage at h1
    simp only at h1
    split at h1
    · exact mem_of_eventHandler h1 he
    · cases h1
      exact he
  | cqe _ h1 => exact mem_of_awaitCqe h1 he
  | seen _ h1 =>
    unfold State.awaitSeen at h1
    split at h1
    · simp only at h1
      split at h1
      · exact mem_of_quiet (Quiet.resume h1) he
      · cases h1
      · cases h1
        exact he
    · cases h1
  | handlerReturn _ h1 =>
    obtain ⟨-, -, -, -, -, -, ⟨-, -, -, ht⟩ | ⟨-, -, ht⟩⟩ := eventHandlerReturn_ok h1
    · rw [ht]
      exact List.mem_cons_of_mem _ he
    · rw [ht]
      exact he
  | cancel _ _ h1 =>
    obtain ⟨ring, -, -, rfl⟩ := ioUringGetSqe_some h1
    exact he
  | dead hst _ _ h1 => exact mem_of_quiet (Quiet.finish (by exact hst) h1) he
  | batch hst _ _ h1 =>
    obtain ⟨s1, h2, ⟨-, h3⟩ | ⟨-, s2, h3, rfl⟩⟩ := submitAndWaitBegin_ok h1
    · exact mem_of_quiet (Quiet.finish (by rw [(submitQueuedEntries_stack h2).1]; exact hst) h3) (mem_of_submit h2 he)
    · have ht : s2.trace = s1.trace := Eq.trans (trace_processRequests h3) rfl
      show e ∈ s2.trace
      rw [ht]
      exact mem_of_submit h2 he
  | poll _ _ _ _ hq => exact mem_of_quiet hq he
  | @register v idx grow rest _ _ h1 =>
    unfold State.registerCoroReturn at h1
    obtain ⟨s1, h2, h3⟩ := bind_ok.mp h1
    obtain ⟨t, -, h4⟩ := bind_ok.mp h3
    cases h4
    obtain ⟨coros, heq, -⟩ := insertTask_eq idx t s1
    show e ∈ (s1.insertTask idx t).trace
    rw [heq]
    exact mem_of_quiet (Quiet.makeRoom h2) he

end State

end EvManager
