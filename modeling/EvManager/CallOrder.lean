import EvManager.Accounts
import EvManager.Calls

/-!
# The order of the calls of a handler

The handler of a batch is called for the completions of its requests as they come: **`handler_calls_in_order`**.
-/

namespace EvManager

open Lib State

namespace State

variable {s s' : State} {c : Choice} {x : CoroId} {r : ReqId}

/-- The completions of the requests of the batch of `x`, newest first. -/
def completionsOf (s : State) (x : CoroId) : List (ReqId × ℤ) :=
  s.completions.filter fun y => (s.reqs y.1).home = .vector x

/-- The call of the handler of `x` tells it of the completion `y`: the type of the request, and the response to it. -/
def CallFor (s : State) (x : CoroId) (e : Event) (y : ReqId × ℤ) : Prop :=
  ∃ base d, e = .handled x (some y.1) (some (s.reqs y.1).data.reqType) (some d) ∧
    responsePack (s.reqs y.1).data.reqType (s.reqs y.1).data.specificData y.2 base = some d

/-- The calls of the handler of `x` and the completions of its requests are the same, in the same order. -/
def InOrder (s : State) (x : CoroId) : Prop := List.Forall₂ (s.CallFor x) (s.calls x) (s.completionsOf x)

/-- `x` is a coroutine of `submit_and_wait`, or none yet. -/
def Batching (s : State) (x : CoroId) : Prop := (∃ q l, (s.coros x).body = .submitAndWait q l) ∨ s.nextCoro ≤ x

theorem completions_made (h : Reachable s) : ∀ y ∈ s.completions, y.1 < s.nextReq := by
  refine Reach.inv_of (I := fun s => ∀ y ∈ s.completions, y.1 < s.nextReq) (J := fun s => Reachable s) (fun s h => h)
    (fun s hi => ?_) (fun s c s' hreach ih _ hs y hy => ?_) h
  · have ht : s.trace = [] := by cases hi <;> rfl
    simp [completions, ht]
  · have hle := (Lasting.step hs).nextReq
    cases step_dispatches hs with
    | nothing h1 => exact (ih y (h1.completions ▸ hy)).trans_le hle
    | @comes i r res base z rest _ _ hz hu hc _ =>
      rcases List.mem_cons.mp (hc ▸ hy) with rfl | hy
      · exact (hreach.sound.records.entry r ⟨z, .inr (List.mem_of_getElem? hz), hu⟩).1.trans_le hle
      · exact (ih y hy).trans_le hle
    | unparks _ hc => exact (ih y (hc ▸ hy)).trans_le hle

theorem Delivers.lt (hreach : Reachable s) {res : ℤ} {d : ResponsePack} (hd : s.Delivers r x res d s') :
    x < s.nextCoro := by
  by_contra hn
  have hgone := hreach.placed.fresh x (not_lt.mp hn)
  obtain ⟨e, -, ht⟩ := hd.takes
  cases ht with
  | awaitable hp => cases hgone.symm.trans hp
  | batch hp => cases hgone.symm.trans hp
  | poll hp => cases hgone.symm.trans hp

theorem completions_of_delivers (hreach : Reachable s) (hs : State.step s c = .ok s') {res : ℤ} {d : ResponsePack}
    (hh : (s.reqs r).home = .vector x) (hsrc : s.Source r x res c) (hd : s.Delivers r x res d s') :
    s'.completions = (r, res) :: s.completions := by
  cases hsrc with
  | @completed i base y rest hst hy hu _ =>
    cases step_dispatches hs with
    | nothing h1 =>
      -- something was delivered
      obtain ⟨e, he, ht⟩ := hd.takes
      have h2 := h1.deliveries
      rw [deliveries_eq_heard, deliveries_eq_heard, he] at h2
      have h3 : (e :: .resumed r x res d :: s.heard).filterMap Event.delivery =
          (r, res) :: s.heard.filterMap Event.delivery := by
        cases ht <;> rfl
      rw [h3] at h2
      simp at h2
    | comes _ hc hy' hu' hcs _ =>
      cases hc
      obtain rfl := Option.some.inj (hy.symm.trans hy')
      obtain rfl := Option.some.inj (hu.symm.trans hu')
      exact hcs
    | unparks hst' => cases hst.symm.trans hst'
  | parked _ hready =>
    have h1 := (hreach.sound.records.ready (res, r) (by rw [hready]; exact List.mem_cons_self)).2
    cases hh.symm.trans h1

theorem delivers_of_completed (hreach : Reachable s) (hs : State.step s c = .ok s') {i : ℕ} {res : ℤ}
    {base : Addr} {y : Slot}
    {rest : List Activation} (hst : s.stack = .awaitWait :: rest) (hc : c = .cqe i res base)
    (hy : s.ev.ring.inFlight[i]? = some y)
    (hu : y.sqe.userData = some r) (hh : (s.reqs r).home = .vector x) : ∃ d, s.Delivers r x res d s' := by
  subst hc
  obtain ⟨y', hy', ⟨hnone, -⟩ | ⟨r', h, d, hr', hhandle, hd⟩⟩ :=
    awaitCqe_delivers hreach hst (by simpa only [State.step, hst] using hs)
  all_goals obtain rfl : y = y' := Option.some.inj (hy.symm.trans hy')
  · rcases (hreach.sound.records.entry r ⟨y, .inr (List.mem_of_getElem? hy), hu⟩).2 with h1 | h1
    · cases hh.symm.trans h1
    · exact absurd (hnone r hu) h1
  · obtain rfl : r = r' := Option.some.inj (hu.symm.trans hr')
    have hn := hreach.handles r h hhandle
    unfold State.Names at hn
    rw [hh] at hn
    exact ⟨d, hn ▸ hd⟩

theorem CallFor.step (hs : State.step s c = .ok s') {e : Event} {y : ReqId × ℤ} (hy : y.1 < s.nextReq)
    (h : s.CallFor x e y) :
    s'.CallFor x e y := by
  have hl := Lasting.step hs
  obtain ⟨base, d, he, hd⟩ := h
  exact ⟨base, d, by rw [hl.type _ hy]; exact he, by rw [hl.type _ hy, hl.pack _ hy]; exact hd⟩

/-- The calls and the completions so far, seen from the state after a step. -/
theorem InOrder.old (h : InOrder s x) (hreach : Reachable s) (hs : State.step s c = .ok s') :
    List.Forall₂ (s'.CallFor x) (s.calls x)
    (s.completions.filter fun y => (s'.reqs y.1).home = .vector x) := by
  have hmade := completions_made hreach
  have heq : s.completions.filter (fun y => (s'.reqs y.1).home = .vector x) = s.completionsOf x :=
    List.filter_congr fun y hy => by rw [(Lasting.step hs).home _ (hmade y hy)]
  have hmem : ∀ y ∈ s.completionsOf x, y.1 < s.nextReq := fun y hy => hmade y (List.mem_filter.mp hy).1
  rw [heq]
  unfold InOrder at h
  generalize s.calls x = es, s.completionsOf x = ys at h hmem
  induction h with
  | nil => exact .nil
  | cons he _ ih =>
    exact .cons (he.step hs (hmem _ List.mem_cons_self)) (ih fun y hy => hmem y (List.mem_cons_of_mem _ hy))

/-- **A step keeps the calls in the order of the completions**: one more request of the batch completes exactly
where its handler is called once more. -/
theorem InOrder.step (h : InOrder s x) (hreach : Reachable s) (hx : s.Batching x) (hs : State.step s c = .ok s') :
    InOrder s' x := by
  have hold := h.old hreach hs
  have hbody : ∀ {r : ReqId} {res : ℤ} {d : ResponsePack}, s.Delivers r x res d s' →
      ∃ q l, (s.coros x).body = .submitAndWait q l :=
    fun hd => hx.resolve_right (not_le.mpr (hd.lt hreach))
  rcases step_calls hreach hs with hcalls | ⟨r, res, d, hsrc, hd⟩
  · -- no call, so nothing of the batch has completed
    unfold InOrder completionsOf
    rw [hcalls]
    cases step_dispatches hs with
    | nothing h1 => rw [h1.completions]; exact hold
    | unparks _ hc => rw [hc]; exact hold
    | @comes i r res base y rest hst hc hy hu hcs _ =>
      rw [hcs, List.filter_cons_of_neg]
      · exact hold
      · simp only [decide_eq_true_eq]
        intro hh
        have hmade := (hreach.sound.records.entry r ⟨y, .inr (List.mem_of_getElem? hy), hu⟩).1
        obtain ⟨d, hd⟩ := delivers_of_completed hreach hs hst hc hy hu (((Lasting.step hs).home r hmade).symm.trans hh)
        obtain ⟨q, l, hb⟩ := hbody hd
        have h1 := (calls_of_delivers hreach hb hd).2.2
        rw [hcalls] at h1
        simp at h1
  · obtain ⟨q, l, hb⟩ := hbody hd
    obtain ⟨-, hh, hcalls⟩ := calls_of_delivers hreach hb hd
    have hmade := hd.made hreach
    have hl := Lasting.step hs
    unfold InOrder completionsOf
    rw [hcalls, completions_of_delivers hreach hs hh hsrc hd,
      List.filter_cons_of_pos (by simpa [hl.home r hmade] using hh)]
    obtain ⟨base, hpack⟩ := hd.pack
    refine .cons ⟨base, d, ?_, ?_⟩ hold
    · rw [hl.type r hmade, type_of_responsePack hpack]
    · rw [hl.type r hmade, hl.pack r hmade]
      exact hpack

theorem Batching.of_step (hx : s'.Batching x) (hs : State.step s c = .ok s') : s.Batching x := by
  rcases hx with ⟨q, l, hb⟩ | hx
  · by_cases hlt : x < s.nextCoro
    · exact .inl ⟨q, batch_body hs hlt hb⟩
    · exact .inr (not_lt.mp hlt)
  · exact .inr ((Steady.step hs).nextCoro.trans hx)

theorem inOrder (h : Reachable s) : ∀ x, s.Batching x → InOrder s x := by
  refine Reach.inv_of (I := fun s => ∀ x, s.Batching x → InOrder s x) (J := fun s => Reachable s) (fun s h => h)
    (fun s hi => ?_) (fun s c s' hreach ih _ hs x hx => ?_) h
  · intro x _
    have ht : s.trace = [] := by cases hi <;> rfl
    simp [InOrder, calls, completionsOf, completions, ht]
  · have hx' := hx.of_step hs
    exact (ih x hx').step hreach hx' hs

end State

/-- **The handler of a batch is called in the order of the completions.**  In every run, however the submissions go
and whoever else uses the ring, the calls of the handler of a `submit_and_wait` are one for each completion of a
request of its queue, in the same order, and each tells it of that request: its type, and the response made of its
parameters and of the result. -/
theorem handler_calls_in_order {s : State} (h : Reachable s) {x : CoroId} {q : RequestQueue} {l : BatchLocals}
    (hb : (s.coros x).body = .submitAndWait q l) : List.Forall₂ (s.CallFor x) (s.calls x) (s.completionsOf x) :=
  inOrder h x (.inl ⟨q, l, hb⟩)

/-- Of two requests of a batch the second completes first, and then the first. -/
theorem handler_calls_in_order_two : ∃ s : State, s.completionsOf 1 = [(0, 4), (1, 8)] ∧
    List.Forall₂ (s.CallFor 1) (s.calls 1) (s.completionsOf 1) := by
  have he : (exec State.step (fun _ _ => True) (init 4) [.user (.submitAndWait [.write ⟨4, 200, 4⟩, .read ⟨3, 100, 8⟩]),
      .user (.startTask 0), .sub 0, .sub 2, .tau, .tau, .user .start, .message 0, .cqe 1 8 0,
      .user (.handlerReturn false), .tau, .tau, .message 0,
      .cqe 0 4 0]).map (fun s => decide (s.completionsOf 1 = [(0, 4), (1, 8)] ∧ (s.coros 1).body =
        .submitAndWait [.write ⟨4, 200, 4⟩, .read ⟨3, 100, 8⟩] ⟨.handler 1, [0, 1], 2, 0⟩)) = some true := by decide
  obtain ⟨s, hreach, hs⟩ := Reach.of_exec (.up 4) he
  obtain ⟨hc, hb⟩ := of_decide_eq_true hs
  exact ⟨s, hc, handler_calls_in_order hreach hb⟩

end EvManager
