import EvManager.Dispatch

/-!
# What persists

No step gives a coroutine another function, starts it again or takes back that it is done, and the coroutine
`0`, which runs `kill_internal`, has been started when the manager is dying.
-/

namespace EvManager

open Lib State

namespace Steady

variable {s s' : State}

theorem getUringSqe {p : Purpose} {x : Option ℕ} (hs : s.getUringSqe p = .ok (x, s')) : Steady s s' := by
  rcases getUringSqe_ok hs with ⟨-, -, rfl⟩ | ⟨j, ring, -, -, -, -, rfl⟩
  · exact refl _
  · exact of_eq rfl rfl rfl

theorem ioOp {ctx : Option CoroId} {p : ParameterPack} {r : ReqId} (hs : s.ioOp ctx p = .ok (r, s')) :
    Steady s s' := by
  obtain ⟨-, -, sqe, s1, h1, rfl⟩ := ioOp_ok hs
  refine (getUringSqe h1).trans ?_
  cases ctx with
  | none => exact of_eq rfl rfl rfl
  | some c =>
    have h2 : Steady s1 (s1.newReq (.awaitable (some c) p sqe)).2 := of_eq rfl rfl rfl
    refine h2.trans ?_
    unfold ownReq
    exact modCoro rfl id

theorem awaitIo {h : CoroId} {r : ReqId} {rest : List Activation} (hst : s.stack = .run h :: rest)
    (hs : s.awaitIo h r = .ok s') : Steady s s' := by
  rcases awaitIo_ok hs with ⟨-, ⟨-, rfl⟩ | ⟨j, -, -, -, rfl⟩⟩
  · exact (Quiet.ioReturn h r s).steady
  · refine Steady.trans ?_ (Quiet.push rfl _).steady
    refine Steady.trans ?_ (Quiet.suspend (p := .atIo r) (by simp) (by exact hst)).steady
    exact of_eq rfl rfl rfl

theorem submit {ret : ℤ} (hs : s.submitQueuedEntries ret = .ok s') : Steady s s' := by
  obtain ⟨-, -, -, rfl⟩ := submitQueuedEntries_ok hs
  exact of_eq rfl rfl rfl

theorem na {p : ParameterPack} {ret : ℤ} {e : Errnos} (hs : s.naOp p ret = .ok (e, s')) : Steady s s' := by
  rcases naOp_ok hs with ⟨-, -, rfl⟩ | ⟨-, j, ring, s2, -, h2, hcase⟩
  · exact refl _
  · have h0 : Steady s (s.setRing ring) := of_eq rfl rfl rfl
    refine h0.trans ((submit h2).trans ?_)
    rcases hcase with ⟨-, -, rfl⟩ | ⟨-, -, rfl⟩ <;> exact of_eq rfl rfl rfl

theorem processRequests {h : CoroId} {l : List (ParameterPack × ReqId)} :
    ∀ {s s' : State}, s.processRequests h l = .ok s' → Steady s s' := by
  induction l with
  | nil =>
    intro s s' hs
    cases hs
    exact refl s
  | cons x l ih =>
    intro s s' hs
    obtain ⟨req, r⟩ := x
    obtain ⟨⟨b, s1⟩, h1, h2⟩ := bind_ok.mp hs
    refine Steady.trans ?_ (ih h2)
    rcases processSingleGenericRequest_ok h1 with ⟨-, -, rfl⟩ | ⟨-, -, -, j, ring, -, rfl⟩
    · exact refl _
    · exact of_eq rfl rfl rfl

theorem batch {h : CoroId} {rest : List Activation} {q : RequestQueue} {l : BatchLocals} {ret : ℤ}
    (hst : s.stack = .run h :: rest) (hb : (s.coros h).body = .submitAndWait q l)
    (hs : s.submitAndWaitBegin h q ret = .ok s') : Steady s s' := by
  unfold submitAndWaitBegin at hs
  obtain ⟨s2, h2, h3⟩ := bind_ok.mp hs
  refine (submit h2).trans ?_
  split at h3
  · exact (Quiet.finish (by rw [(submitQueuedEntries_stack h2).1, hst]) h3).steady
  · obtain ⟨s3, h4, h5⟩ := bind_ok.mp h3
    cases h5
    have hv : Steady s2 (s2.newVector h q.length).2 :=
      Steady.trans
      (modCoro (h := h) (f := fun c => { c with reqs := c.reqs ++ List.range' s2.nextReq q.length }) rfl id)
        (of_eq rfl rfl rfl)
    have h6 := hv.trans (processRequests h4)
    refine h6.trans (Quiet.setBody ?_).steady
    -- the body is still the one the batch began with
    have hk : (s2.coros h).body.kind = .submitAndWait q := by
      rw [(submitQueuedEntries_stack h2).2, hb]
      rfl
    rcases h6.kind h with he | ⟨-, hne⟩
    · exact (he.trans hk).symm
    · have hc : (s3.coros h).body = (s2.coros h).body := by
        rw [processRequests_coros h4]
        simp [State.modCoro]
      rw [hc, hk]
      rfl

theorem eventHandler {res : ℤ} {x : Option ReqId} {base : Addr} (hs : s.eventHandler res x base = .ok s') :
    Steady s s' := by
  unfold State.eventHandler at hs
  split at hs
  · cases hs
    exact refl _
  · simp only at hs
    split at hs
    · split at hs
      · cases hs
        exact of_eq rfl rfl rfl
      · rename_i h _
        obtain ⟨pack, -, h2⟩ := bind_ok.mp hs
        have h1 := (Quiet.modPromise h (fun p => { p with comData := p.comData.publishRespData pack }) s).steady
        refine h1.trans (Steady.trans ?_ (Quiet.resume h2).steady)
        exact of_eq rfl rfl rfl
    · cases hs

theorem awaitMessage {base : Addr} (hs : s.awaitMessage base = .ok s') : Steady s s' := by
  unfold State.awaitMessage at hs
  simp only at hs
  split at hs
  · refine Steady.trans ?_ (eventHandler hs)
    exact of_eq rfl rfl rfl
  · cases hs
    exact of_eq rfl rfl rfl

theorem awaitCqe {i : ℕ} {res : ℤ} {base : Addr} (hs : s.awaitCqe i res base = .ok s') : Steady s s' := by
  unfold State.awaitCqe at hs
  split at hs
  · split at hs
    · refine Steady.trans ?_ (eventHandler hs)
      split <;> exact of_eq rfl rfl rfl
    · cases hs
  · cases hs

theorem awaitSeen (hs : s.awaitSeen = .ok s') : Steady s s' := by
  unfold State.awaitSeen at hs
  split at hs
  · simp only at hs
    split at hs
    · refine Steady.trans ?_ (Quiet.resume hs).steady
      exact of_eq rfl rfl rfl
    · cases hs
    · cases hs
      exact of_eq rfl rfl rfl
  · cases hs

theorem eventHandlerReturn {r : ReqId} {h : CoroId} (hs : s.eventHandlerReturn r h = .ok s') : Steady s s' := by
  unfold State.eventHandlerReturn at hs
  simp only at hs
  split at hs
  · split at hs
    · cases hs
      split <;> exact of_eq rfl rfl rfl
    · cases hs
  · cases hs
    split <;> exact of_eq rfl rfl rfl

theorem insertTask (pick : ℕ) (e : EvTask) (s : State) : Steady s (s.insertTask pick e) := by
  unfold State.insertTask
  have h1 : Steady s ((s.relink e).modEv fun ev =>
      { ev with managedCoroutinesStore := s.ev.managedCoroutinesStore.insert pick e }) :=
    (Quiet.relink e s).steady.trans (.of_eq rfl rfl rfl)
  simp only
  split
  · exact h1.trans (Quiet.modPromise ..).steady
  · exact h1

theorem registerCoroReturn {v : VarId} {idx : ℕ} {grow : Bool} (hs : s.registerCoroReturn v idx grow = .ok s') :
    Steady s s' := by
  unfold State.registerCoroReturn at hs
  obtain ⟨s1, h2, h1⟩ := bind_ok.mp hs
  obtain ⟨e, -, h3⟩ := bind_ok.mp h1
  cases h3
  exact ((Quiet.makeRoom h2).steady.trans (insertTask idx e s1)).trans (.of_eq rfl rfl rfl)

/-- **Every step is steady.** -/
theorem step {c : Choice} (hs : State.step s c = .ok s') : Steady s s' := by
  cases step_effect hs with
  | quiet hq => exact hq.steady
  | io h1 => exact ioOp h1
  | awaitIo hst h1 => exact awaitIo hst h1
  | awaitOp hst h1 h2 => exact (ioOp h1).trans (awaitIo ((ioOp_stack h1).trans hst) h2)
  | na h1 => exact na h1
  | submit _ _ hq h1 hq' => exact (hq.steady.trans (submit h1)).trans hq'.steady
  | rawSqe h1 => exact getUringSqe h1
  | start hl => exact of_eq rfl rfl rfl
  | leave hst hd => exact of_eq rfl rfl rfl
  | message _ h1 => exact awaitMessage h1
  | cqe _ h1 => exact awaitCqe h1
  | seen _ h1 => exact awaitSeen h1
  | handlerReturn hst h1 =>
    have hp : Steady s s.pop := of_eq rfl rfl rfl
    exact hp.trans (eventHandlerReturn h1)
  | dying hst hb hl =>
    refine Steady.trans ?_ (Quiet.setBody ?_).steady
    · exact of_eq rfl rfl rfl
    · exact (congrArg Body.kind hb).symm
  | cancel hst hb h1 =>
    obtain ⟨ring, -, hr, rfl⟩ := ioUringGetSqe_some h1
    refine Steady.trans ?_ (Quiet.setBody ?_).steady
    · exact of_eq rfl rfl rfl
    · exact (congrArg Body.kind hb).symm
  | dead hst hb h0 h1 =>
    refine Steady.trans ?_ (Quiet.finish (by exact hst) h1).steady
    exact of_eq rfl rfl rfl
  | batch hst hb _ h1 => exact batch hst hb h1
  | poll hst hb hst1 hc1 hq =>
    refine hq.steady.trans ?_
    refine Steady.trans ?_ (Quiet.suspend (p := .atGeneric) (by simp) (by exact hst1.trans hst)).steady
    refine Steady.trans ?_ (Quiet.setBody ?_).steady
    · exact of_eq rfl rfl rfl
    · exact (hc1 ▸ hb.kind).symm
  | register hst h1 => exact (Quiet.pop hst rfl).steady.trans (registerCoroReturn h1)

end Steady

end EvManager
