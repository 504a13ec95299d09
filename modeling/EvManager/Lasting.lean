import EvManager.Loop

/-!
# What records keep

A record keeps its owner, its flag and, once it has a handle, its type and its parameters; a record that is dead
stays dead and one that has a handle keeps one.
-/

namespace EvManager

open Lib State ErrorProcessing

/-- From `s` to `s'` the records that were there kept what a record keeps. -/
structure Lasting (s s' : State) : Prop where
  nextReq : s.nextReq ≤ s'.nextReq
  home : ∀ r, r < s.nextReq → (s'.reqs r).home = (s.reqs r).home
  live : ∀ r, r < s.nextReq → (s'.reqs r).live = true → (s.reqs r).live = true
  handle : ∀ r, r < s.nextReq → (s.reqs r).data.handle ≠ none → (s'.reqs r).data.handle ≠ none
  type : ∀ r, r < s.nextReq → (s'.reqs r).data.reqType = (s.reqs r).data.reqType
  pack : ∀ r, r < s.nextReq → (s'.reqs r).data.specificData = (s.reqs r).data.specificData
  dynamic : ∀ r, r < s.nextReq → (s'.reqs r).data.allocatedDynamic = (s.reqs r).data.allocatedDynamic

namespace Lasting

variable {s s' s'' : State}

theorem of_eq (hn : s.nextReq ≤ s'.nextReq) (hreqs : ∀ r, r < s.nextReq → s'.reqs r = s.reqs r) : Lasting s s' := by
  refine ⟨hn, ?_, ?_, ?_, ?_, ?_, ?_⟩ <;> intro r hr <;> rw [hreqs r hr]
  · exact id
  · exact id

theorem refl (s : State) : Lasting s s := of_eq le_rfl fun _ _ => rfl

theorem trans (h : Lasting s s') (h' : Lasting s' s'') : Lasting s s'' := by
  have hlt : ∀ r, r < s.nextReq → r < s'.nextReq := fun r hr => hr.trans_le h.nextReq
  exact ⟨h.nextReq.trans h'.nextReq, fun r hr => (h'.home r (hlt r hr)).trans (h.home r hr),
    fun r hr hl => h.live r hr (h'.live r (hlt r hr) hl), fun r hr hh => h'.handle r (hlt r hr) (h.handle r hr hh),
    fun r hr => (h'.type r (hlt r hr)).trans (h.type r hr), fun r hr => (h'.pack r (hlt r hr)).trans (h.pack r hr),
    fun r hr => (h'.dynamic r (hlt r hr)).trans (h.dynamic r hr)⟩

theorem of_quiet (h : Quiet s s') : Lasting s s' :=
  ⟨h.nextReq.ge, fun r _ => h.home r, fun r _ => h.live r, fun r _ hh => by rwa [h.data r], fun r _ => by rw [h.data r],
    fun r _ => by rw [h.data r], fun r _ => by rw [h.data r]⟩

theorem modReq {r : ReqId} {f : Request → Request} (hhome : ∀ q, (f q).home = q.home)
    (hlive : ∀ q, (f q).live = true → q.live = true)
    (hhandle : ∀ q, q.data.handle ≠ none → (f q).data.handle ≠ none)
    (htype : ∀ q, (f q).data.reqType = q.data.reqType)
    (hpack : ∀ q, (f q).data.specificData = q.data.specificData)
    (hdyn : ∀ q, (f q).data.allocatedDynamic = q.data.allocatedDynamic) : Lasting s (s.modReq r f) := by
  refine ⟨le_rfl, ?_, ?_, ?_, ?_, ?_, ?_⟩ <;> intro x _ <;> by_cases hx : x = r <;>
    simp only [State.modReq, Function.update_apply, hx, if_true, if_false]
  · exact hhome _
  · exact hlive _
  · exact id
  · exact hhandle _
  · exact id
  · exact htype _
  · exact hpack _
  · exact hdyn _

theorem getUringSqe {p : Purpose} {x : Option ℕ} (hs : s.getUringSqe p = .ok (x, s')) : Lasting s s' := by
  rcases getUringSqe_ok hs with ⟨-, -, rfl⟩ | ⟨j, ring, -, -, -, -, rfl⟩
  · exact refl _
  · exact of_eq le_rfl fun _ _ => rfl

theorem submit {ret : ℤ} (hs : s.submitQueuedEntries ret = .ok s') : Lasting s s' := by
  obtain ⟨-, -, -, rfl⟩ := submitQueuedEntries_ok hs
  exact of_eq le_rfl fun _ _ => rfl

theorem ioOp {ctx : Option CoroId} {p : ParameterPack} {r : ReqId} (hs : s.ioOp ctx p = .ok (r, s')) :
    Lasting s s' := by
  obtain ⟨-, -, sqe, s1, h1, rfl⟩ := ioOp_ok hs
  refine (getUringSqe h1).trans ?_
  have hnew : Lasting s1 (s1.newReq (.awaitable ctx p sqe)).2 :=
    of_eq (Nat.le_succ _) fun x hx => by simp [State.newReq, Nat.ne_of_lt hx]
  cases ctx <;> exact ⟨hnew.nextReq, hnew.home, hnew.live, hnew.handle, hnew.type, hnew.pack, hnew.dynamic⟩

theorem awaitIo {h : CoroId} {r : ReqId} (hs : s.awaitIo h r = .ok s') : Lasting s s' := by
  rcases awaitIo_ok hs with ⟨-, ⟨-, rfl⟩ | ⟨j, -, -, -, rfl⟩⟩
  · exact of_quiet (.ioReturn h r s)
  · have h1 : Lasting s (s.modReq r fun q => { q with data := q.data.await h (s.coros h).promise }) :=
      modReq (fun _ => rfl) (fun _ hl => hl) (fun _ _ => by simp [RequestData.await]) (fun _ => rfl) (fun _ => rfl)
        fun _ => rfl
    exact ⟨h1.nextReq, h1.home, h1.live, h1.handle, h1.type, h1.pack, h1.dynamic⟩

theorem na {p : ParameterPack} {ret : ℤ} {e : Errnos} (hs : s.naOp p ret = .ok (e, s')) : Lasting s s' := by
  rcases naOp_ok hs with ⟨-, -, rfl⟩ | ⟨-, j, ring, s2, -, h2, hcase⟩
  · exact refl _
  · obtain ⟨-, -, -, rfl⟩ := submitQueuedEntries_ok h2
    rcases hcase with ⟨-, -, rfl⟩ | ⟨-, -, rfl⟩ <;>
      exact of_eq (Nat.le_succ _) fun x hx => by
        simp only [Function.update_of_ne (Nat.ne_of_lt hx)]
        rfl

/-- Queueing requests touches only the records they are queued with. -/
theorem processRequests_reqs {h : CoroId} {n : ℕ} {l : List (ParameterPack × ReqId)} :
    ∀ {s s' : State}, (∀ x ∈ l, n ≤ x.2) → s.processRequests h l = .ok s' →
      s'.nextReq = s.nextReq ∧ ∀ r, r < n → s'.reqs r = s.reqs r := by
  induction l with
  | nil =>
    intro s s' _ hs
    cases hs
    exact ⟨rfl, fun _ _ => rfl⟩
  | cons x l ih =>
    intro s s' hl hs
    obtain ⟨req, r⟩ := x
    obtain ⟨⟨b, s1⟩, h1, h2⟩ := bind_ok.mp hs
    have hle : n ≤ r := hl (req, r) (by simp)
    obtain ⟨hn, hr⟩ := ih (fun x hx => hl x (by simp [hx])) h2
    rcases processSingleGenericRequest_ok h1 with ⟨-, -, rfl⟩ | ⟨-, -, -, j, ring, -, rfl⟩
    · exact ⟨hn, hr⟩
    · refine ⟨hn, fun x hx => (hr x hx).trans ?_⟩
      have hne : x ≠ r := Nat.ne_of_lt (hx.trans_le hle)
      simp [State.modReq, State.setRing, State.modEv, hne]

theorem batch {h : CoroId} {rest : List Activation} {q : RequestQueue} {ret : ℤ} (hst : s.stack = .run h :: rest)
    (hs : s.submitAndWaitBegin h q ret = .ok s') : Lasting s s' := by
  unfold submitAndWaitBegin at hs
  obtain ⟨s2, h2, h3⟩ := bind_ok.mp hs
  refine (submit h2).trans ?_
  split at h3
  · exact of_quiet (.finish (by rw [(submitQueuedEntries_stack h2).1, hst]) h3)
  · obtain ⟨s3, h4, h5⟩ := bind_ok.mp h3
    cases h5
    have hl : ∀ x ∈ q.zip (s2.newVector h q.length).1, s2.nextReq ≤ x.2 := by
      intro x hx
      have hm : x.2 ∈ List.range' s2.nextReq q.length := (List.of_mem_zip hx).2
      rw [List.mem_range'_1] at hm
      exact hm.1
    obtain ⟨hn, hr⟩ := processRequests_reqs hl h4
    refine of_eq ?_ fun r hlt => ?_
    · have hn' : s3.nextReq = s2.nextReq + q.length := hn
      exact (Nat.le_add_right ..).trans hn'.ge
    · have hnm : r ∉ List.range' s2.nextReq q.length := by
        rw [List.mem_range'_1]
        omega
      have hv : (s2.newVector h q.length).2.reqs r = s2.reqs r := if_neg hnm
      exact (hr r hlt).trans hv

theorem eventHandler {res : ℤ} {x : Option ReqId} {base : Addr} (hs : s.eventHandler res x base = .ok s') :
    Lasting s s' := by
  unfold State.eventHandler at hs
  split at hs
  · cases hs
    exact refl _
  · simp only at hs
    split at hs
    · split at hs
      · cases hs
        exact of_eq le_rfl fun _ _ => rfl
      · obtain ⟨pack, -, h2⟩ := bind_ok.mp hs
        refine Lasting.trans ?_ (of_quiet (.resume h2))
        exact of_eq le_rfl fun _ _ => rfl
    · cases hs

theorem awaitMessage {base : Addr} (hs : s.awaitMessage base = .ok s') : Lasting s s' := by
  unfold State.awaitMessage at hs
  simp only at hs
  split at hs
  · rename_i res r ready p _ _
    have h1 : Lasting ((s.push .awaitWait).modEv fun ev => { ev with readyRequestsStore := ready })
        (((s.push .awaitWait).modEv fun ev => { ev with readyRequestsStore := ready }).modReq r fun q =>
          { q with data := { q.data with handle := some p } }) :=
      modReq (fun _ => rfl) (fun _ hl => hl) (fun _ _ => by simp) (fun _ => rfl) (fun _ => rfl) fun _ => rfl
    have h0 : Lasting s ((s.push .awaitWait).modEv fun ev => { ev with readyRequestsStore := ready }) :=
      of_eq le_rfl fun _ _ => rfl
    exact (h0.trans h1).trans (eventHandler hs)
  · cases hs
    exact of_eq le_rfl fun _ _ => rfl

theorem awaitCqe {i : ℕ} {res : ℤ} {base : Addr} (hs : s.awaitCqe i res base = .ok s') : Lasting s s' := by
  unfold State.awaitCqe at hs
  split at hs
  · split at hs
    · refine Lasting.trans ?_ (eventHandler hs)
      split <;> exact of_eq le_rfl fun _ _ => rfl
    · cases hs
  · cases hs

theorem awaitSeen (hs : s.awaitSeen = .ok s') : Lasting s s' := by
  unfold State.awaitSeen at hs
  split at hs
  · simp only at hs
    split at hs
    · refine Lasting.trans ?_ (of_quiet (.resume hs))
      exact of_eq le_rfl fun _ _ => rfl
    · cases hs
    · cases hs
      exact of_eq le_rfl fun _ _ => rfl
  · cases hs

theorem eventHandlerReturn {r : ReqId} {h : CoroId} (hs : s.eventHandlerReturn r h = .ok s') : Lasting s s' := by
  unfold State.eventHandlerReturn at hs
  simp only at hs
  have h1 : Lasting s (if (s.reqs r).data.handle = none ∨ s.isDone h = true then
      s.modEv fun ev =>
        { ev with managedCoroutinesStore := ev.managedCoroutinesStore.erase (s.reqs r).data.coroIdx }
      else s) := by
    split <;> exact of_eq le_rfl fun _ _ => rfl
  split at hs
  · split at hs
    · cases hs
      refine h1.trans ?_
      have h2 : ∀ s1 : State, Lasting s1 (s1.modReq r fun q => { q with live := false }) := fun s1 =>
        modReq (fun _ => rfl) (fun _ hl => by cases hl) (fun _ hh => hh) (fun _ => rfl) (fun _ => rfl) fun _ => rfl
      have h3 := h2 (if (s.reqs r).data.handle = none ∨ s.isDone h = true then
        s.modEv fun ev =>
          { ev with managedCoroutinesStore := ev.managedCoroutinesStore.erase (s.reqs r).data.coroIdx }
        else s)
      exact ⟨h3.nextReq, h3.home, h3.live, h3.handle, h3.type, h3.pack, h3.dynamic⟩
    · cases hs
  · cases hs
    exact h1

theorem registerCoroReturn {v : VarId} {idx : ℕ} {grow : Bool} (hs : s.registerCoroReturn v idx grow = .ok s') :
    Lasting s s' := by
  unfold State.registerCoroReturn at hs
  obtain ⟨s1, h1, h2⟩ := bind_ok.mp hs
  obtain ⟨e, -, h3⟩ := bind_ok.mp h2
  cases h3
  refine (of_quiet ((Quiet.makeRoom h1).trans (.relink e s1))).trans ?_
  unfold insertTask
  simp only
  split <;> exact of_eq le_rfl fun _ _ => rfl

/-- **What every step leaves of the records.** -/
theorem step {c : Choice} (hs : State.step s c = .ok s') : Lasting s s' := by
  have hpop : Lasting s s.pop := of_eq le_rfl fun _ _ => rfl
  cases step_effect hs with
  | quiet hq => exact of_quiet hq
  | io h1 => exact ioOp h1
  | awaitIo _ h1 => exact awaitIo h1
  | awaitOp _ h1 h2 => exact (ioOp h1).trans (awaitIo h2)
  | na h1 => exact na h1
  | submit _ _ hq h1 hq' => exact ((of_quiet hq).trans (submit h1)).trans (of_quiet hq')
  | rawSqe h1 => exact getUringSqe h1
  | start | leave => exact of_eq le_rfl fun _ _ => rfl
  | message _ h1 => exact awaitMessage h1
  | cqe _ h1 => exact awaitCqe h1
  | seen _ h1 => exact awaitSeen h1
  | handlerReturn _ h1 => exact hpop.trans (eventHandlerReturn h1)
  | dying => exact of_eq le_rfl fun _ _ => rfl
  | cancel _ _ h1 =>
    obtain ⟨ring, -, -, rfl⟩ := ioUringGetSqe_some h1
    exact of_eq le_rfl fun _ _ => rfl
  | @dead h _ _ hst _ _ h1 =>
    have h0 : Lasting s (s.modEv fun ev => { ev with managerLifeState := .dead, ringUp := false }) :=
      of_eq le_rfl fun _ _ => rfl
    exact h0.trans (of_quiet (.finish (by exact hst) h1))
  | batch hst _ _ h1 => exact batch hst h1
  | @poll _ h _ s1 _ _ _ _ hq =>
    have h1 : Lasting s1 (s1.pollWait h) := of_eq le_rfl fun _ _ => rfl
    exact (of_quiet hq).trans h1
  | register _ h1 => exact hpop.trans (registerCoroReturn h1)

end Lasting

end EvManager
