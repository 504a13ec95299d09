import EvManager.Deals
import EvManager.Faults

/-!
# What can go wrong with a record

`event_handler` reads the union in a record by the type that is stored with it, and deletes the records that were
made for requests nobody awaits.  **`record_faults`**: no step reads a member of the union that was not the one
written and none deletes a record twice; and before it resumes, `event_handler` reads a record that is gone
exactly where it is handed one.
-/

namespace EvManager

open Lib State

/-! ### The union of a record -/

/-- The type stored with a record is that of the member of the union that was written. -/
def State.Typed (s : State) : Prop := ∀ r, (s.reqs r).data.reqType = (s.reqs r).data.specificData.type

namespace State.Typed

variable {s s' : State}

theorem of_data (h : s.Typed) (hd : ∀ r, (s'.reqs r).data = (s.reqs r).data) : s'.Typed := fun r => by
  rw [hd]
  exact h r

theorem of_quiet (h : s.Typed) (hq : Quiet s s') : s'.Typed := h.of_data hq.data

theorem update (h : s.Typed) {r : ReqId} {q : Request} (hq : q.data.reqType = q.data.specificData.type)
    (hr : s'.reqs = Function.update s.reqs r q) : s'.Typed := by
  intro x
  rw [hr]
  by_cases hx : x = r
  · subst hx
    rwa [Function.update_self]
  · rw [Function.update_of_ne hx]
    exact h x

theorem getUringSqe {p : Purpose} {x : Option ℕ} (h : s.Typed) (hs : s.getUringSqe p = .ok (x, s')) : s'.Typed := by
  rcases getUringSqe_ok hs with ⟨-, -, rfl⟩ | ⟨j, ring, -, -, -, -, rfl⟩ <;> exact h

theorem submit {ret : ℤ} (h : s.Typed) (hs : s.submitQueuedEntries ret = .ok s') : s'.Typed := by
  obtain ⟨-, -, -, rfl⟩ := submitQueuedEntries_ok hs
  exact h

theorem ioOp {ctx : Option CoroId} {p : ParameterPack} {r : ReqId} (h : s.Typed) (hs : s.ioOp ctx p = .ok (r, s')) :
    s'.Typed := by
  obtain ⟨-, -, sqe, s1, h1, rfl⟩ := ioOp_ok hs
  have h2 : (s1.newReq (.awaitable ctx p sqe)).2.Typed := (getUringSqe h h1).update (r := s1.nextReq) rfl rfl
  cases ctx <;> exact h2

theorem awaitIo {x : CoroId} {r : ReqId} (h : s.Typed) (hs : s.awaitIo x r = .ok s') : s'.Typed := by
  rcases awaitIo_ok hs with ⟨-, ⟨-, rfl⟩ | ⟨j, -, -, -, rfl⟩⟩
  · exact h.of_quiet (.ioReturn x r s)
  · exact h.update (r := r) (q := { s.reqs r with data := (s.reqs r).data.await x (s.coros x).promise }) (h r) rfl

theorem na {p : ParameterPack} {ret : ℤ} {e : Errnos} (h : s.Typed) (hs : s.naOp p ret = .ok (e, s')) : s'.Typed := by
  rcases naOp_ok hs with ⟨-, -, rfl⟩ | ⟨-, j, ring, s2, -, h2, ⟨-, -, rfl⟩ | ⟨-, -, rfl⟩⟩
  · exact h
  all_goals
    have h3 : s2.Typed := submit (s := s.setRing ring) h h2
    exact h3.update (r := s.nextReq) rfl rfl

theorem processRequests {x : CoroId} {l : List (ParameterPack × ReqId)} :
    ∀ {s s' : State}, s.Typed → s.processRequests x l = .ok s' → s'.Typed := by
  induction l with
  | nil =>
    intro s s' h hs
    cases hs
    exact h
  | cons y l ih =>
    intro s s' h hs
    obtain ⟨req, r⟩ := y
    obtain ⟨⟨b, s1⟩, h1, h2⟩ := bind_ok.mp hs
    refine ih ?_ h2
    rcases processSingleGenericRequest_ok h1 with ⟨-, -, rfl⟩ | ⟨-, -, -, j, ring, -, rfl⟩
    · exact h
    · exact update (s := s.setRing ring) h (r := r) rfl rfl

theorem batch {x : CoroId} {rest : List Activation} {q : RequestQueue} {ret : ℤ} (h : s.Typed)
    (hst : s.stack = .run x :: rest) (hs : s.submitAndWaitBegin x q ret = .ok s') : s'.Typed := by
  unfold submitAndWaitBegin at hs
  obtain ⟨s2, h2, h3⟩ := bind_ok.mp hs
  have hsub := h.submit h2
  split at h3
  · exact hsub.of_quiet (.finish (by rw [(submitQueuedEntries_stack h2).1, hst]) h3)
  · obtain ⟨s3, h4, h5⟩ := bind_ok.mp h3
    cases h5
    refine (processRequests (fun r => ?_) h4 : s3.Typed)
    -- the elements of the vector are value-initialised
    by_cases hr : r ∈ (s2.newVector x q.length).1
    · exact (congrArg (fun q : Request => q.data.reqType = q.data.specificData.type) (if_pos hr)).mpr rfl
    · exact (congrArg (fun q : Request => q.data.reqType = q.data.specificData.type) (if_neg hr)).mpr (hsub r)

theorem eventHandler {res : ℤ} {x : Option ReqId} {base : Addr} (h : s.Typed)
    (hs : s.eventHandler res x base = .ok s') :
    s'.Typed := by
  unfold State.eventHandler at hs
  split at hs
  · cases hs
    exact h
  · simp only at hs
    split at hs
    · split at hs
      · cases hs
        exact h
      · obtain ⟨pack, -, h2⟩ := bind_ok.mp hs
        refine of_quiet ?_ (.resume h2)
        exact h
    · cases hs

theorem step {c : Choice} (h : s.Typed) (hs : State.step s c = .ok s') : s'.Typed := by
  cases step_effect hs with
  | quiet hq => exact h.of_quiet hq
  | io h1 => exact h.ioOp h1
  | awaitIo _ h1 => exact h.awaitIo h1
  | awaitOp _ h1 h2 => exact (h.ioOp h1).awaitIo h2
  | na h1 => exact h.na h1
  | submit _ _ hq h1 hq' => exact ((h.of_quiet hq).submit h1).of_quiet hq'
  | rawSqe h1 => exact h.getUringSqe h1
  | start | leave | dying => exact h
  | message _ h1 =>
    unfold State.awaitMessage at h1
    simp only at h1
    split at h1
    · rename_i res r ready p _ _
      refine eventHandler
        (update (s := s) h (r := r) (q := { s.reqs r with data := { (s.reqs r).data with handle := some p } })
        (h r) rfl) h1
    · cases h1
      exact h
  | cqe _ h1 =>
    unfold State.awaitCqe at h1
    split at h1
    · split at h1
      · refine eventHandler ?_ h1
        split <;> exact h
      · cases h1
    · cases h1
  | seen _ h1 =>
    unfold State.awaitSeen at h1
    split at h1
    · simp only at h1
      split at h1
      · refine of_quiet ?_ (.resume h1)
        exact h
      · cases h1
      · cases h1
        exact h
    · cases h1
  | @handlerReturn r _ _ _ _ h1 =>
    obtain ⟨-, -, -, -, -, -, ⟨-, -, hr, -⟩ | ⟨-, hr, -⟩⟩ := eventHandlerReturn_ok h1
    · exact update (s := s.pop) h (q := { s.reqs r with live := false }) (h r) hr
    · exact of_data (s := s.pop) h fun r => by rw [hr]
  | cancel _ _ h1 =>
    obtain ⟨ring, -, -, rfl⟩ := ioUringGetSqe_some h1
    exact h
  | @dead x _ _ hst _ _ h1 =>
    have h0 : (s.modEv fun ev => { ev with managerLifeState := .dead, ringUp := false }).Typed := h
    exact h0.of_quiet (.finish (by exact hst) h1)
  | batch hst _ _ h1 => exact h.batch hst h1
  | poll _ _ _ _ hq => exact of_data (h.of_quiet hq) fun _ => rfl
  | register _ h1 =>
    unfold State.registerCoroReturn at h1
    obtain ⟨s1, h2, h3⟩ := bind_ok.mp h1
    obtain ⟨e, -, h4⟩ := bind_ok.mp h3
    cases h4
    have h5 : (s1.relink e).Typed := of_quiet (s := s.pop) h ((Quiet.makeRoom h2).trans (.relink e s1))
    unfold insertTask
    simp only
    split <;> exact h5

end State.Typed

theorem Reachable.typed {s : State} (h : Reachable s) : s.Typed :=
  h.inv (fun s hi r => by rw [hi.reqs]; rfl) fun _ _ _ ht _ hs => ht.step hs

/-! ### What is left -/

namespace State

variable {s s' : State} {c : Choice} {f : Fault}

/-- All that `event_handler` does wrong with a record before it resumes is to read one that is gone. -/
theorem eventHandler_fault {res : ℤ} {x : Option ReqId} {base : Addr} (ht : s.Typed) (hf : f.ofRecord = true)
    (hs : s.eventHandler res x base = .error (.undefined f)) :
    f = .deadRequest ∧ ∃ r, x = some r ∧ (s.reqs r).there = false := by
  unfold eventHandler at hs
  split at hs
  · cases hs
  · rename_i r
    simp only at hs
    split at hs
    · split at hs
      · cases hs
      · -- the pack is made from the member that was written
        obtain ⟨d, hd, -⟩ := exists_responsePack (s.reqs r).data.specificData res base
        rw [ht r, hd] at hs
        exact absurd hs (avoids_resume (Fault.ofIo_of_ofRecord hf))
    · rename_i hl
      by_cases hheld : (s.reqs r).held = true
      · rw [if_pos hheld] at hs
        cases hs
      · rw [if_neg hheld] at hs
        cases hs
        exact ⟨rfl, r, rfl, by simp [Request.there, hl, hheld]⟩

theorem eventHandlerReturn_clean {r : ReqId} {x : CoroId} {rest : List Activation} (hreach : Reachable s)
    (hst : s.stack = .eventHandler r x :: rest) : Avoids (.undefined f) (s.pop.eventHandlerReturn r x) := by
  have hmem : .eventHandler r x ∈ s.loops := by
    rw [State.loops, hst, List.filter_cons_of_pos rfl]
    exact List.mem_cons_self
  have hd := hreach.dealt
  unfold eventHandlerReturn
  simp only
  split
  · rename_i hdyn
    have hheap := hreach.sound.records.dynamic r hdyn
    have hlive := (hd.heap r (hd.serving r x hmem).lt hheap).mpr ⟨hd.taken r x hmem hheap, fun _ _ _ _ => ⟨x, hmem⟩⟩
    rw [if_pos (show (s.pop.reqs r).live = true from hlive)]
    exact .ok _
  · exact .ok _

theorem awaitMessage_fault {base : Addr} {rest : List Activation} (ht : s.Typed) (hf : f.ofRecord = true)
    (hst : s.stack = .start :: rest) (hlife : s.ev.managerLifeState.rank < LivingState.dead.rank)
    (hs : s.awaitMessage base = .error (.undefined f)) :
    f = .deadRequest ∧ ∃ r, s.handed (.message base) = some r ∧ (s.reqs r).there = false := by
  unfold awaitMessage at hs
  simp only at hs
  split at hs
  · rename_i res r ready p hready hpoll
    obtain ⟨hdead, r', hr', hl⟩ := eventHandler_fault (ht.update (r := r)
      (q := { s.reqs r with data := { (s.reqs r).data with handle := some p } }) (ht r) rfl) hf hs
    obtain rfl := Option.some.inj hr'
    refine ⟨hdead, r, ?_, ?_⟩
    · simp [handed, hst, hlife, hpoll, hready]
    · simpa [Request.there, modReq, modEv, push] using hl
  · cases hs

theorem awaitCqe_fault {i : ℕ} {res : ℤ} {base : Addr} {rest : List Activation} (ht : s.Typed) (hf : f.ofRecord = true)
    (hst : s.stack = .awaitWait :: rest) (hs : s.awaitCqe i res base = .error (.undefined f)) :
    f = .deadRequest ∧ ∃ r, s.handed (.cqe i res base) = some r ∧ (s.reqs r).there = false := by
  unfold awaitCqe at hs
  split at hs
  · rename_i hup
    split at hs
    · rename_i x hx
      obtain ⟨hdead, r, hr, hl⟩ := eventHandler_fault (by split <;> exact ht) hf hs
      refine ⟨hdead, r, ?_, ?_⟩
      · simp [handed, hst, hup, hx, hr]
      · rw [hr] at hl
        exact hl
    · cases hs
  · cases hs
    cases hf

/-- Where a step goes wrong with a record, that record is handed to `event_handler` and is gone. -/
theorem fault_of_record (hreach : Reachable s) (hf : f.ofRecord = true) (hs : State.step s c = .error (.undefined f)) :
    f = .deadRequest ∧ ∃ r, s.handed c = some r ∧ (s.reqs r).there = false := by
  have ht := hreach.typed
  have hio := Fault.ofIo_of_ofRecord hf
  have hring : ∀ {P : Prop}, f = .ringDown → P := fun h => absurd h (Fault.ne_ringDown hf)
  unfold State.step at hs
  split at hs
  · exact absurd hs (avoids_userStep hio hring hring)
  · rename_i base hst
    split at hs
    · rename_i hlife
      exact awaitMessage_fault ht hf hst hlife hs
    · cases hs
  · split at hs <;> cases hs
  · rename_i hst
    exact awaitCqe_fault ht hf hst hs
  · cases hs
    cases hf
  · exact absurd hs (avoids_awaitSeen hio hring)
  · rename_i hst
    exact absurd hs (eventHandlerReturn_clean hreach hst)
  · exact absurd hs (avoids_bodyStep hio hring)
  · exact absurd hs (avoids_startReturn hio)
  · exact absurd hs (avoids_registerCoroReturn hio)
  · exact absurd hs (avoids_awaitSuspendTail hio)
  · cases hs
  · exact absurd hs (avoids_ioSubmit hio hring)
  · cases hs

/-- A record that is gone is read where it is handed to `event_handler`. -/
theorem fault_of_handed {r : ReqId} (hr : s.handed c = some r) (hl : (s.reqs r).there = false) :
    State.step s c = .error (.undefined .deadRequest) := by
  obtain ⟨hlive, hheld⟩ := Bool.or_eq_false_iff.mp hl
  unfold handed at hr
  split at hr
  · rename_i hst
    split at hr
    · rename_i hup
      obtain ⟨x, hx, hu⟩ := Option.bind_eq_some_iff.mp hr
      simp [State.step, hst, awaitCqe, hup, hx, hu, eventHandler, setRing, modEv, push, pop, log, hlive, hheld]
    · cases hr
  · rename_i hst
    split at hr
    · rename_i hc
      obtain ⟨p, hp⟩ := Option.ne_none_iff_exists'.mp hc.2
      obtain ⟨⟨res, r'⟩, hy, rfl⟩ := Option.map_eq_some_iff.mp hr
      obtain ⟨ready, hready⟩ := List.head?_eq_some_iff.mp hy
      simp only at hlive hheld
      simp [State.step, hst, hc.1, awaitMessage, hready, hp, eventHandler, modReq, modEv, push, hlive, hheld]
    · cases hr
  · cases hr

end State

/-- **What can go wrong with a record.**  In every state a program reaches, a step reads no member of the union but
the one that was written and deletes no record a second time; and before it resumes a coroutine it reads a record
that is gone if and only if it hands one to `event_handler`. -/
theorem record_faults {s : State} (h : Reachable s) (c : Choice) :
    State.step s c ≠ .error (.undefined .unionMember) ∧ State.step s c ≠ .error (.undefined .doubleDelete) ∧
    (State.step s c = .error (.undefined .deadRequest) ↔ ∃ r, s.handed c = some r ∧ (s.reqs r).there = false) := by
  refine ⟨fun hs => ?_, fun hs => ?_, fun hs => (State.fault_of_record h rfl hs).2,
    fun ⟨r, hr, hl⟩ => State.fault_of_handed hr hl⟩
  · cases (State.fault_of_record h rfl hs).1
  · cases (State.fault_of_record h rfl hs).1

/-- An `_na` call whose submit fails deletes its record and leaves its entry, and the next submit takes that. -/
theorem record_faults_failed : ∃ s : State, s.handed (.cqe 0 0 0) = some 0 ∧
    State.step s (.cqe 0 0 0) = .error (.undefined .deadRequest) ∧
    State.step s (.cqe 0 0 0) ≠ .error (.undefined .unionMember) := by
  have he : (exec State.step (fun _ _ => True) (init 4)
    [.user (.na (.close ⟨3⟩) 0), .user (.submitQueuedEntries 1), .user .start,
      .message 0]).map (fun s => decide (s.handed (.cqe 0 0 0) = some 0 ∧ (s.reqs 0).there = false)) = some true := by
        decide
  obtain ⟨s, hreach, hs⟩ := Reach.of_exec (.up 4) he
  obtain ⟨hr, hl⟩ := of_decide_eq_true hs
  obtain ⟨hunion, -, hdead⟩ := record_faults hreach (.cqe 0 0 0)
  exact ⟨s, hr, hdead.mpr ⟨0, hr, hl⟩, hunion⟩

end EvManager
