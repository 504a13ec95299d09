import EvManager.Lasting

/-!
# Requests and their answers

What the three ways of issuing a request put in the ring and in the record, what a completion publishes for it,
and what the `co_await` of an awaitable operation then returns.
-/

namespace EvManager

open Lib State ErrorProcessing

/-! ### The three ways of issuing a request -/

/-- What a record with this type and these parameters publishes on a completion: one pack, which is the same
for every record that has them. -/
def State.Answers (s : State) (p : ParameterPack) (r : ReqId) : Prop :=
  ∀ h res base, (s.reqs r).live = true → (s.reqs r).data.handle = some h →
    ∃ d, responsePack p.type p res base = some d ∧ d.type = p.type ∧
      s.eventHandler res (some r) base = State.resume h (some r)
        (((s.modPromise h fun pr => { pr with comData := pr.comData.publishRespData d }).log
          (.resumed r h res d)).push (.eventHandler r h))

/-- The request `p` was issued with the record `r`, in the slot `j`: the entry is that of `p` in every field but
`user_data`, and the record has the type and the parameters of `p`, now and in every later state. -/
structure State.Issued (s : State) (p : ParameterPack) (r : ReqId) (j : ℕ) : Prop where
  sqe : { (s.ev.ring.sqes j).sqe with userData := none } = prepareSqringOp p {}
  userData : (s.ev.ring.sqes j).sqe.userData = some r
  reqType : (s.reqs r).data.reqType = p.type
  specificData : (s.reqs r).data.specificData = p
  answers : ∀ s', Run State.step (fun _ _ => True) s s' → s'.Answers p r

/-- A completion reads the member of the union that was written. -/
theorem answers_of_data {s : State} {p : ParameterPack} {r : ReqId} (ht : (s.reqs r).data.reqType = p.type)
    (hd : (s.reqs r).data.specificData = p) : s.Answers p r := by
  intro h res base hlive hh
  obtain ⟨d, hpack, hdt⟩ := exists_responsePack p res base
  refine ⟨d, hpack, hdt, ?_⟩
  unfold State.eventHandler
  simp only [hlive, hh, ht, hd, if_true, hpack, need]
  rfl

theorem prepareSqringOp_userData (p : ParameterPack) (d : Option ReqId) (sqe : Sqe) :
    { ioUringSqeSetData d (prepareSqringOp p sqe) with userData := none } = prepareSqringOp p {} := by
  cases p <;> rfl

/-- Between two states of a run the records keep their types and parameters. -/
theorem Lasting.run {s s' : State} (h : Run State.step (fun _ _ => True) s s') : Lasting s s' := by
  induction h with
  | refl => exact .refl s
  | tail _ _ hs ih => exact ih.trans (.step hs)

theorem State.Issued.of_data {s : State} {p : ParameterPack} {r : ReqId} {j : ℕ} {x : Sqe}
    (hsqe : (s.ev.ring.sqes j).sqe = ioUringSqeSetData (some r) (prepareSqringOp p x)) (hlt : r < s.nextReq)
    (ht : (s.reqs r).data.reqType = p.type) (hd : (s.reqs r).data.specificData = p) : s.Issued p r j := by
  refine ⟨?_, ?_, ht, hd, fun s' hr => ?_⟩
  · rw [hsqe]
    exact prepareSqringOp_userData p (some r) x
  · rw [hsqe]
    rfl
  · have hl := Lasting.run hr
    exact answers_of_data ((hl.type r hlt).trans ht) ((hl.pack r hlt).trans hd)

theorem issued_awaitable {p : ParameterPack} {s s1 s2 s' : State} {h : CoroId} {ctx : Option CoroId} {r : ReqId}
    (hop : s.ioOp ctx p = .ok (r, s1)) (hrun : Run State.step (fun _ _ => True) s1 s2)
    (hs : s2.awaitIo h r = .ok s') : isThereAnError (s2.reqs r).error = true ∨ ∃ j, s'.Issued p r j := by
  obtain ⟨-, hr, sqe, s0, h0, rfl⟩ := ioOp_ok hop
  have hlt : r < ((s0.newReq (.awaitable ctx p sqe)).2.ownReq ctx r).nextReq := by
    have hn : s0.nextReq = s.nextReq := by
      rcases getUringSqe_ok h0 with ⟨-, -, rfl⟩ | ⟨j, ring, -, -, -, -, rfl⟩ <;> rfl
    cases ctx <;> simp [State.newReq, State.ownReq, State.modCoro, hr, hn]
  have hdata : (((s0.newReq (.awaitable ctx p sqe)).2.ownReq ctx r).reqs r).data =
      { reqType := p.type, specificData := p } := by
    have hn : s0.nextReq = r := by
      rw [hr]
      rcases getUringSqe_ok h0 with ⟨-, -, rfl⟩ | ⟨j, ring, -, -, -, -, rfl⟩ <;> rfl
    cases ctx <;> simp [State.newReq, State.ownReq, State.modCoro, hn, Request.awaitable]
  have hl := Lasting.run hrun
  have ht2 : (s2.reqs r).data.reqType = p.type := (hl.type r hlt).trans (by rw [hdata])
  have hd2 : (s2.reqs r).data.specificData = p := (hl.pack r hlt).trans (by rw [hdata])
  obtain ⟨-, ⟨he, -⟩ | ⟨j, -, -, -, rfl⟩⟩ := awaitIo_ok hs
  · exact .inl he
  · refine .inr ⟨j, .of_data (x := (s2.ev.ring.sqes j).sqe) ?_ (hlt.trans_le hl.nextReq) ?_ ?_⟩
    · simp [State.writeSqe, State.setRing, State.modEv, State.push, State.pop, State.suspend, State.setPlace,
        State.modCoro, State.modReq, Slot.setData, Slot.prep, hd2]
    · simpa [State.writeSqe, State.setRing, State.modEv, State.push, State.pop, State.suspend, State.setPlace,
        State.modCoro, State.modReq, RequestData.await] using ht2
    · simpa [State.writeSqe, State.setRing, State.modEv, State.push, State.pop, State.suspend, State.setPlace,
        State.modCoro, State.modReq, RequestData.await] using hd2

theorem issued_queued {p : ParameterPack} {s s' : State} {h : CoroId} {r : ReqId} (hlt : r < s.nextReq)
    (hs : s.processSingleGenericRequest p r h = .ok (true, s')) : ∃ j, s'.Issued p r j := by
  rcases processSingleGenericRequest_ok hs with ⟨hb, -⟩ | ⟨-, -, -, j, ring, hr, rfl⟩
  · cases hb
  · refine ⟨j, .of_data (x := (s.ev.ring.sqes j).sqe) ?_ hlt ?_ ?_⟩
    · simp [State.modReq, State.setRing, State.modEv, Uring.getSqe_sqes hr, queuedSlot, Slot.setData, Slot.prep,
        Slot.hand, prepGenericRequest_eq]
    · simp [State.modReq, RequestData.queue]
    · simp [State.modReq, RequestData.queue]

theorem issued_na {p : ParameterPack} {s s' : State} {ret : ℤ} {e : Errnos} (hav : s.SqeAvailable)
    (hs : s.naOp p ret = .ok (e, s')) : ∃ j, s'.Issued p s.nextReq j := by
  rcases naOp_ok hs with ⟨hna, -⟩ | ⟨-, j, ring, s2, hr, h2, hcase⟩
  · exact absurd hav hna
  · obtain ⟨-, -, -, rfl⟩ := submitQueuedEntries_ok h2
    refine ⟨j, ?_⟩
    rcases hcase with ⟨-, -, rfl⟩ | ⟨-, -, rfl⟩ <;> refine .of_data (x := (s.ev.ring.sqes j).sqe) ?_ ?_ ?_ ?_ <;>
      simp [State.setRing, State.modEv, Uring.getSqe_sqes hr, naSlot, Slot.setData, Slot.prep, Slot.hand, prepNa_eq,
        naRequest]

/-- **The three ways of issuing a request agree**: awaited at any time after it was made, queued in a batch, or
not awaited, the request `p` is entered in the ring with the same fields but `user_data`, recorded with the same
type and parameters, and answered with the same pack. -/
theorem issued_alike (p : ParameterPack) :
    (∀ (s s1 s2 s' : State) (ctx : Option CoroId) (h : CoroId) (r : ReqId), s.ioOp ctx p = .ok (r, s1) →
      Run State.step (fun _ _ => True) s1 s2 → s2.awaitIo h r = .ok s' →
      isThereAnError (s2.reqs r).error = true ∨ ∃ j, s'.Issued p r j) ∧
    (∀ (s s' : State) (h : CoroId) (r : ReqId), r < s.nextReq → s.processSingleGenericRequest p r h = .ok (true, s') →
      ∃ j, s'.Issued p r j) ∧
    (∀ (s s' : State) (ret : ℤ) (e : Errnos), s.SqeAvailable → s.naOp p ret = .ok (e, s') →
      ∃ j, s'.Issued p s.nextReq j) :=
  ⟨fun _ _ _ _ _ _ _ hop hrun hs => issued_awaitable hop hrun hs, fun _ _ _ _ hlt hs => issued_queued hlt hs,
    fun _ _ _ _ hav hs => issued_na hav hs⟩

/-- A read, issued in the three ways. -/
theorem issued_alike_read : (∃ s' j, State.Issued s' (.read ⟨3, 100, 8⟩) 0 j) ∧
    (∃ s' j, State.Issued s' (.read ⟨3, 100, 8⟩) 0 j) ∧ ∃ s' j, State.Issued s' (.read ⟨3, 100, 8⟩) 0 j := by
  have ha := (issued_alike (.read ⟨3, 100, 8⟩)).1 (((init 4).call none .user).enter 1) _ _ _ (some 1) 1 0 rfl .refl rfl
  have hb := (issued_alike (.read ⟨3, 100, 8⟩)).2.1 ((init 4).newVector 1 1).2 _ 1 0 (by decide) rfl
  have hn := (issued_alike (.read ⟨3, 100, 8⟩)).2.2 (init 4) _ 1 0 (by decide) rfl
  exact ⟨⟨_, ha.resolve_left (by decide)⟩, ⟨_, hb⟩, ⟨_, hn⟩⟩

/-! ### The members -/

/-- The member of `EventManager` that makes an awaitable for the pack. -/
def ParameterPack.op (ctx : Option CoroId) : ParameterPack → State → Except Stop (ReqId × State)
  | .read p => State.read ctx p.fd p.buffer p.length
  | .write p => State.write ctx p.fd p.buffer p.length
  | .close p => State.close ctx p.fd
  | .shutdown p => State.shutdown ctx p.fd p.how
  | .readv p => State.readv ctx p.fd p.iovs p.num
  | .writev p => State.writev ctx p.fd p.iovs p.num
  | .accept p => State.accept ctx p.sockfd p.addr p.addrlen
  | .connect p => State.connect ctx p.sockfd p.addr p.addrlen
  | .openat p => State.openat ctx p.dirfd p.pathname p.flags p.mode
  | .statx p => State.statx ctx p.dirfd p.pathname p.flags p.mask p.statxbuf
  | .unlinkat p => State.unlinkat ctx p.dirfd p.pathname p.flags
  | .renameat p => State.renameat ctx p.olddirfd p.oldpathname p.newdirfd p.newpathname p.flags

/-- Its member of `RequestQueue`. -/
def ParameterPack.queueOp (q : RequestQueue) : ParameterPack → RequestQueue
  | .read p => q.queueRead p.fd p.buffer p.length
  | .write p => q.queueWrite p.fd p.buffer p.length
  | .close p => q.queueClose p.fd
  | .shutdown p => q.queueShutdown p.fd p.how
  | .readv p => q.queueReadv p.fd p.iovs p.num
  | .writev p => q.queueWritev p.fd p.iovs p.num
  | .accept p => q.queueAccept p.sockfd p.addr p.addrlen
  | .connect p => q.queueConnect p.sockfd p.addr p.addrlen
  | .openat p => q.queueOpenat p.dirfd p.pathname p.flags p.mode
  | .statx p => q.queueStatx p.dirfd p.pathname p.flags p.mask p.statxbuf
  | .unlinkat p => q.queueUnlinkat p.dirfd p.pathname p.flags
  | .renameat p => q.queueRenameat p.olddirfd p.oldpathname p.newdirfd p.newpathname p.flags

/-- Its `_na` member. -/
def ParameterPack.opNa : ParameterPack → ℤ → State → Except Stop (Errnos × State)
  | .read p => State.readNa p.fd p.buffer p.length
  | .write p => State.writeNa p.fd p.buffer p.length
  | .close p => State.closeNa p.fd
  | .shutdown p => State.shutdownNa p.fd p.how
  | .readv p => State.readvNa p.fd p.iovs p.num
  | .writev p => State.writevNa p.fd p.iovs p.num
  | .accept p => State.acceptNa p.sockfd p.addr p.addrlen
  | .connect p => State.connectNa p.sockfd p.addr p.addrlen
  | .openat p => State.openatNa p.dirfd p.pathname p.flags p.mode
  | .statx p => State.statxNa p.dirfd p.pathname p.flags p.mask p.statxbuf
  | .unlinkat p => State.unlinkatNa p.dirfd p.pathname p.flags
  | .renameat p => State.renameatNa p.olddirfd p.oldpathname p.newdirfd p.newpathname p.flags

theorem op_eq (ctx : Option CoroId) (p : ParameterPack) : p.op ctx = State.ioOp ctx p := by cases p <;> rfl

theorem queueOp_eq (q : RequestQueue) (p : ParameterPack) : p.queueOp q = q ++ [p] := by cases p <;> rfl

theorem opNa_eq (p : ParameterPack) : p.opNa = State.naOp p := by cases p <;> rfl

/-- The three members for the pack, `read`, `queue_read` and `read_na` to `renameat`, `queue_renameat` and
`renameat_na`, issue the same request. -/
theorem members_issue_alike (p : ParameterPack) :
    (∀ (s s1 s2 s' : State) (ctx : Option CoroId) (h : CoroId) (r : ReqId), p.op ctx s = .ok (r, s1) →
      Run State.step (fun _ _ => True) s1 s2 → s2.awaitIo h r = .ok s' →
      isThereAnError (s2.reqs r).error = true ∨ ∃ j, s'.Issued p r j) ∧
    (∀ (q : RequestQueue) (req : ParameterPack) (s s' : State) (h : CoroId) (r : ReqId), req ∈ (p.queueOp q).getLast? →
      r < s.nextReq → s.processSingleGenericRequest req r h = .ok (true, s') → ∃ j, s'.Issued p r j) ∧
    (∀ (s s' : State) (ret : ℤ) (e : Errnos), s.SqeAvailable → p.opNa ret s = .ok (e, s') →
      ∃ j, s'.Issued p s.nextReq j) := by
  refine ⟨?_, ?_, ?_⟩
  · intro s s1 s2 s' ctx h r hop hrun hs
    rw [op_eq] at hop
    exact issued_awaitable hop hrun hs
  · intro q req s s' h r hm hlt hs
    rw [queueOp_eq, List.getLast?_concat, Option.mem_def, Option.some.injEq] at hm
    subst hm
    exact issued_queued hlt hs
  · intro s s' ret e hav hs
    rw [opNa_eq] at hs
    exact issued_na hav hs

/-! ### What a `co_await` returns -/

/-- The field of a pack that carries the result of the operation, where it has one. -/
def ResponsePack.result : ResponsePack → Option ℤ
  | .read d => some d.bytesRead
  | .write d => some d.bytesWrote
  | .readv d => some d.bytesRead
  | .writev d => some d.bytesWrote
  | .accept d => some d.fd
  | .openat d => some d.reqFd
  | .close _ | .shutdown _ | .connect _ | .statx _ | .unlinkat _ | .renameat _ => none

/-- The coroutine `h` waits for its operation `p`, which was submitted, with the record `r`. -/
structure State.Awaiting (s : State) (h : CoroId) (p : ParameterPack) (r : ReqId) : Prop where
  place : (s.coros h).place = .atIo r
  live : (s.reqs r).live = true
  handle : (s.reqs r).data.handle = some h
  error : (s.reqs r).error = .noErr
  reqType : (s.reqs r).data.reqType = p.type
  specificData : (s.reqs r).data.specificData = p

/-- What is said of a submission that returned `ret < 1`: there is an error, and the number of a failure is the
one the caller finds. -/
def SubmissionReported (ret : ℤ) (resp : IOResponse) : Prop :=
  isThereAnError resp.error = true ∧
    (ret < 0 → ∃ e, getContainedErrorCode .liburingSubmissionErrErrno resp.error = some e ∧ (e.toNat : ℤ) = -ret)

/-- What is said of a completion with result `res`: there is an error if the result is negative, and then the
errno is the one the caller finds; otherwise the caller finds the result. -/
def CompletionReported (p : ParameterPack) (res : ℤ) (resp : IOResponse) : Prop :=
  (isThereAnError resp.error = true ↔ res < 0) ∧
    (res < 0 → Errnos.Named (-res) → ∃ e, getContainedErrorCode .operationErrErrno resp.error = some e ∧
      (e.toNat : ℤ) = -res ∧ (e.toNat : ℤ) = resp.data.generic.errorNum) ∧
    (0 ≤ res → resp.data.type = p.type ∧ resp.data.generic.errorNum = 0 ∧ ∀ n, resp.data.result = some n → n = res)

/-- An awaited operation is submitted next, and once it is submitted its coroutine waits. -/
theorem awaiting_of_submit {p : ParameterPack} {s s1 s2 s' : State} {h : CoroId} {r : ReqId} {ret : ℤ}
    (hop : s.ioOp (some h) p = .ok (r, s1)) (hs : s1.awaitIo h r = .ok s2)
    (herr : isThereAnError (s1.reqs r).error = false) (hret : 1 ≤ ret) (hsub : State.step s2 (.sub ret) = .ok s') :
    s'.Awaiting h p r := by
  obtain ⟨-, hr, sqe, s0, h0, rfl⟩ := ioOp_ok hop
  have hn : s0.nextReq = r := by
    rw [hr]
    rcases getUringSqe_ok h0 with ⟨-, -, rfl⟩ | ⟨j, ring, -, -, -, -, rfl⟩ <;> rfl
  have hreq : ((s0.newReq (.awaitable (some h) p sqe)).2.ownReq (some h) r).reqs r =
      .awaitable (some h) p sqe := by simp [State.newReq, State.ownReq, State.modCoro, hn]
  generalize (s0.newReq (.awaitable (some h) p sqe)).2.ownReq (some h) r = s1 at *
  obtain ⟨-, ⟨he, -⟩ | ⟨j, he, -, -, rfl⟩⟩ := awaitIo_ok hs
  · rw [herr] at he
    cases he
  · unfold State.step at hsub
    simp only [stack_push] at hsub
    unfold State.ioSubmit at hsub
    obtain ⟨s3, h3, h4⟩ := bind_ok.mp hsub
    rw [if_neg (by omega)] at h4
    cases h4
    obtain ⟨-, -, -, rfl⟩ := submitQueuedEntries_ok h3
    rw [hreq] at he
    have hsqe : (Request.awaitable (some h) p sqe).error = .noErr := isThereAnError_eq_false.mp he
    refine ⟨?_, ?_, ?_, ?_, ?_, ?_⟩ <;>
      simp only [State.writeSqe, State.setRing, State.modEv, State.push, State.pop, State.suspend, State.setPlace,
        State.modCoro, State.modReq, Function.update_self, RequestData.await, hreq, hsqe] <;> rfl

theorem ioSubmit_response {s s' : State} {h : CoroId} {r : ReqId} {rest : List Activation} {ret : ℤ}
    (hst : s.stack = .ioSubmit h r :: rest) (hp : (s.coros h).place = .atIo r) (hret : ret < 1)
    (hs : State.step s (.sub ret) = .ok s') :
    s'.trace = .ioReturned h r ⟨.errno .liburingSubmissionErrErrno (Errnos.cast (-ret)),
      .empty (s.reqs r).data.reqType⟩ :: s.trace := by
  unfold State.step at hs
  rw [hst] at hs
  simp only at hs
  unfold State.ioSubmit at hs
  obtain ⟨s1, h1, h2⟩ := bind_ok.mp hs
  obtain ⟨-, -, -, rfl⟩ := submitQueuedEntries_ok h1
  rw [if_pos hret] at h2
  have hp' : (s.pop.coros h).place = .atIo r := hp
  simp only [State.resume, State.modReq, State.modEv, hp'] at h2
  cases h2
  simp [State.enter, State.ioReturn, State.push, State.setPlace, State.modCoro, State.modPromise, State.modReq,
    State.log, State.pop, awaitResume, setErrorFromNum, isThereAnError]

theorem eventHandler_response {s : State} {h : CoroId} {p : ParameterPack} {r : ReqId} (ha : s.Awaiting h p r) (res : ℤ)
    (base : Addr) : ∃ s' d, responsePack p.type p res base = some d ∧ s.eventHandler res (some r) base = .ok s' ∧
      s'.trace =
        .ioReturned h r
          ⟨if d.generic.errorNum ≠ 0 then .errno .operationErrErrno (Errnos.cast (-d.generic.errorNum)) else .noErr, d⟩ ::
        .resumed r h res d :: s.trace := by
  obtain ⟨d, hd, ht, he⟩ := answers_of_data ha.reqType ha.specificData h res base ha.live ha.handle
  have hplace : ((((s.modPromise h fun pr => { pr with comData := pr.comData.publishRespData d }).log
      (.resumed r h res d)).push (.eventHandler r h)).coros h).place = .atIo r := by
    simpa [State.modPromise, State.modCoro, State.log, State.push] using ha.place
  refine ⟨State.ioReturn h r (State.enter h (((s.modPromise h fun pr =>
    { pr with comData := pr.comData.publishRespData d }).log (.resumed r h res d)).push (.eventHandler r h))), d, hd,
    ?_, ?_⟩
  · rw [he]
    unfold State.resume
    rw [hplace]
  · have hcons := CommunicationChannel.consumeRespData_publishRespData d
    rw [ht] at hcons
    simp only [State.ioReturn, State.enter, State.setPlace, State.modPromise, State.modCoro, State.log, State.push,
      State.modReq, Function.update_self, ha.error, ha.reqType, awaitResume, isThereAnError, hcons]
    split_ifs <;> simp_all [setErrorFromNum]

/-- The low byte of a number, as the enum keeps it. -/
theorem Errnos.toNat_cast (n : ℤ) : ((Errnos.cast n).toNat : ℤ) = n % 256 := by
  unfold Errnos.cast UInt8.ofInt
  simp
  omega

theorem errorNum_of_responsePack {p : ParameterPack} {res : ℤ} {base : Addr} {d : ResponsePack}
    (hd : responsePack p.type p res base = some d) : d.generic.errorNum = if res < 0 then -res else 0 := by
  cases p <;> cases hd <;> rfl

theorem result_of_responsePack {p : ParameterPack} {res n : ℤ} {base : Addr} {d : ResponsePack}
    (hd : responsePack p.type p res base = some d) (hres : 0 ≤ res) (hn : d.result = some n) : n = res := by
  cases p <;> cases hd <;> simp [ResponsePack.result, hres] at hn <;> omega

/-- The number of a failed submission is kept as long as it fits in a byte. -/
theorem submissionReported_iff {ret : ℤ} (hret : ret < 1) (d : ResponsePack) :
    SubmissionReported ret ⟨.errno .liburingSubmissionErrErrno (Errnos.cast (-ret)), d⟩ ↔ -255 ≤ ret := by
  have hcast := Errnos.toNat_cast (-ret)
  constructor
  · rintro ⟨-, h⟩
    by_contra hlt
    obtain ⟨e, he, hn⟩ := h (by omega)
    cases he
    omega
  · intro hlo
    exact ⟨rfl, fun _ => ⟨_, rfl, by omega⟩⟩

/-- A negative result is negated once too often on its way to the caller. -/
theorem completionReported_iff {p : ParameterPack} {res : ℤ} {base : Addr} {d : ResponsePack}
    (hd : responsePack p.type p res base = some d) :
    CompletionReported p res ⟨if d.generic.errorNum ≠ 0 then
      .errno .operationErrErrno (Errnos.cast (-d.generic.errorNum)) else .noErr, d⟩ ↔
        0 ≤ res ∨ ¬ Errnos.Named (-res) ∨ res = -128 := by
  have herr := errorNum_of_responsePack hd
  by_cases hneg : res < 0
  · rw [if_pos hneg] at herr
    have hcast := Errnos.toNat_cast (-d.generic.errorNum)
    rw [if_pos (by omega)]
    constructor
    · rintro ⟨-, h, -⟩
      by_cases hnamed : Errnos.Named (-res)
      · obtain ⟨e, he, hn, -⟩ := h hneg hnamed
        cases he
        unfold Errnos.Named at hnamed
        omega
      · exact .inr (.inl hnamed)
    · intro h
      refine ⟨⟨fun _ => hneg, fun _ => rfl⟩, fun _ hnamed => ⟨_, rfl, ?_⟩, fun hpos => by omega⟩
      have hres : res = -128 := (h.resolve_left (by omega)).resolve_left (not_not.mpr hnamed)
      simp only
      omega
  · rw [if_neg hneg] at herr
    rw [if_neg (by omega)]
    refine ⟨fun _ => .inl (by omega), fun _ => ⟨⟨fun h => ?_, fun h => absurd h hneg⟩, fun h => absurd h hneg,
      fun hpos => ⟨type_of_responsePack hd, herr, fun n hn => result_of_responsePack hd hpos hn⟩⟩⟩
    cases h

/-- **What the caller of an awaited operation finds**: the number of a failed submission exactly when it fits in a
byte, and the errno of a failed operation exactly when it is one the enum does not name or is 128; a result that
is not negative always. -/
theorem reported_iff (p : ParameterPack) (h : CoroId) (r : ReqId) :
    (∀ (s s' : State) (rest : List Activation) (ret : ℤ), s.stack = .ioSubmit h r :: rest →
      (s.coros h).place = .atIo r → ret < 1 → State.step s (.sub ret) = .ok s' →
      ∃ resp, s'.trace = .ioReturned h r resp :: s.trace ∧ (SubmissionReported ret resp ↔ -255 ≤ ret)) ∧
    (∀ (s s1 s2 s' : State) (ret : ℤ), s.ioOp (some h) p = .ok (r, s1) → s1.awaitIo h r = .ok s2 →
      isThereAnError (s1.reqs r).error = false → 1 ≤ ret → State.step s2 (.sub ret) = .ok s' → s'.Awaiting h p r) ∧
    (∀ (s : State), s.Awaiting h p r → ∀ (res : ℤ) (base : Addr), ∃ s' resp d,
      s.eventHandler res (some r) base = .ok s' ∧ s'.trace = .ioReturned h r resp :: .resumed r h res d :: s.trace ∧
      (CompletionReported p res resp ↔ 0 ≤ res ∨ ¬ Errnos.Named (-res) ∨ res = -128)) := by
  refine ⟨fun s s' rest ret hst hp hret hs => ?_, fun s s1 s2 s' ret hop hs herr hret hsub => ?_,
    fun s ha res base => ?_⟩
  · exact ⟨_, ioSubmit_response hst hp hret hs, submissionReported_iff hret _⟩
  · exact awaiting_of_submit hop hs herr hret hsub
  · obtain ⟨s', d, hd, hs, ht⟩ := eventHandler_response ha res base
    exact ⟨s', _, d, hs, ht, completionReported_iff hd⟩

/-- A read whose submission fails with `EAGAIN`, one that is submitted, and one that gives 8 bytes. -/
theorem reported_iff_read :
    (∃ (s : State) (resp : IOResponse), s.trace.head? = some (.ioReturned 1 0 resp) ∧ SubmissionReported (-11) resp) ∧
    ∃ s' : State, s'.Awaiting 1 (.read ⟨3, 100, 8⟩) 0 ∧ ∃ resp, CompletionReported (.read ⟨3, 100, 8⟩) 8 resp := by
  constructor
  · have he : (exec step (fun _ _ => True) (init 4) [.user .call, .user (.startTask 0),
        .user (.awaitOp (.read ⟨3, 100, 8⟩))]).map (fun s =>
        decide (s.stack = [.ioSubmit 1 0, .taskStart (.var 0) 1, .main] ∧ (s.coros 1).place = .atIo 0 ∧
          (step s (.sub (-11))).isOk = true)) = some true := by decide
    obtain ⟨s, -, hs⟩ := Reach.of_exec (.up 4) he
    obtain ⟨hst, hp, hok⟩ := of_decide_eq_true hs
    rcases hs' : step s (.sub (-11)) with e | s'
    · rw [hs'] at hok
      cases hok
    · obtain ⟨resp, ht, hiff⟩ :=
        (reported_iff (.read ⟨3, 100, 8⟩) 1 0).1 s s' [.taskStart (.var 0) 1, .main] (-11) hst hp (by decide) hs'
      exact ⟨s', resp, by rw [ht]; rfl, hiff.mpr (by decide)⟩
  · have ha := (reported_iff (.read ⟨3, 100, 8⟩) 1 0).2.1 (((init 4).call none .user).enter 1) _ _ _ 1 rfl rfl rfl
      (by decide) rfl
    obtain ⟨s', resp, d, -, -, hiff⟩ := (reported_iff (.read ⟨3, 100, 8⟩) 1 0).2.2 _ ha 8 0
    exact ⟨_, ha, resp, hiff.mpr (.inl (by decide))⟩

/-- A read that completes with `-ENOENT`: the code its caller finds is 254. -/
theorem reported_fails : ¬ ∀ (p : ParameterPack) (h : CoroId) (r : ReqId) (s s' : State) (res : ℤ) (base : Addr)
    (resp : IOResponse) (d : ResponsePack), Reachable s → s.Awaiting h p r → s.eventHandler res (some r) base = .ok s' →
      s'.trace = .ioReturned h r resp :: .resumed r h res d :: s.trace → CompletionReported p res resp := by
  intro hall
  have he : (exec step (fun _ _ => True) (init 4) [.user .call, .user (.startTask 0),
      .user (.awaitOp (.read ⟨3, 100, 8⟩)), .sub 1]).map (fun s =>
      decide ((s.coros 1).place = .atIo 0 ∧ (s.reqs 0).live = true ∧ (s.reqs 0).data.handle = some 1 ∧
        (s.reqs 0).error = .noErr ∧ (s.reqs 0).data.reqType = .read ∧
        (s.reqs 0).data.specificData = .read ⟨3, 100, 8⟩)) = some true := by decide
  obtain ⟨s, hreach, hs⟩ := Reach.of_exec (.up 4) he
  obtain ⟨h1, h2, h3, h4, h5, h6⟩ := of_decide_eq_true hs
  have ha : s.Awaiting 1 (.read ⟨3, 100, 8⟩) 0 := ⟨h1, h2, h3, h4, h5, h6⟩
  obtain ⟨s', d, hd, hev, ht⟩ := eventHandler_response ha (-2) 0
  have hiff := (completionReported_iff hd).mp (hall _ _ _ _ _ _ _ _ _ hreach ha hev ht)
  unfold Errnos.Named at hiff
  omega

end EvManager
