import EvManager.Lifetimes

/-!
# Who is woken

No coroutine waits in vain: while it is suspended at the `co_await` of an operation the ring holds the entry of
this operation (**`waits_in_ring`**).  And no completion of an awaitable is for nobody: what is in the ring for it
resumes the coroutine that is suspended at it, and no other (**`awaited_by_one`**).
-/

namespace EvManager

open Lib State

/-! ### What a coroutine waits for -/

namespace State

variable {s s' u : State} {c : Choice} {r : ReqId} {x : CoroId}

theorem Explained.answered {es : List Event} (h : Explained s es) (hhome : (s.reqs r).home = .awaitable (some x)) :
    ∀ y res d, .resumed r y res d ∈ es → 0 < es.countP (Event.isAnswerOf r) := by
  have hcons : ∀ {es : List Event} (a : Event), 0 < es.countP (Event.isAnswerOf r) →
      0 < (a :: es).countP (Event.isAnswerOf r) :=
    fun a hpos => hpos.trans_le (List.sublist_cons_self a _).countP_le
  induction h with
  | nil =>
    intro y res d hm
    cases hm
  | task _ ih | refused _ _ _ ih | failed _ _ _ _ ih =>
    intro y res d hm
    exact hcons _ (ih y res d (List.mem_of_ne_of_mem (by simp) hm))
  | @awaitable es h a res d _ ha _ ih =>
    intro y res' d' hm
    rcases List.mem_cons.mp (List.mem_of_ne_of_mem (by simp) hm) with heq | hm
    · simp only [Event.resumed.injEq] at heq
      obtain ⟨rfl, -⟩ := heq
      refine List.countP_pos_iff.mpr ⟨_, List.mem_cons_self, ?_⟩
      simp only [Event.isAnswerOf, IOResponse.ofPack]
      split <;> simp
    · exact hcons _ (hcons _ (ih y res' d' hm))
  | @batch es h a res d _ _ hh ih | @poll es h a res d _ _ hh _ _ ih =>
    intro y res' d' hm
    rcases List.mem_cons.mp (List.mem_of_ne_of_mem (by simp) hm) with heq | hm
    · cases heq
      cases hhome.symm.trans hh
    · exact hcons _ (hcons _ (ih y res' d' hm))

/-- The awaitable has been in the ring, where its entry is for its own parameters. -/
def Entered (s : State) (r : ReqId) : Prop :=
  1 ≤ s.known r ∧ ∀ p, some (.request p r) ∈ s.flight ++ s.queue → p = (s.reqs r).data.specificData

/-- The entry that an awaitable is given stays in the ring until it is awaited. -/
theorem mem_queue_of_awaitIo (hp : Prepared u) (hlt : r < u.nextReq) {y : CoroId} (hs : u.awaitIo y r = .ok s')
    (hn : (u.reqs r).data.handle = none) (hh : (s'.reqs r).data.handle ≠ none) :
    some (.request (s'.reqs r).data.specificData r) ∈ s'.queue := by
  obtain ⟨hawait, ⟨-, rfl⟩ | ⟨j, -, -, hsqe, hs'⟩⟩ := awaitIo_ok hs
  · rw [(Quiet.ioReturn y r u).data] at hh
    exact absurd hn hh
  · have hu : u.Unawaited r := ⟨hlt, by rw [hawait.2.2.1]; rfl, hn⟩
    obtain ⟨⟨k, hk⟩, hw⟩ := hp.waiting r j hu hsqe
    rw [(Issues.entries_awaitIo hs).1, (Lasting.awaitIo hs).pack r hlt]
    exact List.mem_map.mpr ⟨_, Uring.mem_pending.mpr ⟨k, j, hk, rfl⟩, hw.purpose⟩

/-- A request that is in the ring is not there a second time, for other parameters. -/
theorem pack_unique {l : List (Option Purpose)} {p q : ParameterPack}
    (hl : (l.filterMap Purpose.record).Pairwise (· < ·))
    (hp : some (.request p r) ∈ l) (hq : some (.request q r) ∈ l) : p = q := by
  induction l with
  | nil => cases hp
  | cons a l ih =>
    have hrest : ∀ p, a = some (.request p r) → ∀ q, some (.request q r) ∉ l := fun p ha q hm => by
      subst ha
      simp only [List.filterMap_cons, Purpose.record, List.pairwise_cons] at hl
      exact absurd (hl.1 r (List.mem_filterMap.mpr ⟨_, hm, rfl⟩)) (lt_irrefl r)
    rcases List.mem_cons.mp hp with h1 | h1 <;> rcases List.mem_cons.mp hq with h2 | h2
    · simpa using h1.trans h2.symm
    · exact absurd h2 (hrest p h1.symm q)
    · exact absurd h1 (hrest q h2.symm p)
    · refine ih ?_ h1 h2
      rw [List.filterMap_cons] at hl
      split at hl
      · exact hl
      · exact (List.pairwise_cons.mp hl).2

theorem Entered.step (h : Reach Careful s) (hP : s.Careful c) (hs : State.step s c = .ok s') (hlt : r < s.nextReq)
    (he : s.Entered r) : s'.Entered r := by
  refine ⟨((known_step h hP hs).1 hlt).symm ▸ he.1, fun p hp => ?_⟩
  rw [(Lasting.step hs).pack r hlt]
  refine he.2 p ?_
  cases step_issues h.reachable hs with
  | @moves n a b hq hf hnew =>
    rw [hq, hf, ← List.append_assoc, List.append_assoc s.flight, List.take_append_drop] at hp
    rcases List.mem_append.mp hp with hp | hp
    · rcases List.mem_append.mp hp with hp | hp
      · exact List.mem_append_left _ hp
      · rcases List.mem_append.mp hp with hp | hp
        · exact List.mem_append_right _ hp
        · exact absurd (hnew.sorted.2 r (List.mem_filterMap.mpr ⟨_, List.mem_append_left _ hp, rfl⟩)).1 (not_le.mpr hlt)
    · exact absurd (hnew.sorted.2 r (List.mem_filterMap.mpr ⟨_, List.mem_append_right _ hp, rfl⟩)).1 (not_le.mpr hlt)
  | reaps _ hq hf =>
    rw [hq, hf] at hp
    exact (List.Sublist.append (List.eraseIdx_sublist _ _) (List.Sublist.refl _)).mem hp

/-- **Every awaitable that was awaited** has been in the ring. -/
theorem entered (h : Reach Careful s) : ∀ r x, r < s.nextReq → (s.reqs r).home = .awaitable (some x) →
    (s.reqs r).data.handle ≠ none → s.Entered r := by
  refine h.inv_of (I := fun s => ∀ r x, r < s.nextReq → (s.reqs r).home = .awaitable (some x) →
    (s.reqs r).data.handle ≠ none →
    s.Entered r) (J := fun s => Reach Careful s) (fun s hs => hs) (fun s hi r x hlt => ?_)
    fun s c s' h ih hP hs r x hlt hhome hh => ?_
  · have hn : s.nextReq = 0 := by cases hi <;> rfl
    exact absurd hlt (by simp [hn])
  by_cases hold : r < s.nextReq ∧ (s.reqs r).data.handle ≠ none
  · obtain ⟨hlt0, hh0⟩ := hold
    exact (ih r x hlt0 (((Lasting.step hs).home r hlt0).symm.trans hhome) hh0).step h hP hs hlt0
  · obtain ⟨u, y, hu, h1, h2⟩ := awaits_of_handle h.reachable hs hlt (fun hlt0 => by
      by_contra hn
      exact hold ⟨hlt0, hn⟩) hhome hh
    have hprep : Prepared s := (h.mono fun _ _ hc => hc.1).prepared
    have hprep' : Prepared u := by
      rcases hu with rfl | ⟨ctx, p, a, h3⟩
      · exact hprep
      · exact hprep.ioOp h3
    have hnext : s'.nextReq = u.nextReq := by
      rcases awaitIo_ok h1 with ⟨-, ⟨-, rfl⟩ | ⟨j, -, -, -, rfl⟩⟩
      · exact (Quiet.ioReturn _ _ u).nextReq
      · rfl
    have hq := mem_queue_of_awaitIo hprep' (hnext ▸ hlt) h1 h2 hh
    have hmem : some (.request (s'.reqs r).data.specificData r) ∈ s'.flight ++ s'.queue := List.mem_append_right _ hq
    refine ⟨?_, fun p hp => pack_unique (ordered_of_reachable (h.step hP hs).reachable).1 hp hmem⟩
    have hpos : 0 < s'.issued.count r := List.count_pos_iff.mpr (List.mem_filterMap.mpr ⟨_, hmem, rfl⟩)
    unfold known
    omega

end State

/-- **What a coroutine waits for.**  In every run in which the kernel takes written entries only and the entries
that the user fills complete with null `user_data`, the ring holds the request of each coroutine that is suspended
at the `co_await` of an operation: it has exactly one entry, pending or in flight, which was written with the opcode
and parameters of the operation and the address of its own `RequestData`; and its submission has not failed. -/
theorem waits_in_ring {s : State} (h : Reach State.Careful s) {r : ReqId} {x : CoroId}
    (hp : (s.coros x).place = .atIo r) :
    s.issued.count r = 1 ∧ ¬ s.SubmitFailed r ∧ ∃ e ∈ s.ev.ring.inFlight ++ s.ev.ring.pending,
      e.purpose = some (.request (s.reqs r).data.specificData r) ∧ e.written = true ∧
        e.sqe = ioUringSqeSetData (some r) (prepareSqringOp (s.reqs r).data.specificData {}) := by
  have hreach := h.reachable
  obtain ⟨hlive, hhome, hh, hown⟩ := hreach.sound.records.atIo x r hp
  have hne : (s.reqs r).data.handle ≠ none := by simp [hh]
  obtain ⟨hknown, hpack⟩ := State.entered h r x (hreach.sound.records.owned x r hown).1 hhome hne
  have hle := State.places_le_one h r
  have hplaces := State.places_eq hreach (r := r)
  -- it has not completed: an awaitable is not parked, and one that was delivered has answered
  have hparked : s.parked.countP (·.1 = r) = 0 := by
    refine List.countP_eq_zero.mpr fun y hy hr => ?_
    obtain ⟨z, hz, rfl⟩ := List.mem_map.mp hy
    have hheap := (hreach.sound.records.ready z hz).2
    obtain rfl : z.2 = r := by simpa using hr
    cases hhome.symm.trans hheap
  have hdel : s.deliveries.countP (·.1 = r) = 0 := by
    by_contra hpos
    obtain ⟨y, hy, hr⟩ := List.countP_pos_iff.mp (Nat.pos_of_ne_zero hpos)
    rw [State.deliveries_eq_heard] at hy
    obtain ⟨e, he, hey⟩ := List.mem_filterMap.mp hy
    cases e <;> simp only [Event.delivery, reduceCtorEq, Option.some.injEq] at hey
    subst hey
    obtain rfl := of_decide_eq_true hr
    have hans := (State.explained hreach).answered hhome _ _ _ he
    have h0 := (State.answersOnce hreach _).2 (.inl hlive)
    unfold State.answers at h0
    omega
  have hone : s.issued.count r = 1 := by
    unfold State.places at hle hplaces
    omega
  have hiss : r ∈ s.issued := List.count_pos_iff.mp (by omega)
  refine ⟨hone, ((State.live_awaitable h (.inl hiss) hhome hne).mp hlive).1, ?_⟩
  obtain ⟨a, ha, hr⟩ := List.mem_filterMap.mp hiss
  obtain ⟨p, rfl⟩ : ∃ p, a = some (.request p r) := by
    unfold Purpose.record at hr
    split at hr
    · exact ⟨_, by rw [Option.some.inj hr]⟩
    · cases hr
  obtain rfl := hpack p ha
  have hprep := (h.mono fun _ _ hc => hc.1).prepared
  rw [State.flight, State.queue, ← List.map_append] at ha
  obtain ⟨e, he, hpur⟩ := List.mem_map.mp ha
  refine ⟨e, he, hpur, ?_⟩
  have hfaith : e.Faithful := by
    rcases List.mem_append.mp he with he | he
    · exact hprep.inFlight e he
    · obtain ⟨k, j, hk, rfl⟩ := Uring.mem_pending.mp he
      refine (hprep.pending k j hk).resolve_right ?_
      rintro ⟨r', hw⟩
      have heq := hw.purpose.symm.trans hpur
      simp only [Option.some.injEq, Purpose.request.injEq] at heq
      obtain ⟨-, rfl⟩ := heq
      exact hne hw.unawaited.2.2
  unfold Slot.Faithful at hfaith
  rw [hpur] at hfaith
  exact hfaith

/-- A read whose submission took the entry before it only: a coroutine waits for it while it is pending. -/
theorem waits_in_ring_pending : ∃ s : State, s.ev.ring.inFlight.length = 1 ∧ s.ev.ring.pending.length = 1 ∧
    s.issued.count 0 = 1 := by
  have he : (exec State.step State.Careful (init 4) [.user .getUringSqe, .user .call, .user (.startTask 0),
      .user (.awaitOp (.read ⟨3, 100, 8⟩)), .sub 1]).map (fun s => decide (s.ev.ring.inFlight.length = 1 ∧
        s.ev.ring.pending.length = 1 ∧ (s.coros 1).place = .atIo 0)) = some true := by decide
  obtain ⟨s, hreach, hs⟩ := Reach.of_exec (.up 4) he
  obtain ⟨hf, hq, hp⟩ := of_decide_eq_true hs
  exact ⟨s, hf, hq, (waits_in_ring hreach hp).1⟩

/-! ### Who waits for an awaitable -/

namespace State

variable {s s' : State} {r : ReqId} {x : CoroId}

theorem of_handed_cqe {i : ℕ} {res : ℤ} {base : Addr} (hr : s.handed (.cqe i res base) = some r) :
    ∃ rest y, s.stack = .awaitWait :: rest ∧ s.ev.ringUp = true ∧ s.ev.ring.inFlight[i]? = some y ∧
    y.sqe.userData = some r := by
  unfold handed at hr
  split at hr
  · rename_i hst heq
    cases heq
    split at hr
    · rename_i hup
      obtain ⟨y, hy, hu⟩ := Option.bind_eq_some_iff.mp hr
      exact ⟨_, y, hst, hup, hy, hu⟩
    · cases hr
  · rename_i heq
    cases heq
  · cases hr

theorem eventHandler_waits (hrec : Records s) (hp : (s.coros x).place = .atIo r) {res : ℤ} {base : Addr}
    {d : ResponsePack} (hd : responsePack (s.reqs r).data.reqType (s.reqs r).data.specificData res base = some d) :
    ∃ s', s.eventHandler res (some r) base = .ok s' ∧ s.Delivers r x res d s' := by
  obtain ⟨hl, -, hh, -⟩ := hrec.atIo x r hp
  have hp' :
      ((((s.modPromise x fun p => { p with comData := p.comData.publishRespData d }).log (.resumed r x res d)).push
      (.eventHandler r x)).coros x).place = .atIo r := by
    simpa [modPromise, modCoro, log, push] using hp
  have hres : ∃ s', resume x (some r) (((s.modPromise x fun p => { p with comData := p.comData.publishRespData d }).log
      (.resumed r x res d)).push (.eventHandler r x)) = .ok s' := by
    unfold resume
    rw [hp']
    exact ⟨_, rfl⟩
  obtain ⟨s', hs⟩ := hres
  refine ⟨s', ?_, deliver hrec hl hh hd hs⟩
  unfold eventHandler
  simp only [hl, if_true, hh, hd]
  exact hs

/-- Its completion resumes a coroutine that waits for an awaitable. -/
theorem step_waits (hreach : Reachable s) (hp : (s.coros x).place = .atIo r) {i : ℕ} {res : ℤ} {base : Addr}
    (hr : s.handed (.cqe i res base) = some r) : ∃ s' d, State.step s (.cqe i res base) = .ok s' ∧
      responsePack (s.reqs r).data.reqType (s.reqs r).data.specificData res base = some d ∧
      s.Delivers r x res d s' := by
  obtain ⟨rest, y, hst, hup, hy, hu⟩ := of_handed_cqe hr
  obtain ⟨d, hd, -⟩ := exists_responsePack (s.reqs r).data.specificData res base
  rw [← hreach.typed r] at hd
  have hrec : Records (((s.pop.push .awaitSeen).setRing (s.ev.ring.reap i)).log (.completed r res)) :=
    ((hreach.sound.coherent hst (by simp)).reaped i).records.log _
  obtain ⟨s', hs, hdel⟩ := eventHandler_waits (r := r) (x := x) hrec hp hd
  refine ⟨s', d, ?_, hd, hdel.of_same rfl (heard_log rfl _) rfl rfl rfl rfl rfl⟩
  unfold State.step
  rw [hst]
  simp only [awaitCqe, hup, if_true, hy, hu]
  exact hs

theorem Delivers.returns (hreach : Reachable s) (hp : (s.coros x).place = .atIo r) {res : ℤ} {d : ResponsePack}
    (hd : s.Delivers r x res d s') : s'.heard = .ioReturned x r (.ofPack d) :: .resumed r x res d :: s.heard := by
  obtain ⟨e, he, htakes⟩ := hd.takes
  obtain ⟨base, hpack⟩ := hd.pack
  cases htakes with
  | awaitable => rw [he, noErr hreach x r hp, awaitResume_published (type_of_responsePack hpack)]
  | batch hat | poll hat => cases hat.symm.trans hp

end State

/-- **Who waits for an awaitable.**  In every run in which the kernel takes written entries only, the entries that
the user fills complete with null `user_data`, and no completion comes for an awaitable that is held after its
`co_await` has returned: an awaitable request in the ring whose submission has not failed and whose coroutine was
not destroyed is waited for by this coroutine alone, which is suspended at exactly that `co_await`; and its
completion resumes it, and no other, with the response made of the parameters of the request and of its result. -/
theorem awaited_by_one {s : State} (h : Reach (fun s c => s.Careful c ∧ s.OnTime c) s) {r : ReqId} {x : CoroId}
    (hr : r ∈ s.issued)
    (hhome : (s.reqs r).home = .awaitable (some x)) (hh : (s.reqs r).data.handle ≠ none) (hok : ¬ s.SubmitFailed r)
    (hx : (s.coros x).place ≠ .gone) : (∀ y, (s.coros y).place = .atIo r ↔ y = x) ∧
    ∀ i res base, s.handed (.cqe i res base) = some r → ∃ s' d, State.step s (.cqe i res base) = .ok s' ∧
      responsePack (s.reqs r).data.reqType (s.reqs r).data.specificData res base = some d ∧
      s'.heard = .ioReturned x r (.ofPack d) :: .resumed r x res d :: s.heard ∧ (s'.coros x).place = .running ∧
      ∀ y, y ≠ x → s'.coros y = s.coros y := by
  have hreach := h.reachable
  have hcareful : Reach State.Careful s := h.mono fun _ _ hc => hc.1
  have hp := State.waits_of_live hreach hhome hh ((State.live_awaitable hcareful (.inl hr) hhome hh).mpr ⟨hok, hx⟩)
  refine ⟨fun y => ⟨fun hy => hreach.sound.records.atIo_inj hy hp, fun hy => hy ▸ hp⟩, fun i res base hhand => ?_⟩
  obtain ⟨s', d, hs, hd, hdel⟩ := State.step_waits hreach hp hhand
  exact ⟨s', d, hs, hd, hdel.returns hreach hp, hdel.place, hdel.others⟩

/-- A coroutine awaits a read. -/
theorem awaited_by_one_read : ∃ s : State, (∀ y, (s.coros y).place = .atIo 0 ↔ y = 1) ∧
    ∃ s' d, State.step s (.cqe 0 8 0) = .ok s' ∧
      s'.heard = .ioReturned 1 0 (.ofPack d) :: .resumed 0 1 8 d :: s.heard := by
  have he : (exec State.step (fun s c => s.Careful c ∧ s.OnTime c) (init 4) [.user .call, .user (.startTask 0),
      .user (.awaitOp (.read ⟨3, 100, 8⟩)), .sub 1, .tau, .user .start,
      .message 0]).map (fun s => decide (s.handed (.cqe 0 8 0) = some 0 ∧ 0 ∈ s.issued ∧
        (s.reqs 0).home = .awaitable (some 1) ∧ (s.reqs 0).data.handle ≠ none ∧ s.heard = [] ∧
        (s.coros 1).place ≠ .gone)) = some true := by decide
  obtain ⟨s, hreach, hs⟩ := Reach.of_exec (.up 4) he
  obtain ⟨hr, hiss, hhome, hh, hnone, hx⟩ := of_decide_eq_true hs
  have hok : ¬ s.SubmitFailed 0 := by
    rintro ⟨y, rt, n, hm⟩
    have hheard : .ioReturned y 0 (.unissued rt (.errno .liburingSubmissionErrErrno n)) ∈ s.heard :=
      List.mem_filter.mpr ⟨hm, rfl⟩
    rw [hnone] at hheard
    cases hheard
  obtain ⟨h1, h2⟩ := awaited_by_one hreach hiss hhome hh hok hx
  obtain ⟨s', d, h3, -, h4, -⟩ := h2 0 8 0 hr
  exact ⟨s, h1, s', d, h3, h4⟩

end EvManager
