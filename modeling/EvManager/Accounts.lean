import EvManager.Completions
import EvManager.IoErrors

/-!
# The account of what is heard

Everything a coroutine hears of requests is accounted for.  The `co_await` of an awaitable returns a refusal, a
failed submission or the response to a completion of that awaitable; a handler is called with the response to a
completion of a request of its batch, or of one of the heap if it is that of a poll; and each delivery is taken by
one of these at once, so by one only: **`heard_explained`**.  And an awaitable answers at most once.
-/

namespace EvManager

open Lib State ErrorProcessing

/-- The response of an operation that ended with the pack `d`. -/
def IOResponse.ofPack (d : ResponsePack) : IOResponse :=
  ⟨if d.generic.errorNum ≠ 0 then .errno .operationErrErrno (Errnos.cast (-d.generic.errorNum)) else .noErr, d⟩

/-- The response of an operation of type `rt` that was not issued. -/
def IOResponse.unissued (rt : RequestType) (e : ErrorCodes) : IOResponse := ⟨e, .empty rt⟩

/-- The `co_await` of the awaitable `r` returns and its request was issued. -/
def Event.isAnswerOf (r : ReqId) : Event → Bool
  | .ioReturned _ a resp => a = r ∧ resp.error ≠ .eventManagerErr .submissionQueueFull
  | _ => false

namespace State

variable {s s' u : State} {c : Choice} {h x : CoroId} {r : ReqId}

theorem awaitResume_error {rt : RequestType} {e : ErrorCodes} (he : isThereAnError e = true)
    (chan : CommunicationChannel) :
    (awaitResume rt e chan).1 = .unissued rt e := by simp [awaitResume, he, IOResponse.unissued]

/-- What was published at the type of the awaitable is what its `co_await` returns. -/
theorem awaitResume_published {rt : RequestType} {d : ResponsePack} (hd : d.type = rt) :
    (awaitResume rt .noErr ⟨some d⟩).1 = .ofPack d := by
  subst hd
  have hc := CommunicationChannel.consumeRespData_publishRespData d ⟨none⟩
  unfold CommunicationChannel.publishRespData at hc
  simp only [awaitResume, isThereAnError, Bool.false_eq_true, if_false, hc, IOResponse.ofPack]
  split <;> rfl

/-- The request `r` completed with the result `res`, and `d` is made of its parameters and of this result. -/
structure Responds (s : State) (r : ReqId) (res : ℤ) (d : ResponsePack) : Prop where
  made : r < s.nextReq
  completed : (r, res) ∈ s.completions
  pack : ∃ base, responsePack (s.reqs r).data.reqType (s.reqs r).data.specificData res base = some d

/-- The events of `es`, newest first, are accounted for: a task returns, an awaitable returns without its request
having been issued, or a response is delivered and at once taken by the one who asked for it. -/
inductive Explained (s : State) : List Event → Prop
  | nil : Explained s []
  | task {es : List Event} {a child : CoroId} {t : TaskRef} {code : ℕ} : Explained s es →
      Explained s (.taskReturned a t child code :: es)
  | refused {es : List Event} {h : CoroId} {r : ReqId} : Explained s es → r < s.nextReq →
      (s.reqs r).home = .awaitable (some h) →
      Explained s (.ioReturned h r (.unissued (s.reqs r).data.reqType (.eventManagerErr .submissionQueueFull)) :: es)
  | failed {es : List Event} {h : CoroId} {r : ReqId} {ret : ℤ} : Explained s es → r < s.nextReq →
      (s.reqs r).home = .awaitable (some h) → ret < 1 →
      Explained s
      (.ioReturned h r (.unissued (s.reqs r).data.reqType (.errno .liburingSubmissionErrErrno (Errnos.cast (-ret)))) ::
        es)
  | awaitable {es : List Event} {h : CoroId} {r : ReqId} {res : ℤ} {d : ResponsePack} : Explained s es →
      s.Responds r res d →
      (s.reqs r).home = .awaitable (some h) → Explained s (.ioReturned h r (.ofPack d) :: .resumed r h res d :: es)
  | batch {es : List Event} {h : CoroId} {r : ReqId} {res : ℤ} {d : ResponsePack} : Explained s es →
      s.Responds r res d →
      (s.reqs r).home = .vector h →
      Explained s (.handled h (some r) (some (s.reqs r).data.reqType) (some d) :: .resumed r h res d :: es)
  | poll {es : List Event} {h : CoroId} {r : ReqId} {res : ℤ} {d : ResponsePack} : Explained s es → s.Responds r res d →
      (s.reqs r).home = .heap → h < s.nextCoro → (s.coros h).body.kind = .poll →
      Explained s (.handled h (some r) (some (s.reqs r).data.reqType) (some d) :: .resumed r h res d :: es)

theorem Responds.mono (hl : Lasting s s') (hc : ∀ y ∈ s.completions, y ∈ s'.completions) {res : ℤ} {d : ResponsePack}
    (ha : s.Responds r res d) : s'.Responds r res d := by
  refine ⟨ha.made.trans_le hl.nextReq, hc _ ha.completed, ?_⟩
  rw [hl.type r ha.made, hl.pack r ha.made]
  exact ha.pack

theorem Explained.mono (hl : Lasting s s') (hc : ∀ y ∈ s.completions, y ∈ s'.completions)
    (hst : Steady s s') {es : List Event} (h : Explained s es) : Explained s' es := by
  induction h with
  | nil => exact .nil
  | task _ ih => exact .task ih
  | refused _ hr hh ih =>
    rw [← hl.type _ hr]
    exact .refused ih (hr.trans_le hl.nextReq) ((hl.home _ hr).trans hh)
  | failed _ hr hh hret ih =>
    rw [← hl.type _ hr]
    exact .failed ih (hr.trans_le hl.nextReq) ((hl.home _ hr).trans hh) hret
  | awaitable _ ha hh ih => exact .awaitable ih (ha.mono hl hc) ((hl.home _ ha.made).trans hh)
  | batch _ ha hh ih =>
    rw [← hl.type _ ha.made]
    exact .batch ih (ha.mono hl hc) ((hl.home _ ha.made).trans hh)
  | @poll _ x _ _ _ _ ha hh hx hk ih =>
    rw [← hl.type _ ha.made]
    have hk' : (s'.coros x).body.kind = .poll :=
      ((hst.kind x).resolve_right fun h => absurd hx (not_lt.mpr h.1)).trans hk
    exact .poll ih (ha.mono hl hc) ((hl.home _ ha.made).trans hh) (hx.trans_le hst.nextCoro) hk'

/-! ### What a step adds -/

theorem deliveries_eq_heard (s : State) : s.deliveries = s.heard.filterMap Event.delivery := by
  unfold deliveries heard
  rw [List.filterMap_filter]
  refine List.filterMap_congr fun e _ => ?_
  cases e <;> simp [Event.delivery, Event.isHeard]

theorem mem_completions_of_delivered (hreach : Reachable s) {y : ReqId × ℤ} (hy : y ∈ s.deliveries) :
    y ∈ s.completions :=
  (completions_perm hreach).mem_iff.mpr (List.mem_append_left _ hy)

theorem completions_step (hs : State.step s c = .ok s') : ∀ y ∈ s.completions, y ∈ s'.completions := by
  intro y hy
  cases step_dispatches hs with
  | nothing h1 => exact h1.completions ▸ hy
  | comes _ _ _ _ hc _ => exact hc ▸ List.mem_cons_of_mem _ hy
  | unparks _ hc => exact hc ▸ hy

theorem Delivers.made (hreach : Reachable s) {res : ℤ} {d : ResponsePack} (hd : s.Delivers r h res d s') :
    r < s.nextReq := by
  by_contra hn
  cases (hreach.sound.records.fresh r (not_lt.mp hn)).symm.trans hd.live

theorem responds_of_delivers (hreach : Reachable s) (hs : State.step s c = .ok s') {res : ℤ} {d : ResponsePack}
    (hd : s.Delivers r h res d s') : s'.Responds r res d := by
  obtain ⟨e, he, -⟩ := hd.takes
  have hmade := hd.made hreach
  have hl := Lasting.step hs
  refine ⟨hmade.trans_le hl.nextReq, mem_completions_of_delivered (hreach.step hs) ?_, ?_⟩
  · rw [deliveries_eq_heard, he]
    refine List.mem_filterMap.mpr ⟨.resumed r h res d, by simp, rfl⟩
  · rw [hl.type r hmade, hl.pack r hmade]
    exact hd.pack

/-- An awaitable that is refused was not awaited before, so its only error is that no entry was to be had. -/
theorem heard_refused (hreach : Reachable s) (hs : State.step s c = .ok s') (hu : Hush s u) (ha : u.Awaitable h r)
    (herr : isThereAnError (u.reqs r).error = true) (hs' : s' = u.ioReturn h r) :
    r < s'.nextReq ∧ (s'.reqs r).home = .awaitable (some h) ∧ s'.heard =
      .ioReturned h r (.unissued (s'.reqs r).data.reqType (.eventManagerErr .submissionQueueFull)) :: s.heard := by
  have hmem : r ∈ (s'.coros h).reqs := by
    rw [hs']
    simpa [ioReturn, log, modReq, modPromise, modCoro] using ha.1
  have hq : s'.reqs r = { u.reqs r with live := false, held := true } := by
    rw [hs']
    simp only [ioReturn, log, modReq, Function.update_self]
    rfl
  have herr' : (s'.reqs r).error = .eventManagerErr .submissionQueueFull := by
    have h1 : NewError (s'.reqs r).error := newError (hreach.step hs) r (.inr (by rw [hq]; exact ha.2.2.2))
    refine h1.resolve_left fun h2 => ?_
    rw [hq] at h2
    rw [isThereAnError_eq_false.mpr h2] at herr
    cases herr
  refine ⟨((hreach.step hs).sound.records.owned h r hmem).1, by rw [hq]; exact ha.2.2.1, ?_⟩
  rw [← herr', hq, ← hu.heard, hs', ← awaitResume_error herr]
  rfl

/-- **What is heard in a step is explained.** -/
theorem explained_step (hreach : Reachable s) (hs : State.step s c = .ok s') (he : Explained s s.heard) :
    Explained s' s'.heard := by
  have hl := Lasting.step hs
  have hold : Explained s' s.heard := he.mono hl (completions_step hs) (Steady.step hs)
  cases step_hears hreach hs with
  | mute h1 => exact h1 ▸ hold
  | answered _ h1 => exact h1 ▸ .task hold
  | refused hu ha herr hs' =>
    obtain ⟨hmade, hhome, hheard⟩ := heard_refused hreach hs hu ha herr hs'
    rw [hheard]
    exact .refused hold hmade hhome
  | @failed h r ret rest hst _ hret h1 =>
    obtain ⟨-, hhome, -, hown⟩ := hreach.sound.records.atIo h r (place_of_ioSubmit hreach hst)
    have hmade := (hreach.sound.records.owned h r hown).1
    rw [h1, ← hl.type r hmade]
    exact .failed hold (hmade.trans_le hl.nextReq) ((hl.home r hmade).trans hhome) hret
  | @delivers r h res d hsrc hd =>
    have hans := responds_of_delivers hreach hs hd
    obtain ⟨base, hpack⟩ := hd.pack
    have hmade := hd.made hreach
    have htype : d.type = (s'.reqs r).data.reqType := (type_of_responsePack hpack).trans (hl.type r hmade).symm
    obtain ⟨e, he, htakes⟩ := hd.takes
    rw [he]
    cases htakes with
    | awaitable hp hh =>
      rw [noErr hreach h r hp, awaitResume_published (type_of_responsePack hpack)]
      exact .awaitable hold hans ((hl.home r hmade).trans hh)
    | batch _ hh =>
      rw [htype]
      exact .batch hold hans ((hl.home r hmade).trans hh)
    | poll _ hh hb hb' =>
      rw [htype]
      refine .poll hold hans ((hl.home r hmade).trans hh) ?_ (by rw [hb']; rfl)
      by_contra hn
      cases ((hreach.step hs).placed.fresh h (not_lt.mp hn)).symm.trans hd.place

theorem explained (h : Reachable s) : Explained s s.heard := by
  refine Reach.inv_of (I := fun s => Explained s s.heard) (J := fun s => Reachable s) (fun s h => h) (fun s hi => ?_)
    (fun s c s' hreach he _ hs => explained_step hreach hs he) h
  have ht : s.trace = [] := by cases hi <;> rfl
  rw [heard, ht]
  exact .nil

/-! ### How often an awaitable answers -/

/-- How often the awaitable `r` has answered. -/
def answers (s : State) (r : ReqId) : ℕ := s.heard.countP (Event.isAnswerOf r)

/-- An awaitable answers at most once, and not before its record dies. -/
def AnswersOnce (s : State) (r : ReqId) : Prop :=
  s.answers r ≤ 1 ∧ ((s.reqs r).live = true ∨ s.nextReq ≤ r → s.answers r = 0)

theorem answers_cons {e : Event} {es : List Event} (hs : s.heard = e :: es) :
    s.answers r = es.countP (Event.isAnswerOf r) + if e.isAnswerOf r then 1 else 0 := by
  rw [answers, hs, List.countP_cons]

theorem AnswersOnce.of_eq (h : AnswersOnce s r) (hl : Lasting s s') (he : s'.answers r = s.answers r) :
    AnswersOnce s' r := by
  refine ⟨he.trans_le h.1, fun hr => he.trans (h.2 ?_)⟩
  by_cases hlt : r < s.nextReq
  · exact .inl (hl.live r hlt (hr.resolve_right (not_le.mpr (hlt.trans_le hl.nextReq))))
  · exact .inr (not_lt.mp hlt)

theorem AnswersOnce.of_answer (h : AnswersOnce s r) (hlive : (s.reqs r).live = true)
    (he : s'.answers r = s.answers r + 1)
    (hdead : (s'.reqs r).live = false) (hmade : r < s'.nextReq) : AnswersOnce s' r := by
  rw [h.2 (.inl hlive)] at he
  refine ⟨he.le, fun hr => ?_⟩
  rcases hr with hr | hr
  · cases hdead.symm.trans hr
  · exact absurd hmade (not_lt.mpr hr)

theorem live_ioSubmit_failed {ret : ℤ} (hp : (s.coros h).place = .atIo r) (hret : ret < 1)
    (hs : s.ioSubmit h r ret = .ok s') : (s'.reqs r).live = false := by
  unfold State.ioSubmit at hs
  obtain ⟨s1, h1, h2⟩ := bind_ok.mp hs
  obtain ⟨-, -, -, rfl⟩ := submitQueuedEntries_ok h1
  rw [if_pos hret] at h2
  have hp' : (s.pop.coros h).place = .atIo r := hp
  simp only [State.resume, State.modReq, State.modEv, hp'] at h2
  cases h2
  simp [State.ioReturn, State.modReq, State.log]

/-- **A step lets an awaitable answer at most once.** -/
theorem answers_step (hreach : Reachable s) (hs : State.step s c = .ok s') (h : AnswersOnce s r) :
    AnswersOnce s' r := by
  have hl := Lasting.step hs
  cases step_hears hreach hs with
  | mute h1 => exact h.of_eq hl (by rw [answers, h1, answers])
  | answered _ h1 => exact h.of_eq hl (answers_cons h1)
  | refused hu ha herr hs' =>
    obtain ⟨-, -, h1⟩ := heard_refused hreach hs hu ha herr hs'
    refine h.of_eq hl ((answers_cons h1).trans ?_)
    simp [Event.isAnswerOf, IOResponse.unissued, answers]
  | @failed x a ret rest hst hc hret h1 =>
    have hp := place_of_ioSubmit hreach hst
    obtain ⟨hlive, -, -, hown⟩ := hreach.sound.records.atIo x a hp
    by_cases ha : a = r
    · subst ha
      obtain ⟨ret', rfl, h2⟩ := step_ioSubmit hst hs
      obtain rfl : ret' = ret := by simpa using hc
      refine h.of_answer hlive ((answers_cons h1).trans ?_) (live_ioSubmit_failed hp hret h2)
        ((hreach.sound.records.owned x a hown).1.trans_le hl.nextReq)
      simp [Event.isAnswerOf, answers]
    · refine h.of_eq hl ((answers_cons h1).trans ?_)
      simp [Event.isAnswerOf, answers, ha]
  | @delivers a x res d hsrc hd =>
    obtain ⟨e, he, htakes⟩ := hd.takes
    have hcount : s'.answers r = s.answers r + if e.isAnswerOf r then 1 else 0 := by
      rw [answers_cons he, List.countP_cons_of_neg (by simp [Event.isAnswerOf])]
      rfl
    cases htakes with
    | awaitable hp hh hdead =>
      obtain ⟨base, hpack⟩ := hd.pack
      rw [noErr hreach x a hp, awaitResume_published (type_of_responsePack hpack)] at hcount
      by_cases ha : a = r
      · subst ha
        refine h.of_answer hd.live (hcount.trans ?_) hdead ((hd.made hreach).trans_le hl.nextReq)
        simp only [Event.isAnswerOf, IOResponse.ofPack]
        split <;> simp
      · refine h.of_eq hl (hcount.trans ?_)
        simp [Event.isAnswerOf, ha]
    | batch => exact h.of_eq hl hcount
    | poll => exact h.of_eq hl hcount

theorem answersOnce (h : Reachable s) (r : ReqId) : AnswersOnce s r := by
  refine Reach.inv_of (I := fun s => AnswersOnce s r) (J := fun s => Reachable s) (fun s h => h) (fun s hi => ?_)
    (fun s c s' hreach ha _ hs => answers_step hreach hs ha) h
  have h0 : s.answers r = 0 := by
    have ht : s.trace = [] := by cases hi <;> rfl
    rw [answers, heard, ht]
    rfl
  exact ⟨h0.trans_le (Nat.zero_le 1), fun _ => h0⟩

end State

/-- **Everything that is heard of requests is explained**, in every run in which no completion comes for an
awaitable that is held after its `co_await` has returned: who awaits an operation, issues a batch or polls hears of
requests of their own only, with the response made of the parameters of the request and of the result it completed
with, unless an awaitable got no entry or its submission failed; and each delivery is taken at once, by one
coroutine.  In particular no `co_await` of an operation returns `SYSTEM_COMMUNICATION_CHANNEL_FAILURE`. -/
theorem heard_explained {s : State} (h : Reach State.OnTime s) : Explained s s.heard := State.explained h.reachable

/-- A coroutine awaits a read, which reads 8 bytes. -/
theorem heard_explained_read : ∃ s : State, s.heard = [.ioReturned 1 0 ⟨.noErr, .read ⟨⟨0, 3⟩, 8, 100⟩⟩,
    .resumed 0 1 8 (.read ⟨⟨0, 3⟩, 8, 100⟩)] ∧ Explained s s.heard := by
  have he : (exec State.step State.OnTime (init 4)
    [.user .call, .user (.startTask 0), .user (.awaitOp (.read ⟨3, 100, 8⟩)),
      .sub 1, .tau, .user .start, .message 0, .cqe 0 8 0]).map (fun s => decide (s.heard =
        [.ioReturned 1 0 ⟨.noErr, .read ⟨⟨0, 3⟩, 8, 100⟩⟩, .resumed 0 1 8 (.read ⟨⟨0, 3⟩, 8, 100⟩)])) = some true := by
          decide
  obtain ⟨s, hreach, hs⟩ := Reach.of_exec (.up 4) he
  exact ⟨s, of_decide_eq_true hs, heard_explained hreach⟩

end EvManager
