import EvManager.Accounts
import EvManager.ExactlyOnce
import EvManager.RecordFaults

/-!
# How long records live

The `co_await` of an awaitable returns once, and until then its coroutine is suspended there
(**`answered_once`**).  While a request is in the ring or parked its record is there, in three cases: nobody
awaits it and its submission was accepted; or the `co_await` of its awaitable has not returned; or its batch has
not ended.  **`ring_records`**: in these cases and no others, so they say when `event_handler` reads a record that
is gone.
-/

namespace EvManager

open Lib State

namespace State

variable {s s' u : State} {c : Choice} {r : ReqId} {x : CoroId}

/-! ### Awaitables that were awaited -/

/-- An awaitable that was awaited: its coroutine is suspended there, or it has answered, or the coroutine is gone. -/
def AwaitsOn (s : State) : Prop :=
  ∀ r x, r < s.nextReq → (s.reqs r).home = .awaitable (some x) → (s.reqs r).data.handle ≠ none →
    (s.coros x).place = .atIo r ∨ 0 < s.answers r ∨ x < s.nextCoro ∧ (s.coros x).place = .gone

theorem heard_suffix (hreach : Reachable s) (hs : State.step s c = .ok s') : s.heard <:+ s'.heard := by
  cases step_hears hreach hs with
  | mute h1 => exact h1 ▸ List.suffix_rfl
  | answered _ h1 | failed _ _ _ h1 => exact h1 ▸ List.suffix_cons _ _
  | refused hu ha herr hs' => exact (heard_refused hreach hs hu ha herr hs').2.2 ▸ List.suffix_cons _ _
  | delivers _ hd =>
    obtain ⟨e, he, -⟩ := hd.takes
    exact he ▸ (List.suffix_cons _ _).trans (List.suffix_cons _ _)

theorem answers_of_wakes (hreach : Reachable s) (hs : State.step s c = .ok s') (hp : (s.coros x).place = .atIo r)
    (hp' : (s'.coros x).place = .running) : 0 < s'.answers r := by
  have hdis : Dispatches s c s' → 0 < s'.answers r := by
    intro h1
    cases h1 with
    | idle hc =>
      rw [hc, hp] at hp'
      cases hp'
    | @delivers r' h res d hsrc hd =>
      obtain rfl : h = x := by
        by_contra hx
        rw [hd.others x (Ne.symm hx), hp] at hp'
        cases hp'
      obtain ⟨e, he, htakes⟩ := hd.takes
      rw [answers_cons he]
      cases htakes with
      | awaitable hat =>
        obtain rfl := Place.atIo.inj (hat.symm.trans hp)
        obtain ⟨base, hpack⟩ := hd.pack
        rw [noErr hreach h _ hp, awaitResume_published (type_of_responsePack hpack)]
        simp only [Event.isAnswerOf, IOResponse.ofPack]
        split <;> simp
      | batch hat | poll hat => cases hat.symm.trans hp
  rcases response_wakes hreach hs (by rw [hp]; rfl) hp' with ⟨rest, base, hst, rfl, h1⟩ |
    ⟨rest, i, res, base, hst, rfl, h1⟩ |
    ⟨r', rest, hst⟩
  · exact hdis (dispatches_awaitMessage hreach hst h1)
  · exact hdis (dispatches_awaitCqe hreach hst h1)
  · obtain rfl := Place.atIo.inj ((place_of_ioSubmit hreach hst).symm.trans hp)
    obtain ⟨ret, rfl, h2⟩ := step_ioSubmit hst hs
    by_cases hret : ret < 1
    · have h3 : s'.heard = .ioReturned x r' ⟨.errno .liburingSubmissionErrErrno (Errnos.cast (-ret)),
          .empty (s.reqs r').data.reqType⟩ :: s.heard := by
        rw [heard, ioSubmit_response hst hp hret hs]
        rfl
      rw [answers_cons h3]
      simp [Event.isAnswerOf]
    · -- a submission that succeeds resumes nobody
      unfold State.ioSubmit at h2
      obtain ⟨s1, h3, h4⟩ := bind_ok.mp h2
      rw [if_neg hret] at h4
      cases h4
      rw [(submitQueuedEntries_stack h3).2] at hp'
      cases hp.symm.trans hp'

/-- Nothing is made, and the records keep what they hold. -/
def KeepsData (s s' : State) : Prop := s'.nextReq = s.nextReq ∧ ∀ r, (s'.reqs r).data = (s.reqs r).data

theorem KeepsData.of_quiet (h : Quiet s s') : KeepsData s s' := ⟨h.nextReq, h.data⟩

theorem KeepsData.trans (h : KeepsData s u) (h' : KeepsData u s') : KeepsData s s' :=
  ⟨h'.1.trans h.1, fun r => (h'.2 r).trans (h.2 r)⟩

theorem KeepsData.getUringSqe {p : Purpose} {j : Option ℕ} (hs : s.getUringSqe p = .ok (j, s')) : KeepsData s s' := by
  rcases getUringSqe_ok hs with ⟨-, -, rfl⟩ | ⟨j, ring, -, -, -, -, rfl⟩ <;> exact ⟨rfl, fun _ => rfl⟩

theorem KeepsData.submit {ret : ℤ} (hs : s.submitQueuedEntries ret = .ok s') : KeepsData s s' := by
  obtain ⟨-, -, -, rfl⟩ := submitQueuedEntries_ok hs
  exact ⟨rfl, fun _ => rfl⟩

theorem KeepsData.eventHandler {res : ℤ} {y : Option ReqId} {base : Addr} (hs : s.eventHandler res y base = .ok s') :
    KeepsData s s' := by
  unfold State.eventHandler at hs
  split at hs
  · cases hs
    exact ⟨rfl, fun _ => rfl⟩
  · simp only at hs
    split at hs
    · split at hs
      · cases hs
        exact ⟨rfl, fun _ => rfl⟩
      · obtain ⟨d, -, h1⟩ := bind_ok.mp hs
        refine KeepsData.trans ?_ (.of_quiet (.resume h1))
        exact ⟨rfl, fun _ => rfl⟩
    · cases hs

theorem KeepsData.awaitCqe {i : ℕ} {res : ℤ} {base : Addr} (hs : s.awaitCqe i res base = .ok s') : KeepsData s s' := by
  unfold State.awaitCqe at hs
  split at hs
  · split at hs
    · refine KeepsData.trans ?_ (.eventHandler hs)
      split <;> exact ⟨rfl, fun _ => rfl⟩
    · cases hs
  · cases hs

theorem KeepsData.awaitSeen (hs : s.awaitSeen = .ok s') : KeepsData s s' := by
  unfold State.awaitSeen at hs
  split at hs
  · simp only at hs
    split at hs
    · refine KeepsData.trans ?_ (.of_quiet (.resume hs))
      exact ⟨rfl, fun _ => rfl⟩
    · cases hs
    · cases hs
      exact ⟨rfl, fun _ => rfl⟩
  · cases hs

theorem KeepsData.registerCoroReturn {v : VarId} {idx : ℕ} {grow : Bool}
    (hs : s.registerCoroReturn v idx grow = .ok s') :
    KeepsData s s' := by
  unfold State.registerCoroReturn at hs
  obtain ⟨s1, h1, h2⟩ := bind_ok.mp hs
  obtain ⟨e, -, h3⟩ := bind_ok.mp h2
  cases h3
  refine (KeepsData.of_quiet ((Quiet.makeRoom h1).trans (.relink e s1))).trans ?_
  unfold insertTask
  simp only
  split <;> exact ⟨rfl, fun _ => rfl⟩

theorem data_batch {h : CoroId} {rest : List Activation} {q : RequestQueue} {ret : ℤ} (hst : s.stack = .run h :: rest)
    (hs : s.submitAndWaitBegin h q ret = .ok s') (hlt : r < s'.nextReq) :
    r < s.nextReq ∧ (s'.reqs r).data = (s.reqs r).data ∨ (s'.reqs r).home = .vector h := by
  obtain ⟨s1, h1, ⟨-, h2⟩ | ⟨-, s2, h2, rfl⟩⟩ := submitAndWaitBegin_ok hs
  · have hkeep := (KeepsData.submit h1).trans (.of_quiet (.finish (by rw [(submitQueuedEntries_stack h1).1, hst]) h2))
    exact .inl ⟨hkeep.1 ▸ hlt, hkeep.2 r⟩
  · have hkeep := KeepsData.submit h1
    have hl : ∀ x ∈ q.zip (List.range' s1.nextReq q.length), s1.nextReq ≤ x.2 := fun x hx =>
      (List.mem_range'_1.mp (List.of_mem_zip hx).2).1
    by_cases hr : r < s1.nextReq
    · refine .inl ⟨hkeep.1 ▸ hr, ?_⟩
      have hold : r ∉ List.range' s1.nextReq q.length := fun hm => absurd (List.mem_range'_1.mp hm).1 (not_le.mpr hr)
      show (s2.reqs r).data = _
      rw [(Lasting.processRequests_reqs hl h2).2 r hr, ← hkeep.2 r]
      exact congrArg Request.data (if_neg hold)
    · have hlt' : r < s2.nextReq := hlt
      rw [(Lasting.processRequests_reqs hl h2).1] at hlt'
      refine .inr (((Acts.processRequests (X := fun _ => True) h2).home r hlt').trans ?_)
      exact congrArg Request.home (if_pos (List.mem_range'_1.mpr ⟨not_lt.mp hr, hlt'⟩))

theorem place_of_awaitIo {y : CoroId} (hs : u.awaitIo y r = .ok s') (hn : (u.reqs r).data.handle = none)
    (hhome : (s'.reqs r).home = .awaitable (some x)) (hh : (s'.reqs r).data.handle ≠ none) :
    (s'.coros x).place = .atIo r := by
  rcases awaitIo_ok hs with ⟨hawait, ⟨-, rfl⟩ | ⟨j, -, -, -, rfl⟩⟩
  · rw [(Quiet.ioReturn y r u).data] at hh
    exact absurd hn hh
  · have hown : (u.reqs r).home = .awaitable (some x) := by
      rw [← hhome]
      simp [push, suspend, setPlace, modCoro, pop, writeSqe, setRing, modEv, modReq]
    obtain rfl : y = x := by simpa using hawait.2.2.1.symm.trans hown
    simp [push, suspend, setPlace, modCoro, pop]

/-- Whichever awaitable has a handle had one before. -/
def Unarmed (s s' : State) : Prop :=
  ∀ r x, r < s'.nextReq → (s'.reqs r).home = .awaitable (some x) → (r < s.nextReq → (s.reqs r).data.handle = none) →
    (s'.reqs r).data.handle = none

theorem Unarmed.of_keeps (h : KeepsData s s') : s.Unarmed s' := fun r x hlt _ hn => by
  rw [h.2 r]
  exact hn (h.1 ▸ hlt)

theorem Unarmed.of_quiet (h : Quiet s s') : s.Unarmed s' := .of_keeps (.of_quiet h)

theorem Unarmed.ioOp {ctx : Option CoroId} {p : ParameterPack} {a : ReqId} (hs : s.ioOp ctx p = .ok (a, s')) :
    s.Unarmed s' := by
  intro r x hlt _ hn
  obtain ⟨-, rfl, sqe, s1, h1, rfl⟩ := ioOp_ok hs
  have hkeep := KeepsData.getUringSqe h1
  have hreqs : (((s1.newReq (.awaitable ctx p sqe)).2.ownReq ctx s.nextReq).reqs r) =
      Function.update s1.reqs s1.nextReq (.awaitable ctx p sqe) r := by
    cases ctx <;> rfl
  have hnext : ((s1.newReq (.awaitable ctx p sqe)).2.ownReq ctx s.nextReq).nextReq = s1.nextReq + 1 := by
    cases ctx <;> rfl
  rw [hnext, hkeep.1] at hlt
  rw [hreqs]
  by_cases hr : r = s1.nextReq
  · subst hr
    rw [Function.update_self]
    rfl
  · rw [Function.update_of_ne hr, hkeep.2 r]
    rw [hkeep.1] at hr
    exact hn (lt_of_le_of_ne (Nat.lt_succ_iff.mp hlt) hr)

theorem Unarmed.na {p : ParameterPack} {ret : ℤ} {e : Errnos} (hs : s.naOp p ret = .ok (e, s')) : s.Unarmed s' := by
  rcases naOp_ok hs with ⟨-, -, rfl⟩ | ⟨-, j, ring, s2, -, h2, hcase⟩
  · exact .of_keeps ⟨rfl, fun _ => rfl⟩
  intro r x hlt hhome hn
  have hkeep : KeepsData s s2 := KeepsData.trans (u := s.setRing ring) ⟨rfl, fun _ => rfl⟩ (.submit h2)
  by_cases hr : r = s.nextReq
  · -- the new record is of the heap
    rcases hcase with ⟨-, -, rfl⟩ | ⟨-, -, rfl⟩ <;> simp [hr, naRequest, Request.allocated] at hhome
  · have hr' : r < s.nextReq := by
      rcases hcase with ⟨-, -, rfl⟩ | ⟨-, -, rfl⟩ <;> exact lt_of_le_of_ne (Nat.lt_succ_iff.mp hlt) hr
    rcases hcase with ⟨-, -, rfl⟩ | ⟨-, -, rfl⟩ <;>
    · simp only [Function.update_of_ne hr, hkeep.2 r]
      exact hn hr'

/-- What is parked is of the heap. -/
theorem Unarmed.awaitMessage {base : Addr} (hreach : Reachable s) (hs : State.step s (.message base) = .ok s')
    (h1 : s.awaitMessage base = .ok s') : s.Unarmed s' := by
  unfold State.awaitMessage at h1
  simp only at h1
  split at h1
  · rename_i res a ready p hready _
    intro r x hlt hhome hn
    have hheap := (hreach.sound.records.ready (res, a) (by rw [hready]; exact List.mem_cons_self)).2
    have hkeep := KeepsData.eventHandler h1
    have hlt0 : r < s.nextReq := hkeep.1 ▸ hlt
    have hne : r ≠ a := by
      rintro rfl
      rw [(Lasting.step hs).home r hlt0, hheap] at hhome
      cases hhome
    rw [hkeep.2]
    simp only [modReq, Function.update_of_ne hne]
    exact hn hlt0
  · cases h1
    exact .of_keeps ⟨rfl, fun _ => rfl⟩

theorem Unarmed.eventHandlerReturn {a : ReqId} {y : CoroId} (hs : s.pop.eventHandlerReturn a y = .ok s') :
    s.Unarmed s' := by
  obtain ⟨-, -, hnext, -, -, -, hreqs⟩ := eventHandlerReturn_ok hs
  refine .of_keeps ⟨hnext, fun z => ?_⟩
  rcases hreqs with ⟨-, -, h2, -⟩ | ⟨-, h2, -⟩ <;> rw [h2]
  · by_cases hz : z = a
    · subst hz
      rw [Function.update_self]
      rfl
    · rw [Function.update_of_ne hz]
      rfl
  · rfl

/-- A step begins a `co_await` of an awaitable, or gives none a handle. -/
theorem awaits_or_unarmed (hreach : Reachable s) (hs : State.step s c = .ok s') :
    (∃ u y a, (u = s ∨ ∃ ctx p b, s.ioOp ctx p = .ok (b, u)) ∧ u.awaitIo y a = .ok s') ∨ s.Unarmed s' := by
  cases step_effect hs with
  | quiet hq => exact .inr (.of_quiet hq)
  | io h1 => exact .inr (.ioOp h1)
  | awaitIo _ h1 => exact .inl ⟨s, _, _, .inl rfl, h1⟩
  | awaitOp _ h1 h2 => exact .inl ⟨_, _, _, .inr ⟨_, _, _, h1⟩, h2⟩
  | na h1 => exact .inr (.na h1)
  | submit _ _ hq h1 hq' => exact .inr (.of_keeps (((KeepsData.of_quiet hq).trans (.submit h1)).trans (.of_quiet hq')))
  | rawSqe h1 => exact .inr (.of_keeps (.getUringSqe h1))
  | start | leave | dying => exact .inr (.of_keeps ⟨rfl, fun _ => rfl⟩)
  | message _ h1 => exact .inr (.awaitMessage hreach hs h1)
  | cqe _ h1 => exact .inr (.of_keeps (.awaitCqe h1))
  | seen _ h1 => exact .inr (.of_keeps (.awaitSeen h1))
  | handlerReturn _ h1 => exact .inr (.eventHandlerReturn h1)
  | cancel _ _ h1 =>
    obtain ⟨ring, -, -, rfl⟩ := ioUringGetSqe_some h1
    exact .inr (.of_keeps ⟨rfl, fun _ => rfl⟩)
  | @dead _ _ _ hst _ _ h1 =>
    have h0 : KeepsData s (s.modEv fun ev => { ev with managerLifeState := .dead, ringUp := false }) :=
      ⟨rfl, fun _ => rfl⟩
    exact .inr (.of_keeps (h0.trans (.of_quiet (.finish (by exact hst) h1))))
  | batch hst _ _ h1 =>
    refine .inr fun r x hlt hhome hn => ?_
    rcases data_batch hst h1 hlt with ⟨hr, h2⟩ | h2
    · rw [h2, hn hr]
    · cases h2.symm.trans hhome
  | poll _ _ _ _ hq => exact .inr (.of_keeps ((KeepsData.of_quiet hq).trans ⟨rfl, fun _ => rfl⟩))
  | register _ h1 =>
    have h0 : KeepsData s s.pop := ⟨rfl, fun _ => rfl⟩
    exact .inr (.of_keeps (h0.trans (.registerCoroReturn h1)))

/-- **A step that sets the handle of an awaitable** is its `co_await`. -/
theorem awaits_of_handle (hreach : Reachable s) (hs : State.step s c = .ok s') (hlt : r < s'.nextReq)
    (hn : r < s.nextReq → (s.reqs r).data.handle = none) (hhome : (s'.reqs r).home = .awaitable (some x))
    (hh : (s'.reqs r).data.handle ≠ none) :
    ∃ u y, (u = s ∨ ∃ ctx p a, s.ioOp ctx p = .ok (a, u)) ∧ u.awaitIo y r = .ok s' ∧ (u.reqs r).data.handle = none := by
  rcases awaits_or_unarmed hreach hs with ⟨u, y, a, hu, h1⟩ | h1
  · have hunarmed : s.Unarmed u := by
      rcases hu with rfl | ⟨ctx, p, b, h2⟩
      · exact .of_quiet (.refl _)
      · exact .ioOp h2
    rcases awaitIo_ok h1 with ⟨hawait, ⟨-, hs'⟩ | ⟨j, -, -, -, hs'⟩⟩
    · -- the awaitable was refused
      have hq := hs' ▸ Quiet.ioReturn y a u
      rw [hq.data] at hh
      exact absurd (hunarmed r x (hq.nextReq ▸ hlt) (hq.home r ▸ hhome) hn) hh
    · have hnext : s'.nextReq = u.nextReq := by rw [hs']; rfl
      have hhome' : (s'.reqs r).home = (u.reqs r).home := by
        rw [hs']
        by_cases hr : r = a <;> simp [push, suspend, setPlace, modCoro, pop, writeSqe, setRing, modEv, modReq, hr]
      have h2 := hunarmed r x (hnext ▸ hlt) (hhome' ▸ hhome) hn
      by_cases hr : r = a
      · exact ⟨u, y, hu, hr ▸ h1, h2⟩
      · rw [hs'] at hh
        exact absurd (by simpa [push, suspend, setPlace, modCoro, pop, writeSqe, setRing, modEv, modReq, hr] using h2)
          hh
  · exact absurd (h1 r x hlt hhome hn) hh

theorem place_of_awaited (hreach : Reachable s) (hs : State.step s c = .ok s') (hlt : r < s'.nextReq)
    (hn : r < s.nextReq → (s.reqs r).data.handle = none) (hhome : (s'.reqs r).home = .awaitable (some x))
    (hh : (s'.reqs r).data.handle ≠ none) : (s'.coros x).place = .atIo r := by
  obtain ⟨u, y, -, h1, h2⟩ := awaits_of_handle hreach hs hlt hn hhome hh
  exact place_of_awaitIo h1 h2 hhome hh

theorem subject_of_top (hreach : Reachable s) (hr : (s.coros x).place ≠ .running) (hf : (s.coros x).place ≠ .final)
    (a : Activation) (rest : List Activation) (hst : s.stack = a :: rest) : a.subject ≠ some x := by
  have hmem : a ∈ s.stack := by
    rw [hst]
    exact List.mem_cons_self
  intro ha
  cases a with
  | run y =>
    obtain rfl : y = x := by simpa [Activation.subject] using ha
    exact hr (hreach.placed.run y hmem)
  | finalSuspend y =>
    obtain rfl : y = x := by simpa [Activation.subject] using ha
    exact hf (hreach.placed.final y hmem)
  | _ => simp [Activation.subject] at ha

/-- **A coroutine stays at a `co_await`** until this answers, or the coroutine is destroyed. -/
theorem AwaitsOn.step (h : AwaitsOn s) (hreach : Reachable s) (hs : State.step s c = .ok s') : AwaitsOn s' := by
  intro r x hlt hhome hh
  have hl := Lasting.step hs
  have hmono := (Steady.step hs).nextCoro
  by_cases hold : r < s.nextReq ∧ (s.reqs r).data.handle ≠ none
  · obtain ⟨hlt0, hh0⟩ := hold
    rcases h r x hlt0 ((hl.home r hlt0).symm.trans hhome) hh0 with hp | hans | ⟨hx, hp⟩
    · have hx : x < s.nextCoro := by
        by_contra hn
        cases (hreach.placed.fresh x (not_lt.mp hn)).symm.trans hp
      rcases step_aside hreach hs hx (subject_of_top hreach (by simp [hp]) (by simp [hp])) with hst | ⟨-, hp' | hp'⟩
      · have hp' := hst.place
        rw [hp] at hp'
        exact .inl (Place.arm_eq_atIo.mp hp')
      · exact .inr (.inl (answers_of_wakes hreach hs hp hp'))
      · exact .inr (.inr ⟨hx.trans_le hmono, hp'⟩)
    · exact .inr (.inl (hans.trans_le (heard_suffix hreach hs).sublist.countP_le))
    · rcases step_aside hreach hs hx (subject_of_top hreach (by simp [hp]) (by simp [hp])) with hst | ⟨hsus, -⟩
      · have hp' := hst.place
        rw [hp] at hp'
        refine .inr (.inr ⟨hx.trans_le hmono, ?_⟩)
        cases hq : (s'.coros x).place <;> rw [hq] at hp' <;> first | rfl | cases hp'
      · rw [hp] at hsus
        cases hsus
  · refine .inl (place_of_awaited hreach hs hlt (fun hlt0 => ?_) hhome hh)
    by_contra hn
    exact hold ⟨hlt0, hn⟩

theorem awaitsOn (h : Reachable s) : AwaitsOn s := by
  refine Reach.inv_of (I := AwaitsOn) (J := fun s => Reachable s) (fun s h => h) (fun s hi r x hlt => ?_)
    (fun s c s' hreach ha _ hs => ha.step hreach hs) h
  have hn : s.nextReq = 0 := by cases hi <;> rfl
  exact absurd hlt (by simp [hn])

end State

/-- **An awaitable answers once.**  In every run in which no completion comes for an awaitable that is held after
its `co_await` has returned, an awaitable that was awaited answers at most once, with the failure of its submission
or with its completion; and its coroutine is suspended there while it has not answered, unless the coroutine was
destroyed, and no longer. -/
theorem answered_once {s : State} (h : Reach State.OnTime s) {r : ReqId} {x : CoroId} (hr : r < s.nextReq)
    (hhome : (s.reqs r).home = .awaitable (some x)) (hh : (s.reqs r).data.handle ≠ none) :
    s.answers r ≤ 1 ∧ ((s.coros x).place = .atIo r ↔ s.answers r = 0 ∧ (s.coros x).place ≠ .gone) := by
  have hreach := h.reachable
  have honce := State.answersOnce hreach r
  refine ⟨honce.1, fun hp => ?_, fun ⟨hans, hgone⟩ => ?_⟩
  · exact ⟨honce.2 (.inl (hreach.sound.records.atIo x r hp).1), by simp [hp]⟩
  · rcases State.awaitsOn hreach r x hr hhome hh with hp | hpos | ⟨-, hp⟩
    · exact hp
    · omega
    · exact absurd hp hgone

/-- A coroutine holds a read whose submission fails: it has answered, and the coroutine runs. -/
theorem answered_once_failed : ∃ s : State, s.answers 0 = 1 ∧ (s.reqs 0).held = true ∧ (s.coros 1).place ≠ .atIo 0 := by
  have he : (exec State.step State.OnTime (init 4) [.user .call, .user (.startTask 0), .user (.io (.read ⟨3, 100, 8⟩)),
      .user (.awaitIo 0), .sub (-11)]).map (fun s => decide (s.answers 0 = 1 ∧ (s.reqs 0).held = true ∧ 0 < s.nextReq ∧
        (s.reqs 0).home = .awaitable (some 1) ∧ (s.reqs 0).data.handle ≠ none)) = some true := by decide
  obtain ⟨s, hreach, hs⟩ := Reach.of_exec (.up 4) he
  obtain ⟨hans, hheld, hr, hhome, hh⟩ := of_decide_eq_true hs
  refine ⟨s, hans, hheld, fun hp => ?_⟩
  have h0 := ((answered_once hreach hr hhome hh).2.mp hp).1
  omega

namespace State

variable {s s' u : State} {c : Choice} {r : ReqId} {x : CoroId}

/-! ### Awaitables that are held -/

/-- Whichever awaitable is held now was held before, or its `co_await` has returned. -/
def HoldsOn (s s' : State) : Prop :=
  ∀ r, (s'.reqs r).held = true → (s.reqs r).held = true ∨ ∃ h resp, .ioReturned h r resp ∈ s'.trace

theorem HoldsOn.of_quiet (h : Quiet s s') : s.HoldsOn s' := h.held

/-- Only the coroutines move after `u`, up to which no awaitable comes to be held. -/
theorem HoldsOn.quiet (hq : Quiet u s') (h : ∀ r, (u.reqs r).held = true → (s.reqs r).held = true) : s.HoldsOn s' :=
  fun r hr => (hq.held r hr).imp_left (h r)

theorem HoldsOn.of_reqs (h : ∀ r, (s'.reqs r).held = true → (s.reqs r).held = true) : s.HoldsOn s' := .quiet (.refl _) h

theorem HoldsOn.getUringSqe {p : Purpose} {j : Option ℕ} (hs : s.getUringSqe p = .ok (j, s')) : s'.reqs = s.reqs := by
  rcases getUringSqe_ok hs with ⟨-, -, rfl⟩ | ⟨j, ring, -, -, -, -, rfl⟩ <;> rfl

theorem HoldsOn.ioOp {ctx : Option CoroId} {p : ParameterPack} {a : ReqId} (hs : s.ioOp ctx p = .ok (a, s')) (r : ReqId)
    (hr : (s'.reqs r).held = true) : (s.reqs r).held = true := by
  obtain ⟨-, rfl, sqe, s1, h1, rfl⟩ := ioOp_ok hs
  have hreqs : (((s1.newReq (.awaitable ctx p sqe)).2.ownReq ctx s.nextReq).reqs r) =
      Function.update s1.reqs s1.nextReq (.awaitable ctx p sqe) r := by
    cases ctx <;> rfl
  rw [hreqs, Function.update_apply, HoldsOn.getUringSqe h1] at hr
  split at hr
  · cases hr
  · exact hr

theorem HoldsOn.awaitIo {y : CoroId} {a : ReqId} (hu : ∀ r, (u.reqs r).held = true → (s.reqs r).held = true)
    (hs : u.awaitIo y a = .ok s') : s.HoldsOn s' := by
  obtain ⟨-, ⟨-, rfl⟩ | ⟨j, -, -, -, rfl⟩⟩ := awaitIo_ok hs
  · exact .quiet (.ioReturn y a u) hu
  · refine .of_reqs fun r hr => hu r ?_
    by_cases ha : r = a <;> simpa [push, suspend, setPlace, modCoro, pop, writeSqe, setRing, modEv, modReq, ha] using hr

theorem HoldsOn.na {p : ParameterPack} {ret : ℤ} {e : Errnos} (hs : s.naOp p ret = .ok (e, s')) : s.HoldsOn s' := by
  refine .of_reqs fun r hr => ?_
  rcases naOp_ok hs with ⟨-, -, rfl⟩ | ⟨-, j, ring, s2, -, h2, hcase⟩
  · exact hr
  · obtain ⟨-, -, -, rfl⟩ := submitQueuedEntries_ok h2
    rcases hcase with ⟨-, -, rfl⟩ | ⟨-, -, rfl⟩ <;>
    · simp only [Function.update_apply] at hr
      split at hr
      · cases hr
      · exact hr

theorem held_processRequests {h : CoroId} {l : List (ParameterPack × ReqId)} (r : ReqId) :
    ∀ {s s' : State}, s.processRequests h l = .ok s' → (s'.reqs r).held = (s.reqs r).held := by
  induction l with
  | nil =>
    intro s s' hs
    cases hs
    rfl
  | cons y l ih =>
    intro s s' hs
    obtain ⟨req, a⟩ := y
    obtain ⟨⟨b, s1⟩, h1, h2⟩ := bind_ok.mp hs
    rw [ih h2]
    rcases processSingleGenericRequest_ok h1 with ⟨-, -, rfl⟩ | ⟨-, -, -, j, ring, -, rfl⟩
    · rfl
    · by_cases hr : r = a <;> simp [modReq, setRing, modEv, hr]

theorem HoldsOn.batch {h : CoroId} {rest : List Activation} {q : RequestQueue} {ret : ℤ}
    (hst : s.stack = .run h :: rest) (hs : s.submitAndWaitBegin h q ret = .ok s') : s.HoldsOn s' := by
  obtain ⟨s1, h1, ⟨-, h2⟩ | ⟨-, s2, h2, rfl⟩⟩ := submitAndWaitBegin_ok hs
  · obtain ⟨-, -, -, rfl⟩ := submitQueuedEntries_ok h1
    exact .quiet (.finish (by exact hst) h2) fun _ hr => hr
  · refine .of_reqs fun r hr => ?_
    obtain ⟨-, -, -, rfl⟩ := submitQueuedEntries_ok h1
    have hr' : (s2.reqs r).held = true := hr
    rw [held_processRequests r h2] at hr'
    simp only [newVector] at hr'
    split at hr'
    · cases hr'
    · exact hr'

theorem HoldsOn.eventHandler {res : ℤ} {y : Option ReqId} {base : Addr}
    (hu : ∀ r, (u.reqs r).held = true → (s.reqs r).held = true) (hs : u.eventHandler res y base = .ok s') :
    s.HoldsOn s' := by
  unfold State.eventHandler at hs
  split at hs
  · cases hs
    exact .of_reqs hu
  · simp only at hs
    split at hs
    · split at hs
      · cases hs
        exact .of_reqs hu
      · obtain ⟨d, -, h1⟩ := bind_ok.mp hs
        exact .quiet (.resume h1) hu
    · cases hs

theorem HoldsOn.registerCoroReturn {v : VarId} {idx : ℕ} {grow : Bool}
    (hs : s.pop.registerCoroReturn v idx grow = .ok s') :
    s.HoldsOn s' := by
  unfold State.registerCoroReturn at hs
  obtain ⟨s1, h1, h2⟩ := bind_ok.mp hs
  obtain ⟨e, -, h3⟩ := bind_ok.mp h2
  cases h3
  have hq : Quiet s.pop (s1.relink e) := (Quiet.makeRoom h1).trans (.relink e s1)
  have hsame : (s1.insertTask idx e).reqs = (s1.relink e).reqs ∧ (s1.insertTask idx e).trace = (s1.relink e).trace := by
    unfold insertTask
    simp only
    split <;> exact ⟨rfl, rfl⟩
  intro r hr
  have hr' : ((s1.insertTask idx e).reqs r).held = true := hr
  rw [hsame.1] at hr'
  show _ ∨ ∃ h resp, .ioReturned h r resp ∈ (s1.insertTask idx e).trace
  rw [hsame.2]
  exact hq.held r hr'

theorem HoldsOn.step (hs : State.step s c = .ok s') : s.HoldsOn s' := by
  cases step_effect hs with
  | quiet hq => exact .of_quiet hq
  | io h1 => exact .of_reqs (HoldsOn.ioOp h1)
  | awaitIo _ h1 => exact .awaitIo (fun _ hr => hr) h1
  | awaitOp _ h1 h2 => exact .awaitIo (HoldsOn.ioOp h1) h2
  | na h1 => exact .na h1
  | submit _ _ hq h1 hq' =>
    intro r hr
    obtain ⟨-, -, -, rfl⟩ := submitQueuedEntries_ok h1
    rcases hq'.held r hr with hr | hret
    · rcases hq.held r hr with hr | ⟨h, resp, hm⟩
      · exact .inl hr
      · exact .inr ⟨h, resp, by obtain ⟨es, he, -⟩ := hq'.trace; rw [he]; exact List.mem_append_right es hm⟩
    · exact .inr hret
  | rawSqe h1 => exact .of_reqs fun r hr => by rwa [HoldsOn.getUringSqe h1] at hr
  | start | leave | dying => exact .of_reqs fun _ hr => hr
  | message _ h1 =>
    unfold State.awaitMessage at h1
    simp only at h1
    split at h1
    · rename_i res a ready p _ _
      refine HoldsOn.eventHandler (fun r hr => ?_) h1
      by_cases ha : r = a <;> simpa [modReq, modEv, push, ha] using hr
    · cases h1
      exact .of_reqs fun _ hr => hr
  | cqe _ h1 =>
    unfold State.awaitCqe at h1
    split at h1
    · split at h1
      · refine HoldsOn.eventHandler (fun r hr => ?_) h1
        split at hr <;> exact hr
      · cases h1
    · cases h1
  | seen _ h1 =>
    unfold State.awaitSeen at h1
    split at h1
    · simp only at h1
      split at h1
      · exact .quiet (.resume h1) fun _ hr => hr
      · cases h1
      · cases h1
        exact .of_reqs fun _ hr => hr
    · cases h1
  | @handlerReturn a _ _ _ _ h1 =>
    obtain ⟨-, -, -, -, -, -, ⟨-, -, h2, -⟩ | ⟨-, h2, -⟩⟩ := eventHandlerReturn_ok h1
    · refine .of_reqs fun r hr => ?_
      rw [h2, Function.update_apply] at hr
      split at hr <;> simp_all [pop]
    · exact .of_reqs fun r hr => by rwa [h2] at hr
  | cancel _ _ h1 =>
    obtain ⟨ring, -, -, rfl⟩ := ioUringGetSqe_some h1
    exact .of_reqs fun _ hr => hr
  | @dead _ _ _ hst _ _ h1 => exact .quiet (.finish (by exact hst) h1) fun _ hr => hr
  | batch hst _ _ h1 => exact .batch hst h1
  | poll _ _ _ _ hq => exact fun r hr => hq.held r hr
  | register _ h1 => exact .registerCoroReturn h1

theorem Explained.home {es : List Event} {resp : IOResponse} (h : Explained s es) (hm : .ioReturned x r resp ∈ es) :
    (s.reqs r).home = .awaitable (some x) := by
  induction h with
  | nil => cases hm
  | task _ ih => exact ih (List.mem_of_ne_of_mem (by simp) hm)
  | refused _ _ hhome ih | failed _ _ hhome _ ih =>
    rcases List.mem_cons.mp hm with heq | hm
    · cases heq
      exact hhome
    · exact ih hm
  | awaitable _ _ hhome ih =>
    rcases List.mem_cons.mp hm with heq | hm
    · cases heq
      exact hhome
    · exact ih (List.mem_of_ne_of_mem (by simp) hm)
  | batch _ _ _ ih | poll _ _ _ _ _ ih =>
    exact ih (List.mem_of_ne_of_mem (by simp) (List.mem_of_ne_of_mem (by simp) hm))

/-- An awaitable is held on after its `co_await` has returned, so it belongs to a coroutine. -/
theorem home_of_held (h : Reachable s) (hr : (s.reqs r).held = true) : ∃ x, (s.reqs r).home = .awaitable (some x) := by
  obtain ⟨x, resp, hm⟩ : ∃ x resp, .ioReturned x r resp ∈ s.trace := by
    refine h.inv_of (I := fun s => (s.reqs r).held = true → ∃ x resp, .ioReturned x r resp ∈ s.trace)
      (J := fun s => Reachable s)
      (fun s hs => hs) (fun s hi hr => ?_) (fun s c s' hreach ih _ hs hr => ?_) hr
    · rw [hi.reqs] at hr
      cases hr
    · rcases HoldsOn.step hs r hr with hr | hret
      · obtain ⟨x, resp, hm⟩ := ih hr
        exact ⟨x, resp, step_mem hs hm⟩
      · exact hret
  exact ⟨x, (explained h).home (List.mem_filter.mpr ⟨hm, rfl⟩)⟩

/-! ### When a record is there -/

/-- The `co_await` of the awaitable `r` has returned with the failure of its submission. -/
def SubmitFailed (s : State) (r : ReqId) : Prop :=
  ∃ x rt n, .ioReturned x r (.unissued rt (.errno .liburingSubmissionErrErrno n)) ∈ s.trace

/-- The record of a request that is in the ring or parked is there: the request is awaited and its submission has
not failed, or its variable holds it; or its batch has not ended; or it was accepted. -/
def Lasts (s : State) (r : ReqId) : Prop :=
  match (s.reqs r).home with
  | .awaitable a => ¬ s.SubmitFailed r ∧ (∃ x ∈ a, (s.coros x).place ≠ .gone) ∨ (s.reqs r).held = true
  | .vector x => (s.coros x).place.unfinished = true
  | .heap => .accepted r ∈ s.trace

/-- An awaitable answers with the failure of its submission, or because it was delivered. -/
theorem Explained.answer {es : List Event} (h : Explained s es) : ∀ e ∈ es, e.isAnswerOf r = true →
    (∃ x rt n, .ioReturned x r (.unissued rt (.errno .liburingSubmissionErrErrno n)) ∈ es) ∨
    ∃ x res d, .resumed r x res d ∈ es := by
  have hcons : ∀ {es : List Event} {a : Event},
      ((∃ x rt n, .ioReturned x r (.unissued rt (.errno .liburingSubmissionErrErrno n)) ∈ es) ∨
        ∃ x res d, .resumed r x res d ∈ es) →
      (∃ x rt n, .ioReturned x r (.unissued rt (.errno .liburingSubmissionErrErrno n)) ∈ a :: es) ∨
        ∃ x res d, .resumed r x res d ∈ a :: es := by
    rintro es a (⟨x, rt, n, hm⟩ | ⟨x, res, d, hm⟩)
    · exact .inl ⟨x, rt, n, List.mem_cons_of_mem _ hm⟩
    · exact .inr ⟨x, res, d, List.mem_cons_of_mem _ hm⟩
  induction h with
  | nil =>
    intro e he
    cases he
  | task _ ih =>
    intro e he hr
    rcases List.mem_cons.mp he with rfl | he
    · cases hr
    · exact hcons (ih e he hr)
  | refused _ _ _ ih =>
    intro e he hr
    rcases List.mem_cons.mp he with rfl | he
    · simp [Event.isAnswerOf, IOResponse.unissued] at hr
    · exact hcons (ih e he hr)
  | @failed es x a ret _ _ _ _ ih =>
    intro e he hr
    rcases List.mem_cons.mp he with rfl | he
    · obtain rfl : a = r := by simpa [Event.isAnswerOf, IOResponse.unissued] using hr
      exact .inl ⟨x, _, _, List.mem_cons_self⟩
    · exact hcons (ih e he hr)
  | @awaitable es x a res d _ _ _ ih =>
    intro e he hr
    rcases List.mem_cons.mp he with rfl | he
    · obtain rfl : a = r := by
        simp only [Event.isAnswerOf, decide_eq_true_eq] at hr
        exact hr.1
      exact .inr ⟨x, res, d, List.mem_cons_of_mem _ List.mem_cons_self⟩
    · rcases List.mem_cons.mp he with rfl | he
      · cases hr
      · exact hcons (hcons (ih e he hr))
  | batch _ _ _ ih | poll _ _ _ _ _ ih =>
    intro e he hr
    rcases List.mem_cons.mp he with rfl | he
    · cases hr
    · rcases List.mem_cons.mp he with rfl | he
      · cases hr
      · exact hcons (hcons (ih e he hr))

theorem not_resumed (h : Reach Careful s) (hr : r ∈ s.issued ∨ r ∈ s.parked.map Prod.fst) (x : CoroId) (res : ℤ)
    (d : ResponsePack) :
    .resumed r x res d ∉ s.trace := by
  intro hm
  have hle := places_le_one h r
  have hdel : 0 < s.deliveries.countP (·.1 = r) :=
    List.countP_pos_iff.mpr ⟨(r, res), List.mem_filterMap.mpr ⟨_, hm, rfl⟩, by simp⟩
  have hin : 0 < s.issued.count r + s.parked.countP (·.1 = r) := by
    rcases hr with hr | hr
    · have h1 := List.count_pos_iff.mpr hr
      omega
    · obtain ⟨y, hy, rfl⟩ := List.mem_map.mp hr
      have h1 : 0 < s.parked.countP (·.1 = y.1) := List.countP_pos_iff.mpr ⟨y, hy, by simp⟩
      omega
  unfold places at hle
  omega

theorem lt_nextReq (h : Reachable s) (hr : r ∈ s.issued ∨ r ∈ s.parked.map Prod.fst) : r < s.nextReq := by
  rcases hr with hr | hr
  · exact (ordered_of_reachable h).2 r hr
  · obtain ⟨y, hy, rfl⟩ := List.mem_map.mp hr
    obtain ⟨z, hz, rfl⟩ := List.mem_map.mp hy
    exact (h.sound.records.ready z hz).1

/-- A record that is handed over is that of a request in the ring, or parked. -/
theorem mem_of_handed (h : Reach Careful s) (hc : s.Careful c) (hr : s.handed c = some r) :
    r ∈ s.issued ∨ r ∈ s.parked.map Prod.fst := by
  unfold handed at hr
  split at hr
  · rename_i i _ _ hst
    split at hr
    · obtain ⟨x, hx, hu⟩ := Option.bind_eq_some_iff.mp hr
      have hf := (h.mono fun _ _ hc => hc.1).prepared.inFlight x (List.mem_of_getElem? hx)
      rw [record_of_faithful hf (hc.2 i rfl x hx)] at hu
      refine .inl (List.mem_filterMap.mpr ⟨x.purpose, List.mem_append_left _ ?_, hu⟩)
      exact List.mem_map.mpr ⟨x, List.mem_of_getElem? hx, rfl⟩
    · cases hr
  · split at hr
    · obtain ⟨y, hy, rfl⟩ := Option.map_eq_some_iff.mp hr
      refine .inr (List.mem_map.mpr ⟨y.swap, List.mem_map.mpr ⟨y, List.mem_of_mem_head? hy, rfl⟩, rfl⟩)
    · cases hr
  · cases hr

/-- Whom a record that is handed over is for: a poller, or the coroutine whose handle it has. -/
theorem handle_of_handed (h : Reachable s) (hr : s.handed c = some r) : (s.reqs r).home = .heap ∨
    (s.reqs r).data.handle ≠ none := by
  unfold handed at hr
  split at hr
  · split at hr
    · obtain ⟨x, hx, hu⟩ := Option.bind_eq_some_iff.mp hr
      exact (h.sound.records.entry r ⟨x, .inr (List.mem_of_getElem? hx), hu⟩).2
    · cases hr
  · split at hr
    · obtain ⟨y, hy, rfl⟩ := Option.map_eq_some_iff.mp hr
      exact .inl (h.sound.records.ready y (List.mem_of_mem_head? hy)).2
    · cases hr
  · cases hr

/-- While the record of an awaitable is there its coroutine waits for it. -/
theorem waits_of_live (h : Reachable s) (hhome : (s.reqs r).home = .awaitable (some x))
    (hh : (s.reqs r).data.handle ≠ none) (hl : (s.reqs r).live = true) : (s.coros x).place = .atIo r := by
  obtain ⟨y, hy⟩ := Option.ne_none_iff_exists'.mp hh
  have hserves := h.sound.records.serves r y hl hy
  unfold State.Serves at hserves
  rw [hhome] at hserves
  obtain ⟨hxy, hp⟩ := hserves
  exact Option.some.inj hxy ▸ hp

/-- **The record of an awaitable** is there unless its submission failed or its coroutine was destroyed. -/
theorem live_awaitable (h : Reach Careful s) (hr : r ∈ s.issued ∨ r ∈ s.parked.map Prod.fst)
    (hhome : (s.reqs r).home = .awaitable (some x))
    (hh : (s.reqs r).data.handle ≠ none) : (s.reqs r).live = true ↔ ¬ s.SubmitFailed r ∧ (s.coros x).place ≠ .gone := by
  have hreach := h.reachable
  constructor
  · intro hl
    refine ⟨?_, by simp [waits_of_live hreach hhome hh hl]⟩
    rintro ⟨y, rt, n, hm⟩
    have h0 := (answersOnce hreach r).2 (.inl hl)
    have hpos : 0 < s.answers r :=
      List.countP_pos_iff.mpr ⟨_, List.mem_filter.mpr ⟨hm, rfl⟩, by simp [Event.isAnswerOf, IOResponse.unissued]⟩
    omega
  · rintro ⟨hok, hgone⟩
    rcases awaitsOn hreach r x (lt_nextReq hreach hr) hhome hh with hp | hans | ⟨-, hp⟩
    · exact (hreach.sound.records.atIo x r hp).1
    · obtain ⟨e, he, ha⟩ := List.countP_pos_iff.mp hans
      rcases (explained hreach).answer e he ha with ⟨y, rt, n, hm⟩ | ⟨y, res, d, hm⟩
      · exact absurd ⟨y, rt, n, (List.mem_filter.mp hm).1⟩ hok
      · exact absurd (List.mem_filter.mp hm).1 (not_resumed h hr y res d)
    · exact absurd hp hgone

end State

/-- **How long records live.**  In a run in which the kernel takes written entries only and the entries that the
user fills complete with null `user_data`, the record of a request that is in the ring with its entry written, or
parked, is there if and only if its submission has not failed and its coroutine was not destroyed, or it is held
after its `co_await` has returned; or its batch has not ended; or it was accepted.  So these say when
`event_handler`, before it resumes, reads a record that is gone. -/
theorem ring_records {s : State} (h : Reach State.Careful s) (r : ReqId) :
    (r ∈ s.issued ∨ r ∈ s.parked.map Prod.fst → (s.reqs r).home = .heap ∨ (s.reqs r).data.handle ≠ none →
      ((s.reqs r).there = true ↔ s.Lasts r)) ∧
    ∀ c, s.Careful c → s.handed c = some r → (State.step s c = .error (.undefined .deadRequest) ↔ ¬ s.Lasts r) := by
  have hreach := h.reachable
  have hthere : r ∈ s.issued ∨ r ∈ s.parked.map Prod.fst → (s.reqs r).home = .heap ∨ (s.reqs r).data.handle ≠ none →
      ((s.reqs r).there = true ↔ s.Lasts r) := by
    intro hr hw
    have hheld : (∀ a, (s.reqs r).home ≠ .awaitable a) → (s.reqs r).there = (s.reqs r).live := fun hne => by
      have hno : (s.reqs r).held = false := by
        by_contra hheld
        obtain ⟨x, hx⟩ := State.home_of_held hreach (by simpa using hheld)
        exact hne _ hx
      simp [Request.there, hno]
    unfold State.Lasts
    cases hhome : (s.reqs r).home with
    | awaitable a =>
      have hh := hw.resolve_left (by simp [hhome])
      obtain ⟨x, hx⟩ := Option.ne_none_iff_exists'.mp hh
      have hname := hreach.handles r x hx
      unfold State.Names at hname
      rw [hhome] at hname
      obtain rfl : a = some x := hname
      simpa [Request.there] using or_congr_left (State.live_awaitable h hr hhome hh)
    | vector x =>
      simp only
      rw [hheld (by simp [hhome]), (hreach.lives.vector r x (State.lt_nextReq hreach hr) hhome).2.2]
    | heap =>
      simp only
      rw [hheld (by simp [hhome]), hreach.dealt.heap r (State.lt_nextReq hreach hr) hhome]
      exact and_iff_left fun x res d hm => absurd hm (State.not_resumed h hr x res d)
  refine ⟨hthere, fun c hc hr => ?_⟩
  rw [← hthere (State.mem_of_handed h hc hr) (State.handle_of_handed hreach hr), Bool.not_eq_true]
  refine ⟨fun hs => ?_, State.fault_of_handed hr⟩
  obtain ⟨-, r', hr', hl⟩ := State.fault_of_record hreach rfl hs
  obtain rfl := Option.some.inj (hr.symm.trans hr')
  exact hl

/-- The submission of a read fails, and the next submit takes its entry. -/
theorem ring_records_failed : ∃ s : State, s.handed (.cqe 0 0 0) = some 0 ∧ ¬ s.Lasts 0 ∧ (s.reqs 0).there = false ∧
    State.step s (.cqe 0 0 0) = .error (.undefined .deadRequest) := by
  have he : (exec State.step State.Careful (init 4)
    [.user .call, .user (.startTask 0), .user (.awaitOp (.read ⟨3, 100, 8⟩)), .sub (-11),
      .user (.submitQueuedEntries 1), .user (.coReturn 0), .tau, .tau, .user .start, .message 0]).map (fun s =>
        decide (s.handed (.cqe 0 0 0) = some 0 ∧ s.Careful (.cqe 0 0 0) ∧ 0 ∈ s.issued ∧
          (s.reqs 0).home = .awaitable (some 1) ∧
          (s.reqs 0).held = false ∧ (s.reqs 0).data.handle ≠ none ∧
          .ioReturned 1 0 (.unissued .read (.errno .liburingSubmissionErrErrno (Errnos.cast 11))) ∈ s.trace)) =
          some true := by decide
  obtain ⟨s, hreach, hs⟩ := Reach.of_exec (.up 4) he
  obtain ⟨hr, hc, hiss, hhome, hheld, hh, hm⟩ := of_decide_eq_true hs
  obtain ⟨hthere, hfault⟩ := ring_records hreach 0
  have hnot : ¬ s.Lasts 0 := by
    unfold State.Lasts
    rw [hhome]
    rintro (h | h)
    · exact h.1 ⟨1, _, _, hm⟩
    · exact absurd h (by simp [hheld])
  refine ⟨s, hr, hnot, ?_, (hfault _ hc hr).mpr hnot⟩
  rw [← Bool.not_eq_true, hthere (.inl hiss) (.inr hh)]
  exact hnot

end EvManager
