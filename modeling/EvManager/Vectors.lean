import EvManager.Batches
import EvManager.Sizes

/-!
# The vector of a batch

`submit_and_wait` keeps the records of its requests in the vector `req_data` of its
frame.  **`Reachable.vectors`**: while its body is under way they are exactly the records of which it is the
owner, one for each request.
-/

namespace EvManager

open Lib State

/-! ### Who is made in a step -/

theorem TaskStep.called {m m' : Tasks} {l : TaskLabel} (hs : TaskStep m l m') : m'.next = m.next ∨
    ∃ user, l = .call user := by
  have hstart : ∀ {m m' : Tasks} {t : TaskRef}, Started m t m' → m'.next = m.next := by
    intro m m' t h
    cases h <;> rfl
  have hend : ∀ {m' : Tasks} {h : CoroId} {out : Option ℕ}, Ended m h out m' → m'.next = m.next := by
    intro m' h out h1
    cases h1
    rfl
  cases hs with
  | call => exact .inr ⟨_, rfl⟩
  | start h | register h => exact .inl ((hstart h).trans rfl)
  | beginStart _ _ _ _ _ h => exact .inl ((hstart h).trans rfl)
  | finish _ _ h => exact .inl (hend h)
  | finishResume _ _ _ h =>
    have h1 := hend h
    exact .inl h1
  | _ => exact .inl rfl

/-- The body of a coroutine that is called. -/
def Act.body : Act → Option Body
  | .call => some .user
  | .submitAndWait q => some (.submitAndWait q {})
  | .poll => some (.poll .begin)
  | .kill => some (.kill none)
  | _ => none

namespace State

variable {s s' : State} {c : Choice} {x : CoroId}

/-- A coroutine is made where its function is called. -/
theorem step_born (hreach : Reachable s) (hs : State.step s c = .ok s') (hlt : s.nextCoro < s'.nextCoro) :
    ∃ a ctx b, c = .user a ∧ a.body = some b ∧ s' = s.call ctx b := by
  have hcall : ∀ (h : CoroId) (a : Act) (user : Bool), a.label = .call user ∨ a.labelIn h = .call user →
      ∃ b, a.body = some b := by
    intro h a user ha
    cases a <;> simp [Act.label, Act.labelIn, Act.body] at ha ⊢
  rcases (step_tasks hreach.sound hreach.killing hs).called with hn | ⟨user, hl⟩
  · exact absurd (show s'.nextCoro = s.nextCoro from hn) hlt.ne'
  · obtain ⟨a, b, rfl, hb⟩ : ∃ a b, c = .user a ∧ a.body = some b := by
      have hcase := s.label_case c
      generalize s.label c = l at hcase hl
      cases hcase with
      | main | handler =>
        obtain ⟨b, hb⟩ := hcall 0 _ _ (.inl hl)
        exact ⟨_, b, rfl, hb⟩
      | body =>
        obtain ⟨b, hb⟩ := hcall _ _ _ (.inr hl)
        exact ⟨_, b, rfl, hb⟩
      | _ => cases hl
    have hthrow : a ≠ .throw := by
      rintro rfl
      cases hb
    have hret : ∀ stop, a ≠ .handlerReturn stop := by
      rintro stop rfl
      cases hb
    rcases step_user hthrow hret hs with ⟨ctx, hu⟩ | ⟨h, hu⟩
    · refine ⟨a, ctx, b, rfl, hb, ?_⟩
      cases a <;> cases hb <;> cases hu <;> rfl
    · refine ⟨a, some h, b, rfl, hb, ?_⟩
      cases a <;> cases hb <;> cases hu <;> rfl

/-! ### The vector of a batch -/

theorem u32_lt (n : ℤ) : u32 n < 2 ^ 32 := by
  unfold u32
  omega

theorem setBody_body (x : CoroId) (b : Body) (s : State) : ((s.setBody x b).coros x).body = b := by
  simp [State.setBody, modCoro]

/-- The elements of a vector are made where its batch begins. -/
theorem vector_made (hreach : Reachable s) (hs : State.step s c = .ok s') {r : ReqId} (hr : s.nextReq ≤ r)
    (hr' : r < s'.nextReq) (hh : (s'.reqs r).home = .vector x) :
    ∃ q l rest, s.stack = .run x :: rest ∧ (s.coros x).body = .submitAndWait q l ∧ l.pc = .begin := by
  have hsame : s'.nextReq = s.nextReq → False := fun hn => absurd hr' (not_lt.mpr (hn ▸ hr))
  -- a single record that is made is of an awaitable or of the heap
  have hone : s'.nextReq = s.nextReq + 1 → (s'.reqs s.nextReq).home ≠ .vector x → False := by
    intro hn hne
    obtain rfl : r = s.nextReq := Nat.le_antisymm (Nat.lt_succ_iff.mp (hr'.trans_le hn.le)) hr
    exact hne hh
  cases step_effect hs with
  | @batch h rest q l ret _ hst hb hpc h1 =>
    have hx : (s'.reqs r).home = .vector h := by
      unfold State.submitAndWaitBegin at h1
      obtain ⟨s1, h2, h3⟩ := bind_ok.mp h1
      have hn1 : s1.nextReq = s.nextReq := (Settled.submit h2).nextReq
      split at h3
      · have h4 := Quiet.finish (by rw [(submitQueuedEntries_stack h2).1, hst]) h3
        exact (hsame (h4.nextReq.trans hn1)).elim
      · obtain ⟨s2, h4, h5⟩ := bind_ok.mp h3
        cases h5
        have hn2 : s2.nextReq = s1.nextReq + q.length := (Settled.processRequests h4).nextReq
        have hm : r ∈ List.range' s1.nextReq q.length := by
          rw [List.mem_range'_1, hn1]
          exact ⟨hr, hr'.trans_le (by rw [← hn1]; exact hn2.le)⟩
        exact ((processRequests_records h4).2 r).1.trans (congrArg Request.home (if_pos hm))
    obtain rfl : h = x := by simpa using hx.symm.trans hh
    exact ⟨q, l, rest, hst, hb, hpc⟩
  | quiet hq => exact (hsame hq.nextReq).elim
  | io h1 =>
    obtain ⟨hn, hh1, -⟩ := ledger_ioOp h1
    exact (hone hn (by rw [hh1]; simp)).elim
  | awaitIo _ h1 => exact (hsame (Settled.awaitIo h1).nextReq).elim
  | awaitOp _ h1 h2 =>
    obtain ⟨hn, hh1, -⟩ := ledger_ioOp h1
    have hh2 := (Lasting.awaitIo h2).home s.nextReq (by rw [hn]; exact Nat.lt_succ_self _)
    exact (hone ((Settled.awaitIo h2).nextReq.trans hn) (by rw [hh2, hh1]; simp)).elim
  | na h1 =>
    rcases naOp_ok h1 with ⟨-, -, rfl⟩ | ⟨-, j, ring, s2, -, -, ⟨-, -, rfl⟩ | ⟨-, -, rfl⟩⟩
    · exact (hsame rfl).elim
    · exact (hone rfl (by simp [naRequest, Request.allocated])).elim
    · exact (hone rfl (by simp [naRequest, Request.allocated])).elim
  | submit _ _ hq h1 hq' => exact (hsame (hq'.nextReq.trans ((Settled.submit h1).nextReq.trans hq.nextReq))).elim
  | rawSqe h1 => exact (hsame (Settled.getUringSqe h1).nextReq).elim
  | start | leave | dying => exact (hsame rfl).elim
  | message _ h1 => exact (hsame (Settled.awaitMessage h1).nextReq).elim
  | cqe _ h1 => exact (hsame (Settled.awaitCqe h1).nextReq).elim
  | seen _ h1 => exact (hsame (Settled.awaitSeen h1).nextReq).elim
  | handlerReturn _ h1 => exact (hsame ((eventHandlerReturn_ok h1).2.2.1.trans rfl)).elim
  | cancel _ _ h1 =>
    obtain ⟨ring, -, -, rfl⟩ := ioUringGetSqe_some h1
    exact (hsame rfl).elim
  | dead hst _ _ h1 => exact (hsame ((Quiet.finish (by exact hst) h1).nextReq.trans rfl)).elim
  | poll _ _ _ _ hq => exact (hsame hq.nextReq).elim
  | register _ h1 => exact (hsame ((Settled.registerCoroReturn h1).nextReq.trans rfl)).elim

theorem place_submit_finish (hreach : Reachable s) {rest : List Activation} (hst : s.stack = .run x :: rest)
    {n : ℤ} {s1 : State} (h1 : s.submitQueuedEntries n = .ok s1) {out : Option ℕ} (h2 : s1.finish x out = .ok s') :
    (s'.coros x).place = .final :=
  place_finish ((hreach.sound.coherent hst (by simp)).submit h1) ((submitQueuedEntries_stack h1).1.trans hst) h2

/-- A batch that waits has the body it waits with. -/
theorem awaits_body {s : State} {x : CoroId} {q q' : RequestQueue} {l l' : BatchLocals} {i : ℕ}
    (h : (((s.setBody x (.submitAndWait q { l with pc := .await i })).suspend x .atGeneric).coros x).body =
      .submitAndWait q' l') : { l with pc := .await i } = l' := by
  simp only [State.suspend, setPlace, pop, State.setBody, modCoro, Function.update_self, Body.submitAndWait.injEq] at h
  exact h.2

/-- What `req_data` and the other local variables of a batch of `x` are. -/
structure Vector (s : State) (x : CoroId) (q : RequestQueue) (l : BatchLocals) : Prop where
  begins : l.pc = .begin → l = {}
  mem : ∀ r, r ∈ l.reqData ↔ r < s.nextReq ∧ (s.reqs r).home = .vector x
  nodup : l.reqData.Nodup
  length : l.pc ≠ .begin → l.reqData.length = q.length
  small : l.numQueued < 2 ^ 32

namespace Vector

variable {q : RequestQueue} {l l' : BatchLocals}

theorem lt (hv : s.Vector x q l) {r : ReqId} (hr : r ∈ l.reqData) : r < s.nextReq := ((hv.mem r).mp hr).1

theorem keep (hv : s.Vector x q l) (hlast : Lasting s s')
    (hnew : ∀ r, s.nextReq ≤ r → r < s'.nextReq → (s'.reqs r).home ≠ .vector x) (hr : l'.reqData = l.reqData)
    (hb : l'.pc = .begin → l' = {}) (hl : l'.pc ≠ .begin → l.pc ≠ .begin) (hsmall : l'.numQueued < 2 ^ 32) :
    s'.Vector x q l' := by
  refine ⟨hb, fun r => ?_, hr ▸ hv.nodup, fun h => hr ▸ hv.length (hl h), hsmall⟩
  rw [hr, hv.mem]
  constructor
  · rintro ⟨hlt, hh⟩
    exact ⟨hlt.trans_le hlast.nextReq, (hlast.home r hlt).trans hh⟩
  · rintro ⟨hlt, hh⟩
    have hold : r < s.nextReq := by
      by_contra hge
      exact hnew r (not_lt.mp hge) hlt hh
    exact ⟨hold, (hlast.home r hold).symm.trans hh⟩

end Vector

/-- What the local variables of the batches under way are. -/
def Vectors (s : State) : Prop := ∀ x q l, (s.coros x).body = .submitAndWait q l → (s.coros x).place.unfinished = true →
  s.Vector x q l

theorem Vectors.init (hi : State.Initial s) : Vectors s := by
  intro x q l hb hu
  rw [hi.place] at hu
  split at hu
  · rename_i hx
    subst hx
    cases hi <;> cases hb
  · cases hu

theorem vector_begin (hreach : Reachable s) {q q' : RequestQueue} {l l' : BatchLocals} {ret : ℤ}
    {rest : List Activation} (hv : s.Vector x q l) (hst : s.stack = .run x :: rest) (hpc : l.pc = .begin)
    (hs : s.submitAndWaitBegin x q ret = .ok s')
    (hb : (s'.coros x).body = .submitAndWait q' l') (hu : (s'.coros x).place.unfinished = true) :
    s'.Vector x q' l' := by
  obtain ⟨s1, h1, ⟨-, h2⟩ | ⟨-, s2, h2, rfl⟩⟩ := submitAndWaitBegin_ok hs
  · rw [place_submit_finish hreach hst h1 h2] at hu
    cases hu
  · obtain ⟨rfl, rfl⟩ : q = q' ∧ _ = l' := by simpa [State.setBody, modCoro] using hb
    have hn1 : s1.nextReq = s.nextReq := (Settled.submit h1).nextReq
    have hn2 : s2.nextReq = s1.nextReq + q.length := (Settled.processRequests h2).nextReq
    have hreqs1 : s1.reqs = s.reqs := by
      obtain ⟨-, -, -, rfl⟩ := submitQueuedEntries_ok h1
      rfl
    refine ⟨fun h => (by cases h), fun r => ?_, List.nodup_range', fun _ => by simp, u32_lt s2.ev.ring.unpublished⟩
    have hhome : (s2.reqs r).home = if r ∈ List.range' s1.nextReq q.length then .vector x else (s.reqs r).home := by
      rw [((processRequests_records h2).2 r).1, ← hreqs1]
      exact apply_ite Request.home ..
    show r ∈ List.range' s1.nextReq q.length ↔ r < s2.nextReq ∧ (s2.reqs r).home = .vector x
    rw [hhome]
    constructor
    · intro hm
      exact ⟨by rw [hn2]; exact (List.mem_range'_1.mp hm).2, by rw [if_pos hm]⟩
    · rintro ⟨hlt, hh⟩
      by_contra hm
      rw [if_neg hm] at hh
      -- it would have been one before
      have hold : r < s.nextReq := by
        by_contra hge
        exact hm (List.mem_range'_1.mpr ⟨hn1 ▸ not_lt.mp hge, hn2 ▸ hlt⟩)
      have hempty := (hv.mem r).mpr ⟨hold, hh⟩
      rw [hv.begins hpc] at hempty
      cases hempty

theorem batch_body (hs : State.step s c = .ok s') (hx : x < s.nextCoro) {q : RequestQueue} {l' : BatchLocals}
    (hb : (s'.coros x).body = .submitAndWait q l') : ∃ l, (s.coros x).body = .submitAndWait q l := by
  have hk := ((Steady.step hs).kind x).resolve_right fun h => absurd hx (not_lt.mpr h.1)
  rw [hb] at hk
  cases hb0 : (s.coros x).body with
  | submitAndWait q0 l =>
    rw [hb0] at hk
    obtain rfl : q = q0 := by simpa [Body.kind] using hk
    exact ⟨l, rfl⟩
  | _ =>
    rw [hb0] at hk
    cases hk

theorem batch_born (hreach : Reachable s) (hs : State.step s c = .ok s') (hx : ¬ x < s.nextCoro) {q : RequestQueue}
    {l : BatchLocals} (hb : (s'.coros x).body = .submitAndWait q l) (hu : (s'.coros x).place.unfinished = true) :
    x = s.nextCoro ∧ l = {} ∧ s'.reqs = s.reqs ∧ s'.nextReq = s.nextReq := by
  have hlt : x < s'.nextCoro := by
    by_contra hge
    rw [(hreach.step hs).placed.fresh x (not_lt.mp hge)] at hu
    cases hu
  obtain ⟨a, ctx, b, -, ha, rfl⟩ := step_born hreach hs (lt_of_le_of_lt (not_lt.mp hx) hlt)
  obtain rfl : x = s.nextCoro := by
    have h1 : (s.call ctx b).nextCoro = s.nextCoro + 1 := by cases ctx <;> rfl
    rw [h1] at hlt
    exact Nat.le_antisymm (Nat.lt_succ_iff.mp hlt) (not_lt.mp hx)
  have hbody : b = .submitAndWait q l := by
    rw [← hb]
    cases ctx with
    | none => simp [State.call]
    | some h => by_cases hh : s.nextCoro = h <;> simp [State.call, modCoro, hh]
  refine ⟨rfl, ?_, by cases ctx <;> rfl, by cases ctx <;> rfl⟩
  subst hbody
  cases a <;> cases ha
  rfl

theorem Vectors.step (hv : Vectors s) (hreach : Reachable s) (hs : State.step s c = .ok s') : Vectors s' := by
  intro x q' l' hb' hu'
  have hlast := Lasting.step hs
  by_cases hx : x < s.nextCoro
  · obtain ⟨l, hb⟩ := batch_body hs hx hb'
    -- elements of its vector are made when it begins only
    have hnew : l.pc ≠ .begin → ∀ r, s.nextReq ≤ r → r < s'.nextReq → (s'.reqs r).home ≠ .vector x := by
      intro hpc r hr hr' hh
      obtain ⟨q1, l1, rest, -, hb1, hpc1⟩ := vector_made hreach hs hr hr' hh
      rw [hb] at hb1
      cases hb1
      exact hpc hpc1
    have hold : (s.coros x).place.unfinished = true → s.Vector x q' l := hv x q' l hb
    have hrun : ∀ {rest}, s.stack = .run x :: rest → s.Vector x q' l := fun hst =>
      hold (by rw [hreach.placed.place_of_top hst]; rfl)
    cases step_batch hreach hs hb hx with
    | rests hb1 hidle hp =>
      rw [hb1] at hb'
      cases hb'
      have hvec : s.Vector x q' l' := by
        rcases hp with hp | ⟨hp, -⟩
        · exact hold (hp ▸ hu')
        · exact hold (by rw [hp]; rfl)
      refine hvec.keep hlast (fun r hr hr' hh => ?_) rfl hvec.begins id hvec.small
      obtain ⟨q1, l1, rest, hst, hb1, hpc1⟩ := vector_made hreach hs hr hr' hh
      rw [hb] at hb1
      cases hb1
      obtain ⟨i, hi⟩ := hidle rest hst
      rw [hpc1] at hi
      cases hi
    | leaves _ hgone =>
      rw [hgone] at hu'
      cases hu'
    | begins hst _ hpc h1 => exact vector_begin hreach (hrun hst) hst hpc h1 hb' hu'
    | loops hst _ hpc h1 =>
      have hk : ∀ l1 : BatchLocals, (s'.coros x).body = .submitAndWait q' l1 → l1.reqData = l.reqData → l1.pc ≠ .begin →
          l1.numQueued < 2 ^ 32 → s'.Vector x q' l' := by
        intro l1 hb1 hr1 hpc1 hsmall
        rw [hb1] at hb'
        cases hb'
        exact (hrun hst).keep hlast (hnew (by simp [hpc])) hr1 (fun h => absurd h hpc1) (fun _ => by simp [hpc]) hsmall
      rcases submitAndWaitLoop_ok h1 with ⟨-, -, -, h2⟩ | ⟨-, -, rfl⟩ | ⟨n, s1, -, -, -, h2, ⟨-, h3⟩ | ⟨-, rfl⟩⟩
      · rw [place_finish (hreach.sound.coherent hst (by simp)) hst h2] at hu'
        cases hu'
      · refine hk { l with pc := .await 0 } ?_ rfl (by simp) (hrun hst).small
        simp [State.suspend, setPlace, pop, State.setBody, modCoro]
      · rw [place_submit_finish hreach hst h2 h3] at hu'
        cases hu'
      · exact hk _ (setBody_body ..) rfl (by simp [hpc]) (u32_lt _)
    | @next i stop rest hst _ hpc h1 =>
      subst h1
      obtain ⟨hr, hpc1, hnum⟩ : l'.reqData = l.reqData ∧ l'.pc ≠ .begin ∧ l'.numQueued = l.numQueued := by
        unfold State.submitAndWaitNext at hb'
        split at hb' <;>
          · simp only [State.suspend, setPlace, pop, State.setBody, modCoro, Function.update_self,
              Body.submitAndWait.injEq] at hb'
            obtain ⟨-, rfl⟩ := hb'
            exact ⟨rfl, by simp, rfl⟩
      exact (hrun hst).keep hlast (hnew (by simp [hpc])) hr (fun h => absurd h hpc1) (fun _ => by simp [hpc])
        (hnum ▸ (hrun hst).small)
    | throws hst _ _ h1 =>
      rw [place_finish (hreach.sound.coherent hst (by simp)) hst h1] at hu'
      cases hu'
    | hears hpc _ hd hb1 =>
      rw [hb1] at hb'
      cases hb'
      obtain ⟨e, -, ht⟩ := hd.takes
      have hvec : s.Vector x q' l := hold ?_
      · exact hvec.keep hlast (hnew (by simp [hpc])) rfl (fun h => (by cases h)) (fun _ => by simp [hpc]) hvec.small
      cases ht with
      | awaitable h1 => rw [h1]; rfl
      | batch h1 => rw [h1]; rfl
      | poll h1 => rw [h1]; rfl
  · -- it is made in this step
    obtain ⟨rfl, rfl, hreqs, hn⟩ := batch_born hreach hs hx hb' hu'
    refine ⟨fun _ => rfl, fun r => ⟨fun hm => (by cases hm), ?_⟩, List.nodup_nil, fun h => absurd rfl h, by simp⟩
    rw [hreqs, hn]
    rintro ⟨hr, hh⟩
    exact absurd (hreach.lives.vector r _ hr hh).1 (lt_irrefl _)

end State

theorem Reachable.vectors {s : State} (h : Reachable s) : s.Vectors := by
  refine Reach.inv_of (J := fun s => Reachable s) (fun s hs => hs) (fun s hi => .init hi) ?_ h
  exact fun s c s' hreach hv _ hs => hv.step hreach hs

end EvManager
