import EvManager.Records

/-!
# Records while requests are issued and dispatched

`Records` over the operations that make records, hand them to the ring, take completions from it and answer
them.
-/

namespace EvManager

open Lib State ErrorProcessing

namespace Records

variable {s s' : State}

/-! ### New records -/

/-- Records without a handle are made, and become objects of frames. -/
theorem grow (hr : Records s) (hnr : s.nextReq ≤ s'.nextReq) (hnc : s'.nextCoro = s.nextCoro)
    (hring : s'.ev.ring = s.ev.ring) (hready : s'.ev.readyRequestsStore = s.ev.readyRequestsStore)
    (hpoll : s'.ev.pollingHandle = s.ev.pollingHandle)
    (hold : ∀ r, r < s.nextReq ∨ s'.nextReq ≤ r → s'.reqs r = s.reqs r)
    (hnew : ∀ r, s.nextReq ≤ r → r < s'.nextReq → (s'.reqs r).data.handle = none ∧
      ((s'.reqs r).data.allocatedDynamic = true → (s'.reqs r).home = .heap))
    (hplace : ∀ h, (s'.coros h).place = (s.coros h).place) (hbody : ∀ h, (s'.coros h).body = (s.coros h).body)
    (hlist : ∀ h r, r ∈ (s.coros h).reqs → r ∈ (s'.coros h).reqs)
    (hlist' : ∀ h r, r ∈ (s'.coros h).reqs → r ∈ (s.coros h).reqs ∨ s.nextReq ≤ r ∧ r < s'.nextReq ∧
      ((s'.reqs r).home = .awaitable (some h) ∨ (s'.reqs r).home = .vector h)) : Records s' := by
  -- a record that lives, or is at a place, was there before
  have hlt : ∀ r, (s.reqs r).live = true → r < s.nextReq := by
    intro r hl
    by_contra hle
    rw [hr.fresh r (not_lt.mp hle)] at hl
    cases hl
  refine ⟨fun h => ?_, fun r hle => ?_, fun h r hm => ?_, fun h r hp => ?_, fun r h hl hh => ?_, fun p hp => ?_,
    fun r he => ?_, fun x hx => ?_, fun r hd => ?_⟩
  · rw [hplace, hbody]
    exact hr.fits h
  · rw [hold r (.inr hle)]
    exact hr.fresh r (hnr.trans hle)
  · rcases hlist' h r hm with hm | ⟨-, hlt', hhome⟩
    · obtain ⟨hlt', hhome⟩ := hr.owned h r hm
      rw [hold r (.inl hlt')]
      exact ⟨lt_of_lt_of_le hlt' hnr, hhome⟩
    · exact ⟨hlt', hhome⟩
  · obtain ⟨hl, hhome, hh, hm⟩ := hr.atIo h r (hplace h ▸ hp)
    rw [hold r (.inl (hlt r hl))]
    exact ⟨hl, hhome, hh, hlist h r hm⟩
  · have hold' : s'.reqs r = s.reqs r := by
      by_cases hc : r < s.nextReq ∨ s'.nextReq ≤ r
      · exact hold r hc
      · push Not at hc
        rw [(hnew r hc.1 hc.2).1] at hh
        cases hh
    rw [hold'] at hl hh
    have hserves := hr.serves r h hl hh
    unfold State.Serves at hserves ⊢
    rw [hold', hnc, hplace, hbody]
    exact hserves
  · rw [hnc, hplace, hbody]
    exact hr.polling p (hpoll ▸ hp)
  · have he' : s.HasEntry r := by
      unfold State.HasEntry at he ⊢
      rwa [hring] at he
    obtain ⟨hlt', hd⟩ := hr.entry r he'
    rw [hold r (.inl hlt')]
    exact ⟨lt_of_lt_of_le hlt' hnr, hd⟩
  · obtain ⟨hlt', hhome⟩ := hr.ready x (hready ▸ hx)
    rw [hold x.2 (.inl hlt')]
    exact ⟨lt_of_lt_of_le hlt' hnr, hhome⟩
  · by_cases hc : r < s.nextReq ∨ s'.nextReq ≤ r
    · rw [hold r hc] at hd ⊢
      exact hr.dynamic r hd
    · push Not at hc
      exact (hnew r hc.1 hc.2).2 hd

/-- The ring changes: what it holds it held before, or it is the address of a record that may be there. -/
theorem modRing (hr : Records s) {ring : Uring Slot} {n : ℕ}
    (hring : ∀ x r, ring.Has x → x.sqe.userData = some r → s.ev.ring.Has x ∨ s.HasEntry r ∨
      r < s.nextReq ∧ ((s.reqs r).home = .heap ∨ (s.reqs r).data.handle ≠ none)) :
    Records (s.modEv fun ev => { ev with ring := ring, inFlightRequests := n }) := by
  refine { hr with entry := fun r he => ?_ }
  obtain ⟨x, hx, hu⟩ := he
  rcases hring x r hx hu with hx | he | hok
  · exact hr.entry r ⟨x, hx, hu⟩
  · exact hr.entry r he
  · exact hok

theorem setRing (hr : Records s) (ring : Uring Slot)
    (hring : ∀ x r, ring.Has x → x.sqe.userData = some r → s.ev.ring.Has x ∨ s.HasEntry r ∨
      r < s.nextReq ∧ ((s.reqs r).home = .heap ∨ (s.reqs r).data.handle ≠ none)) : Records (s.setRing ring) :=
  hr.modRing (n := s.ev.inFlightRequests) hring

theorem getSqe (hr : Records s) {p : Purpose} {j : ℕ} {ring : Uring Slot}
    (hs : s.ev.ring.getSqe (Slot.hand p) = some (j, ring)) : Records (s.setRing ring) := by
  refine hr.setRing ring fun x r hx hu => ?_
  rcases Uring.has_getSqe hs hx with hx | rfl
  · exact .inl hx
  · exact .inr (.inl ⟨s.ev.ring.sqes j, .inl ⟨j, rfl⟩, hu⟩)

theorem getUringSqe (hr : Records s) {p : Purpose} {x : Option ℕ} (hs : s.getUringSqe p = .ok (x, s')) :
    Records s' := by
  rcases getUringSqe_ok hs with ⟨-, -, rfl⟩ | ⟨j, ring, -, -, -, h1, rfl⟩
  · exact hr
  · exact hr.getSqe h1

theorem submit (hr : Records s) {ret : ℤ} (hs : s.submitQueuedEntries ret = .ok s') : Records s' := by
  obtain ⟨-, -, -, rfl⟩ := submitQueuedEntries_ok hs
  exact hr.modRing (n := s.ev.inFlightRequests + ret.toNat) fun x r hx _ => .inl (Uring.has_submit hx)

theorem newAwaitable (hr : Records s) (ctx : Option CoroId) (p : ParameterPack) (sqe : Option ℕ) :
    Records ((s.newReq (.awaitable ctx p sqe)).2.ownReq ctx s.nextReq) := by
  have hreqs : ((s.newReq (.awaitable ctx p sqe)).2.ownReq ctx s.nextReq).reqs =
      Function.update s.reqs s.nextReq (.awaitable ctx p sqe) := by cases ctx <;> rfl
  have hnr : ((s.newReq (.awaitable ctx p sqe)).2.ownReq ctx s.nextReq).nextReq = s.nextReq + 1 := by
    cases ctx <;> rfl
  have hcoros : ∀ h, ((s.newReq (.awaitable ctx p sqe)).2.ownReq ctx s.nextReq).coros h =
      if ctx = some h then { s.coros h with reqs := (s.coros h).reqs ++ [s.nextReq] } else s.coros h := by
    intro h
    cases ctx with
    | none => simp [State.newReq, ownReq]
    | some c =>
      by_cases hc : h = c
      · subst hc
        simp [State.newReq, ownReq, State.modCoro]
      · simp [State.newReq, ownReq, State.modCoro, hc, Ne.symm hc]
  refine hr.grow (by rw [hnr]; exact Nat.le_succ _) (by cases ctx <;> rfl) (by cases ctx <;> rfl)
    (by cases ctx <;> rfl) (by cases ctx <;> rfl) (fun r hc => ?_) (fun r hle hlt => ?_) (fun h => ?_) (fun h => ?_)
    (fun h r hm => ?_) fun h r hm => ?_
  · have hne : r ≠ s.nextReq := by
      rw [hnr] at hc
      omega
    rw [hreqs, Function.update_of_ne hne]
  · obtain rfl : r = s.nextReq := by
      rw [hnr] at hlt
      omega
    rw [hreqs, Function.update_self]
    exact ⟨rfl, fun hd => by simp [Request.awaitable] at hd⟩
  · rw [hcoros]
    split <;> rfl
  · rw [hcoros]
    split <;> rfl
  · rw [hcoros]
    split
    · exact List.mem_append_left _ hm
    · exact hm
  · rw [hcoros] at hm
    split at hm
    · rename_i hctx
      subst hctx
      rcases List.mem_append.mp hm with hm | hm
      · exact .inl hm
      · rw [List.mem_singleton] at hm
        subst hm
        refine .inr ⟨le_rfl, by rw [hnr]; exact Nat.lt_succ_self _, .inl ?_⟩
        rw [hreqs, Function.update_self]
        rfl
    · exact .inl hm

theorem ioOp (hr : Records s) {ctx : Option CoroId} {p : ParameterPack} {r : ReqId} (hs : s.ioOp ctx p = .ok (r, s')) :
    Records s' := by
  obtain ⟨-, rfl, sqe, s1, h1, rfl⟩ := ioOp_ok hs
  have hr1 : Records s1 := hr.getUringSqe h1
  have hn : s1.nextReq = s.nextReq := by
    rcases getUringSqe_ok h1 with ⟨-, -, rfl⟩ | ⟨j, ring, -, -, -, -, rfl⟩ <;> rfl
  rw [← hn]
  exact hr1.newAwaitable ctx p sqe

/-! ### Awaiting an awaitable -/

theorem not_atIo (hr : Records s) {r : ReqId} (hn : (s.reqs r).data.handle = none) (h : CoroId) :
    (s.coros h).place ≠ .atIo r := by
  intro hp
  have hh := (hr.atIo h r hp).2.2.1
  rw [hn] at hh
  cases hh

theorem lt_nextReq (hr : Records s) {r : ReqId} (hl : (s.reqs r).live = true) : r < s.nextReq := by
  by_contra hle
  rw [hr.fresh r (not_lt.mp hle)] at hl
  cases hl

/-- A coroutine that is running a user's body has no record that could resume it. -/
theorem not_handle_running (hr : Records s) {h : CoroId} {r : ReqId} (hrun : (s.coros h).place = .running)
    (hb : (s.coros h).body.kind = .user) (hl : (s.reqs r).live = true) : (s.reqs r).data.handle ≠ some h := by
  intro hh
  have hserves := hr.serves r h hl hh
  unfold State.Serves at hserves
  cases hhome : (s.reqs r).home with
  | awaitable a =>
    rw [hhome, hrun] at hserves
    cases hserves.2
  | vector a =>
    rw [hhome] at hserves
    obtain ⟨q, hq⟩ := hserves.2.2.1
    rw [hq] at hb
    cases hb
  | heap =>
    rw [hhome] at hserves
    rw [hserves.2.1] at hb
    cases hb

/-- The record `r` is given the handle of `h`: what is left to show is where the coroutines are and whom the records
answer. -/
theorem give (hr : Records s) {r : ReqId} {h : CoroId} {d : RequestData} (hd : d.handle = some h)
    (hdyn : d.allocatedDynamic = true → (s.reqs r).home = .heap)
    (hreq : ∀ x, s'.reqs x = if x = r then { s.reqs r with data := d } else s.reqs x)
    (hlist : ∀ x, (s'.coros x).reqs = (s.coros x).reqs) (hnr : s'.nextReq = s.nextReq) (hev : s'.ev = s.ev)
    (hfits : ∀ x, (s'.coros x).body.fits (s'.coros x).place = true)
    (hat : ∀ x r', (s'.coros x).place = .atIo r' → (s'.reqs r').live = true ∧
      (s'.reqs r').home = .awaitable (some x) ∧ (s'.reqs r').data.handle = some x ∧ r' ∈ (s'.coros x).reqs)
    (hserves : ∀ r' x, (s'.reqs r').live = true → (s'.reqs r').data.handle = some x → s'.Serves r' x)
    (hpoll : ∀ p, s'.ev.pollingHandle = some p → p < s'.nextCoro ∧ (s'.coros p).body = .poll .waiting ∧
      ((s'.coros p).place = .atGeneric ∨ (s'.coros p).place = .gone)) : Records s' := by
  have hlive : ∀ x, (s'.reqs x).live = (s.reqs x).live := by
    intro x
    rw [hreq]
    split
    · rename_i hx
      rw [hx]
    · rfl
  have hhm : ∀ x, (s'.reqs x).home = (s.reqs x).home := by
    intro x
    rw [hreq]
    split
    · rename_i hx
      rw [hx]
    · rfl
  refine ⟨hfits, ?_, ?_, hat, hserves, hpoll, ?_, ?_, ?_⟩
  · intro x hle
    rw [hlive]
    exact hr.fresh x (hnr ▸ hle)
  · intro x r' hm
    rw [hhm, hnr]
    exact hr.owned x r' (hlist x ▸ hm)
  · intro r' he
    have he' : s.HasEntry r' := by
      unfold State.HasEntry at he ⊢
      rwa [hev] at he
    obtain ⟨hlt, hor⟩ := hr.entry r' he'
    rw [hnr, hhm]
    refine ⟨hlt, ?_⟩
    by_cases hr' : r' = r
    · subst hr'
      exact .inr (by simp [hreq, hd])
    · rw [hreq, if_neg hr']
      exact hor
  · intro x hx
    rw [hnr, hhm]
    exact hr.ready x (hev ▸ hx)
  · intro r' hd'
    rw [hhm]
    rw [hreq] at hd'
    split at hd'
    · rename_i hx
      rw [hx]
      exact hdyn hd'
    · exact hr.dynamic r' hd'

theorem toIo (hr : Records s) {h : CoroId} {r : ReqId} {d : RequestData} (ha : s.Awaitable h r)
    (hrun : (s.coros h).place = .running) (hb : (s.coros h).body.kind = .user) (hd : d.handle = some h)
    (hdyn : d.allocatedDynamic = (s.reqs r).data.allocatedDynamic) :
    Records ((s.modReq r fun q => { q with data := d }).suspend h (.atIo r)) := by
  obtain ⟨hm, hl, hhome, hn⟩ := ha
  generalize hs' : (s.modReq r fun q => { q with data := d }).suspend h (.atIo r) = s'
  have hreq : ∀ x, s'.reqs x = if x = r then { s.reqs r with data := d } else s.reqs x := by
    intro x
    subst hs'
    exact modReq_reqs s r (fun q => { q with data := d }) x
  have hself : s'.coros h = { s.coros h with place := .atIo r } := by
    subst hs'
    simp [State.suspend, State.setPlace, State.modCoro, State.modReq, State.pop]
  have hother : ∀ x, x ≠ h → s'.coros x = s.coros x := by
    intro x hx
    subst hs'
    simp [State.suspend, State.setPlace, State.modCoro, State.modReq, State.pop, hx]
  have hlist : ∀ x, (s'.coros x).reqs = (s.coros x).reqs := by
    intro x
    by_cases hx : x = h
    · rw [hx, hself]
    · rw [hother x hx]
  have hnc : s'.nextCoro = s.nextCoro := by subst hs'; rfl
  have hev : s'.ev = s.ev := by subst hs'; rfl
  refine hr.give hd (fun hd' => hr.dynamic r (hdyn ▸ hd')) hreq hlist (by subst hs'; rfl) hev ?_ ?_ ?_ ?_
  · intro x
    by_cases hx : x = h
    · rw [hx, hself]
      simpa [Body.fits] using hb
    · rw [hother x hx]
      exact hr.fits x
  · intro x r' hp
    by_cases hx : x = h
    · subst hx
      rw [hself] at hp
      cases hp
      rw [hlist, hreq, if_pos rfl]
      exact ⟨hl, hhome, hd, hm⟩
    · rw [hother x hx] at hp
      have hne : r' ≠ r := by
        rintro rfl
        exact hr.not_atIo hn x hp
      rw [hlist, hreq, if_neg hne]
      exact hr.atIo x r' hp
  · intro r' x hl' hh
    by_cases hr' : r' = r
    · subst hr'
      rw [hreq, if_pos rfl] at hh
      obtain rfl : h = x := Option.some.inj (hd.symm.trans hh)
      unfold State.Serves
      rw [hreq, if_pos rfl, hhome, hself]
      exact ⟨rfl, rfl⟩
    · rw [hreq, if_neg hr'] at hl' hh
      have hx : x ≠ h := by
        rintro rfl
        exact hr.not_handle_running hrun hb hl' hh
      unfold State.Serves
      rw [hreq, if_neg hr', hnc, hother x hx]
      exact hr.serves r' x hl' hh
  · intro p hp
    rw [hev] at hp
    rw [hnc, hother p (hr.polling_ne hp (by simp [hrun]) (by simp [hrun]))]
    exact hr.polling p hp

theorem awaitIo (hr : Records s) {h : CoroId} {r : ReqId} {s0 : State} (hrun : (s.coros h).place = .running)
    (hb : (s.coros h).body.kind = .user) (hs : s.awaitIo h r = .ok s0) : Records s0 := by
  obtain ⟨ha, ⟨-, rfl⟩ | ⟨j, -, -, -, rfl⟩⟩ := awaitIo_ok hs
  · exact ((hr.modPromise h _).kill (fun x => by
      have hp := hr.not_atIo ha.2.2.2 x
      by_cases hx : x = h
      · subst hx
        simpa [State.modPromise, State.modCoro] using hp
      · simpa [State.modPromise, State.modCoro, hx] using hp) (by simp) (by simp) (by simp)).log _
  · have h1 : Records ((s.modReq r fun q => { q with data := (s.reqs r).data.await h (s.coros h).promise }).suspend h
        (.atIo r)) := hr.toIo ha hrun hb rfl rfl
    have h2 := h1.setRing (s.ev.ring.write j fun x =>
        (x.prep (prepareSqringOp (s.reqs r).data.specificData)).setData (some r)) fun x r' hx hu => by
      rcases Uring.has_write hx with hx | rfl
      · exact .inl hx
      · obtain rfl : r = r' := by simpa [Slot.setData, ioUringSqeSetData] using hu
        exact .inr (.inr ⟨hr.lt_nextReq ha.2.1, .inr (by simp [State.suspend, State.setPlace, State.modCoro,
          State.modReq, State.pop, RequestData.await])⟩)
    have hd : (s.modReq r fun q => { q with data := q.data.await h (s.coros h).promise }) =
        s.modReq r fun q => { q with data := (s.reqs r).data.await h (s.coros h).promise } := rfl
    rw [hd]
    exact h2.push _

/-! ### Records of batches and on the heap -/

/-- A record that is of no awaitable is given the handle of a coroutine it may resume. -/
theorem assign (hr : Records s) {r : ReqId} {h : CoroId} {d : RequestData} (hd : d.handle = some h)
    (hdyn : d.allocatedDynamic = true → (s.reqs r).home = .heap) (hhome : ∀ a, (s.reqs r).home ≠ .awaitable a)
    (hserves : s.Serves r h) : Records (s.modReq r fun q => { q with data := d }) := by
  have hreq := modReq_reqs s r fun q => { q with data := d }
  refine hr.give hd hdyn hreq (fun _ => rfl) rfl rfl hr.fits ?_ ?_ hr.polling
  · intro x r' hp
    have hat := hr.atIo x r' hp
    have hne : r' ≠ r := by
      rintro rfl
      exact hhome _ hat.2.1
    rw [hreq, if_neg hne]
    exact hat
  · intro r' x hl hh
    unfold State.Serves
    by_cases hr' : r' = r
    · subst hr'
      rw [hreq, if_pos rfl] at hh ⊢
      obtain rfl : h = x := Option.some.inj (hd.symm.trans hh)
      exact hserves
    · rw [hreq, if_neg hr'] at hl hh ⊢
      exact hr.serves r' x hl hh

theorem newHeap (hr : Records s) {q : Request} (es : List Event) (hq : q.data.handle = none) (hhome : q.home = .heap) :
    Records { s with reqs := Function.update s.reqs s.nextReq q, nextReq := s.nextReq + 1, trace := es } := by
  refine hr.grow (Nat.le_succ _) rfl rfl rfl rfl (fun r hc => ?_) (fun r hle hlt => ?_) (fun _ => rfl) (fun _ => rfl)
    (fun _ _ hm => hm) fun _ _ hm => .inl hm
  · have hne : r ≠ s.nextReq := by
      simp only at hc
      omega
    simp [hne]
  · obtain rfl : r = s.nextReq := by
      simp only at hlt
      omega
    simp [hq, hhome]

theorem na (hr : Records s) {p : ParameterPack} {ret : ℤ} {e : Errnos} (hs : s.naOp p ret = .ok (e, s')) :
    Records s' := by
  rcases naOp_ok hs with ⟨-, -, rfl⟩ | ⟨-, j, ring, s2, hq, h2, hcase⟩
  · exact hr
  · obtain ⟨-, -, -, rfl⟩ := submitQueuedEntries_ok h2
    have key : ∀ (q : Request) (es : List Event), q.data.handle = none → q.home = .heap →
        Records ({ s with reqs := Function.update s.reqs s.nextReq q, nextReq := s.nextReq + 1, trace := es }.modEv
          fun ev => { ev with ring := ring.submit ret.toNat,
                              inFlightRequests := s.ev.inFlightRequests + ret.toNat }) := by
      intro q es hq' hhome
      refine (hr.newHeap es hq' hhome).modRing fun x r hx hu => ?_
      rcases Uring.has_getSqe hq (Uring.has_submit hx) with hx | rfl
      · exact .inl hx
      · obtain rfl : s.nextReq = r := by simpa [naSlot, Slot.setData, ioUringSqeSetData] using hu
        exact .inr (.inr ⟨Nat.lt_succ_self _, .inl (by simp [hhome])⟩)
    rcases hcase with ⟨-, -, rfl⟩ | ⟨-, -, rfl⟩
    · exact key _ _ rfl rfl
    · exact key _ _ rfl rfl

theorem newVector (hr : Records s) {h : CoroId} (n : ℕ) : Records (s.newVector h n).2 := by
  have hmem : ∀ r, r ∈ List.range' s.nextReq n ↔ s.nextReq ≤ r ∧ r < s.nextReq + n := fun r => by
    simp [List.mem_range'_1]
  have hreqs : ∀ r, (s.newVector h n).2.reqs r =
      if r ∈ List.range' s.nextReq n then { live := true, home := .vector h } else s.reqs r := fun _ => rfl
  have hcoros : ∀ x, (s.newVector h n).2.coros x =
      if x = h then { s.coros h with reqs := (s.coros h).reqs ++ List.range' s.nextReq n } else s.coros x := by
    intro x
    by_cases hx : x = h
    · subst hx
      simp [State.newVector, State.modCoro]
    · simp [State.newVector, State.modCoro, hx]
  refine hr.grow (Nat.le_add_right ..) rfl rfl rfl rfl (fun r hc => ?_) (fun r hle hlt => ?_) (fun x => ?_)
    (fun x => ?_) (fun x r hm => ?_) fun x r hm => ?_
  · have hne : r ∉ List.range' s.nextReq n := by
      rw [hmem]
      have hc' : r < s.nextReq ∨ s.nextReq + n ≤ r := hc
      omega
    rw [hreqs, if_neg hne]
  · rw [hreqs, if_pos ((hmem r).mpr ⟨hle, hlt⟩)]
    exact ⟨rfl, fun hd => by cases hd⟩
  · rw [hcoros]
    split
    · rename_i hx
      rw [hx]
    · rfl
  · rw [hcoros]
    split
    · rename_i hx
      rw [hx]
    · rfl
  · rw [hcoros]
    split
    · rename_i hx
      exact List.mem_append_left _ (hx ▸ hm)
    · exact hm
  · rw [hcoros] at hm
    split at hm
    · rename_i hx
      rcases List.mem_append.mp hm with hm | hm
      · exact .inl (hx ▸ hm)
      · obtain ⟨hle, hlt⟩ := (hmem r).mp hm
        refine .inr ⟨hle, hlt, .inr ?_⟩
        rw [hreqs, if_pos hm, hx]
    · exact .inl hm

theorem processRequests {h : CoroId} {l : List (ParameterPack × ReqId)} :
    ∀ {s s' : State}, Records s → h < s.nextCoro → (∃ q, (s.coros h).body.kind = .submitAndWait q) →
      (s.coros h).place ≠ .initial → (∀ x ∈ l, (s.reqs x.2).home = .vector h ∧ x.2 < s.nextReq) →
      s.processRequests h l = .ok s' → Records s' := by
  induction l with
  | nil =>
    intro s s' hr _ _ _ _ hs
    cases hs
    exact hr
  | cons x l ih =>
    intro s s' hr hlt hb hp hl hs
    obtain ⟨req, r⟩ := x
    obtain ⟨⟨b, s1⟩, h1, h2⟩ := bind_ok.mp hs
    obtain ⟨hhome, hrlt⟩ := hl (req, r) (by simp)
    rcases processSingleGenericRequest_ok h1 with ⟨-, -, rfl⟩ | ⟨-, -, -, j, ring, hq, rfl⟩
    · exact ih hr hlt hb hp (fun x hx => hl x (by simp [hx])) h2
    · have h3 : Records (s.modReq r fun q => { q with data := (s.reqs r).data.queue h req }) := by
        refine hr.assign rfl (fun hd => by cases hd) (fun a ha => ?_) ?_
        · rw [hhome] at ha
          cases ha
        · unfold State.Serves
          rw [hhome]
          exact ⟨rfl, hlt, hb, hp⟩
      have h4 : Records ((s.setRing ring).modReq r fun q => { q with data := q.data.queue h req }) := by
        refine h3.setRing ring fun x r' hx hu => ?_
        rcases Uring.has_getSqe hq hx with hx | rfl
        · exact .inl hx
        · obtain rfl : r = r' := by simpa [queuedSlot, Slot.setData, ioUringSqeSetData] using hu
          exact .inr (.inr ⟨hrlt, .inr (by simp [State.modReq, RequestData.queue])⟩)
      refine ih h4 hlt hb hp (fun x hx => ?_) h2
      obtain ⟨hh, hlt'⟩ := hl x (by simp [hx])
      refine ⟨?_, hlt'⟩
      by_cases hxr : x.2 = r
      · simpa [State.modReq, State.setRing, State.modEv, hxr] using hhome
      · simpa [State.modReq, State.setRing, State.modEv, hxr] using hh

theorem pollWait (hr : Records s) {h : CoroId} (hlt : h < s.nextCoro) (hrun : (s.coros h).place = .running)
    (hb : (s.coros h).body.kind = .poll) : Records (s.pollWait h) := by
  have hself : (s.pollWait h).coros h = { s.coros h with body := .poll .waiting, place := .atGeneric } := by
    simp [State.pollWait, State.suspend, State.setPlace, State.setBody, State.modCoro, State.pop, State.modEv]
  have hother : ∀ x, x ≠ h → (s.pollWait h).coros x = s.coros x := by
    intro x hx
    simp [State.pollWait, State.suspend, State.setPlace, State.setBody, State.modCoro, State.pop, State.modEv, hx]
  refine hr.move (h := h) (.of_reqs rfl rfl rfl rfl rfl) (fun x hx => by rw [hother x hx]; exact .refl _) ?_ ?_ ?_
    (fun r hp => ?_) (fun x r _ hp => (hr.atIo x r hp).1) ?_ ?_ fun p hp => .inr ?_
  · rw [hself]
    rfl
  · rw [hself, hb]
    rfl
  · rw [hself]
  · rw [hrun] at hp
    cases hp
  · rw [hself]
    simp
  · rw [hself]
    simp
  · obtain rfl : h = p := by simpa [State.pollWait, State.suspend, State.setPlace, State.setBody, State.modCoro,
      State.pop, State.modEv] using hp
    rw [hself]
    exact ⟨hlt, rfl, .inl rfl⟩

/-! ### Dispatch -/

theorem eventHandler (hr : Records s) {res : ℤ} {x : Option ReqId} {base : Addr}
    (hx : ∀ r, x = some r → (s.reqs r).data.handle = none → (s.reqs r).home = .heap)
    (hs : s.eventHandler res x base = .ok s') : Records s' := by
  unfold State.eventHandler at hs
  split at hs
  · cases hs
    exact hr
  · rename_i r
    simp only at hs
    split at hs
    · rename_i hl
      split at hs
      · rename_i hh
        cases hs
        refine { hr with ready := fun y hy => ?_ }
        rcases List.mem_cons.mp hy with rfl | hy
        · exact ⟨hr.lt_nextReq hl, hx r rfl hh⟩
        · exact hr.ready y hy
      · obtain ⟨pack, -, h2⟩ := bind_ok.mp hs
        exact (((hr.modPromise _ _).log _).push _).resume h2
    · cases hs

/-- A parked request is taken from the store and given the handle of the poller. -/
theorem parked (hr : Records s) {res : ℤ} {r : ReqId} {ready : List (ℤ × ReqId)} {p : CoroId}
    (hready : s.ev.readyRequestsStore = (res, r) :: ready) (hpoll : s.ev.pollingHandle = some p) :
    Records (((s.push .awaitWait).modEv fun ev => { ev with readyRequestsStore := ready }).modReq r fun q =>
      { q with data := { (s.reqs r).data with handle := some p } }) := by
  obtain ⟨-, hhome⟩ := hr.ready (res, r) (by simp [hready])
  obtain ⟨hp, hb, hplace⟩ := hr.polling p hpoll
  have h1 : Records ((s.push .awaitWait).modEv fun ev => { ev with readyRequestsStore := ready }) :=
    { hr with ready := fun y hy => hr.ready y (by rw [hready]; exact List.mem_cons_of_mem _ hy) }
  refine h1.assign (r := r) (h := p) rfl (fun _ => hhome) (fun a ha => ?_) ?_
  · have ha' : (s.reqs r).home = .awaitable a := ha
    rw [hhome] at ha'
    cases ha'
  · have hserves : s.Serves r p := by
      unfold State.Serves
      rw [hhome]
      refine ⟨hp, by rw [hb]; rfl, ?_⟩
      rcases hplace with hpl | hpl <;> rw [hpl] <;> simp
    exact hserves

theorem eventHandlerReturn (hr : Records s) {r : ReqId} {h : CoroId} (hs : s.eventHandlerReturn r h = .ok s') :
    Records s' := by
  -- erasing from the store is no matter
  have h1 : Records (if (s.reqs r).data.handle = none ∨ s.isDone h = true then
      s.modEv fun ev =>
        { ev with managedCoroutinesStore := ev.managedCoroutinesStore.erase (s.reqs r).data.coroIdx }
      else s) := by
    split
    · exact hr.modEv rfl rfl (.inr rfl)
    · exact hr
  have hreqs : (if (s.reqs r).data.handle = none ∨ s.isDone h = true then
      s.modEv fun ev =>
        { ev with managedCoroutinesStore := ev.managedCoroutinesStore.erase (s.reqs r).data.coroIdx }
      else s).coros = s.coros := by split <;> rfl
  unfold State.eventHandlerReturn at hs
  simp only at hs
  generalize (if (s.reqs r).data.handle = none ∨ s.isDone h = true then
      s.modEv fun ev =>
        { ev with managedCoroutinesStore := ev.managedCoroutinesStore.erase (s.reqs r).data.coroIdx }
      else s) = s1 at hs h1 hreqs
  split at hs
  · rename_i hdyn
    split at hs
    · cases hs
      refine (h1.kill (fun x hx => ?_) (by simp) (by simp) (by simp)).log _
      have hhome := hr.dynamic r hdyn
      rw [hreqs] at hx
      rw [(hr.atIo x r hx).2.1] at hhome
      cases hhome
    · cases hs
  · cases hs
    exact h1

/-! ### Calls and registration -/

theorem call (hr : Records s) (hp : Placed s) {ctx : Option CoroId} {b : Body} (hb : b.atBegin = true) :
    Records (s.call ctx b) := by
  have hgone : (s.coros s.nextCoro).place = .gone := hp.fresh _ le_rfl
  have hnew : Records { s with
      coros := Function.update s.coros s.nextCoro
        { promise := { taskStatusPtr := some s.nextCoro }, body := b, place := .initial }
      statuses := Function.update s.statuses s.nextCoro {}
      nextCoro := s.nextCoro + 1
      vars := Function.update s.vars s.nextVar (some ⟨false, some s.nextCoro, some s.nextCoro⟩)
      nextVar := s.nextVar + 1 } := by
    refine ⟨fun h => ?_, hr.fresh, fun h r hm => ?_, fun h r hpl => ?_, fun r h hl hh => ?_, fun p hpoll => ?_,
      hr.entry, hr.ready, hr.dynamic⟩
    · by_cases hh : h = s.nextCoro
      · subst hh
        simp only [Function.update_self]
        exact hb
      · simpa [hh] using hr.fits h
    · by_cases hh : h = s.nextCoro
      · subst hh
        simp at hm
      · exact hr.owned h r (by simpa [hh] using hm)
    · by_cases hh : h = s.nextCoro
      · subst hh
        simp at hpl
      · simpa [hh] using hr.atIo h r (by simpa [hh] using hpl)
    · have hserves := hr.serves r h hl hh
      -- who is served exists
      have hne : h ≠ s.nextCoro := by
        rintro rfl
        unfold State.Serves at hserves
        split at hserves
        · rw [hgone] at hserves
          cases hserves.2
        · exact lt_irrefl _ hserves.2.1
        · exact lt_irrefl _ hserves.1
      unfold State.Serves at hserves ⊢
      simp only [Function.update_of_ne hne]
      cases hhome : (s.reqs r).home with
      | awaitable a =>
        rw [hhome] at hserves
        exact hserves
      | vector a =>
        rw [hhome] at hserves
        exact ⟨hserves.1, Nat.lt_succ_of_lt hserves.2.1, hserves.2.2⟩
      | heap =>
        rw [hhome] at hserves
        exact ⟨Nat.lt_succ_of_lt hserves.1, hserves.2⟩
    · obtain ⟨hlt, hbp⟩ := hr.polling p hpoll
      have hne : p ≠ s.nextCoro := Nat.ne_of_lt hlt
      exact ⟨Nat.lt_succ_of_lt hlt, by simpa [hne] using hbp⟩
  unfold State.call
  cases ctx with
  | none => exact hnew
  | some c =>
    refine hnew.still (.of_reqs rfl rfl rfl rfl rfl) (fun x => ?_) (fun x r hx => (hnew.atIo x r hx).1) (.inr rfl)
    by_cases hx : x = c
    · subst hx
      constructor <;> simp [State.modCoro]
    · constructor <;> simp [State.modCoro, hx]

/-- A task that holds a suspended coroutine is assigned over. -/
theorem destroyCoro (hr : Records s) {h : CoroId} (hs : s.destroyCoro h = .ok s') : Records s' := by
  unfold State.destroyCoro at hs
  split at hs
  · cases hs
    exact hr.endFrame (.inr rfl) (by simp)
  · cases hs

theorem relink (hr : Records s) (e : EvTask) : Records (s.relink e) := by
  unfold State.relink
  split
  · exact hr.modPromise ..
  · exact hr

theorem relinks (hr : Records s) (es : List EvTask) : Records (es.foldl (fun s e => s.relink e) s) := by
  induction es generalizing s with
  | nil => exact hr
  | cons e es ih => exact ih (hr.relink e)

theorem makeRoom (hr : Records s) {pick : ℕ} {grow : Bool} (hs : s.makeRoom pick grow = .ok s') : Records s' := by
  unfold State.makeRoom at hs
  simp only at hs
  split at hs
  · cases hs
    split
    · exact hr.relinks _
    · exact hr
  · split at hs
    · obtain ⟨old, -, h1⟩ := bind_ok.mp hs
      unfold State.overwriteTask at h1
      split at h1
      · cases h1
        exact hr
      · split at h1
        · cases h1
        · split at h1
          · cases h1
            exact hr
          · exact hr.destroyCoro h1
    · cases hs

theorem insertTask (hr : Records s) (pick : ℕ) (e : EvTask) : Records (s.insertTask pick e) := by
  unfold State.insertTask
  have h1 : Records ((s.relink e).modEv fun ev =>
      { ev with managedCoroutinesStore := s.ev.managedCoroutinesStore.insert pick e }) :=
    (hr.relink e).modEv rfl rfl (.inr rfl)
  simp only
  split
  · exact h1.modPromise ..
  · exact h1

theorem register (hr : Records s) {v : VarId} {pick : ℕ} {grow : Bool}
    (hs : s.registerCoroReturn v pick grow = .ok s') : Records s' := by
  unfold State.registerCoroReturn at hs
  obtain ⟨s1, h2, h1⟩ := bind_ok.mp hs
  obtain ⟨e, -, h3⟩ := bind_ok.mp h1
  cases h3
  exact { (hr.makeRoom h2).insertTask pick e with }

end Records

end EvManager
