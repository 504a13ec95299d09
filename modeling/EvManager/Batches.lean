import EvManager.Heard

/-!
# Batches

What a step does to a coroutine of `submit_and_wait`: **`step_batch`**.  It moves on only by its own code, and a
response to one of the requests of its vector is what ends its wait.
-/

namespace EvManager

open Lib State

namespace State

variable {s s' : State} {c : Choice} {x : CoroId} {q : RequestQueue} {l : BatchLocals}

/-- How `submit_and_wait` begins: its first submit fails, or it queues its requests. -/
theorem submitAndWaitBegin_ok {ret : ℤ} (hs : s.submitAndWaitBegin x q ret = .ok s') :
    ∃ s1, s.submitQueuedEntries ret = .ok s1 ∧ ((ret < 0 ∧ s1.finish x (some (u64 ret)) = .ok s') ∨
      0 ≤ ret ∧ ∃ s2, (s1.newVector x q.length).2.processRequests x (q.zip (List.range' s1.nextReq q.length)) = .ok s2 ∧
        s' = s2.setBody x
        (.submitAndWait q ⟨.loop, List.range' s1.nextReq q.length, ret.toNat, u32 s2.ev.ring.unpublished⟩)) := by
  unfold State.submitAndWaitBegin at hs
  obtain ⟨s1, h1, h2⟩ := bind_ok.mp hs
  refine ⟨s1, h1, ?_⟩
  split at h2
  · rename_i hneg
    exact .inl ⟨hneg, h2⟩
  · rename_i hneg
    obtain ⟨s2, h3, h4⟩ := bind_ok.mp h2
    cases h4
    exact .inr ⟨not_lt.mp hneg, s2, h3, rfl⟩

theorem processRequests_ring {h : CoroId} {l : List (ParameterPack × ReqId)} : ∀ {s s' : State},
    s.processRequests h l = .ok s' → s'.nextReq = s.nextReq ∧ s'.ev.ring.inFlight = s.ev.ring.inFlight ∧
      s'.ev.ring.entries = s.ev.ring.entries := by
  induction l with
  | nil =>
    intro s s' hs
    cases hs
    exact ⟨rfl, rfl, rfl⟩
  | cons x l ih =>
    intro s s' hs
    obtain ⟨req, r⟩ := x
    obtain ⟨⟨b, s1⟩, h1, h2⟩ := bind_ok.mp hs
    obtain ⟨hn, hf, he⟩ := ih h2
    rcases processSingleGenericRequest_ok h1 with ⟨-, -, rfl⟩ | ⟨-, -, -, j, ring, hr, rfl⟩
    · exact ⟨hn, hf, he⟩
    · exact ⟨hn, hf.trans (Uring.getSqe_inFlight hr), he.trans (Uring.getSqe_entries hr)⟩

/-- How its loop goes on: it ends, it waits for the first response of a round, or it submits again. -/
theorem submitAndWaitLoop_ok {ret : Option ℤ} (hs : s.submitAndWaitLoop x q l ret = .ok s') :
    (ret = none ∧ l.numSubmitted = 0 ∧ l.numQueued = 0 ∧ s.finish x (some 0) = .ok s') ∨
      (ret = none ∧ l.numSubmitted ≠ 0 ∧
        s' = (s.setBody x (.submitAndWait q { l with pc := .await 0 })).suspend x .atGeneric) ∨
      ∃ n s1, ret = some n ∧ l.numSubmitted = 0 ∧ l.numQueued ≠ 0 ∧ s.submitQueuedEntries n = .ok s1 ∧
        ((n < 0 ∧ s1.finish x (some (u64 n)) = .ok s') ∨ 0 ≤ n ∧ s' = s1.setBody x (.submitAndWait q
          { l with numSubmitted := l.numSubmitted + n.toNat, numQueued := u32 (l.numQueued - n) })) := by
  unfold State.submitAndWaitLoop at hs
  split at hs
  · rename_i hdone
    split at hs
    · rename_i hret
      exact .inl ⟨hret, hdone.1, hdone.2, hs⟩
    · cases hs
  · rename_i hdone
    split at hs
    · rename_i hsub
      cases ret with
      | none => cases hs
      | some n =>
        obtain ⟨s1, h1, h2⟩ := bind_ok.mp hs
        refine .inr (.inr ⟨n, s1, rfl, hsub, fun hq => hdone ⟨hsub, hq⟩, h1, ?_⟩)
        split at h2
        · rename_i hneg
          exact .inl ⟨hneg, h2⟩
        · rename_i hneg
          cases h2
          exact .inr ⟨not_lt.mp hneg, rfl⟩
    · rename_i hsub
      split at hs
      · rename_i hret
        cases hs
        exact .inr (.inl ⟨hret, hsub, rfl⟩)
      · cases hs

/-- How a coroutine of `submit_and_wait` moves on. -/
inductive BatchMove (s : State) (c : Choice) (x : CoroId) (q : RequestQueue) (l : BatchLocals) (s' : State) : Prop
  | rests : (s'.coros x).body = .submitAndWait q l → (∀ rest, s.stack = .run x :: rest → ∃ i, l.pc = .handler i) →
      (s'.coros x).place = (s.coros x).place ∨ ((s.coros x).place = .initial ∧ (s'.coros x).place = .running) →
      BatchMove s c x q l s'
  | leaves : (s.coros x).place ≠ .running → (s'.coros x).place = .gone → BatchMove s c x q l s'
  | begins {ret : ℤ} {rest : List Activation} : s.stack = .run x :: rest → c = .sub ret → l.pc = .begin →
      s.submitAndWaitBegin x q ret = .ok s' → BatchMove s c x q l s'
  | loops {ret : Option ℤ} {rest : List Activation} : s.stack = .run x :: rest → c = ret.elim .tau .sub → l.pc = .loop →
      s.submitAndWaitLoop x q l ret = .ok s' → BatchMove s c x q l s'
  | next {i : ℕ} {stop : Bool} {rest : List Activation} : s.stack = .run x :: rest → c = .user (.handlerReturn stop) →
      l.pc = .handler i → s' = s.submitAndWaitNext x q l i → BatchMove s c x q l s'
  | throws {i : ℕ} {rest : List Activation} : s.stack = .run x :: rest → c = .user .throw → l.pc = .handler i →
      s.finish x none = .ok s' → BatchMove s c x q l s'
  | hears {i : ℕ} {r : ReqId} {res : ℤ} {d : ResponsePack} : l.pc = .await i → s.Source r x res c →
      s.Delivers r x res d s' →
      (s'.coros x).body = .submitAndWait q { l with pc := .handler i } → BatchMove s c x q l s'

/-- Whoever waits for a response and goes on has got one, unless its own submission failed. -/
theorem delivers_of_wakes (hreach : Reachable s) (hs : State.step s c = .ok s') (hp : (s.coros x).place = .atGeneric)
    (hp' : (s'.coros x).place = .running) : ∃ r res d, s.Source r x res c ∧ s.Delivers r x res d s' := by
  have hdis : ∀ {c : Choice}, Dispatches s c s' → ∃ r res d, s.Source r x res c ∧ s.Delivers r x res d s' := by
    intro c h1
    cases h1 with
    | idle hc =>
      rw [hc, hp] at hp'
      cases hp'
    | @delivers r h res d hsrc hd =>
      obtain rfl : h = x := by
        by_contra hx
        rw [hd.others x (Ne.symm hx), hp] at hp'
        cases hp'
      exact ⟨r, res, d, hsrc, hd⟩
  rcases response_wakes hreach hs (by rw [hp]; rfl) hp' with ⟨rest, base, hst, rfl, h1⟩ |
    ⟨rest, i, res, base, hst, rfl, h1⟩ |
    ⟨r, rest, hst⟩
  · exact hdis (dispatches_awaitMessage hreach hst h1)
  · exact hdis (dispatches_awaitCqe hreach hst h1)
  · rw [place_of_ioSubmit hreach hst] at hp
    cases hp

theorem batch_stays (hreach : Reachable s) (hb : (s.coros x).body = .submitAndWait q l)
    (hpc : ∀ rest, s.stack = .run x :: rest → ∃ i, l.pc = .handler i) (h : (s.coros x).Stays (s'.coros x)) :
    BatchMove s c x q l s' := by
  refine .rests (h.body.trans hb) hpc (.inl (h.place_eq ?_))
  have hfits := hreach.sound.records.fits x
  rw [hb] at hfits
  cases hp : (s.coros x).place <;> simp [hp, Body.fits, Body.kind] at hfits ⊢ <;> rfl

/-- **What a step does to a batch.** -/
theorem step_batch (hreach : Reachable s) (hs : State.step s c = .ok s') (hb : (s.coros x).body = .submitAndWait q l)
    (hx : x < s.nextCoro) : BatchMove s c x q l s' := by
  have hfits := hreach.sound.records.fits x
  rw [hb] at hfits
  by_cases htop : ∃ a rest, s.stack = a :: rest ∧ a.subject = some x
  · obtain ⟨a, rest, hst, ha⟩ := htop
    cases a with
    | run h =>
      obtain rfl : h = x := Option.some.inj ha
      have hrun := hreach.placed.place_of_top hst
      rw [step_run hst] at hs
      unfold State.bodyStep at hs
      simp only [hb] at hs
      cases hpc : l.pc with
      | begin =>
        cases c with
        | sub ret => exact .begins hst rfl hpc (by simpa only [hpc] using hs)
        | _ => simp [hpc] at hs
      | loop =>
        cases c with
        | tau =>
          have hs' : s.submitAndWaitLoop h q l none = .ok s' := by simpa only [hpc] using hs
          exact .loops hst rfl hpc hs'
        | sub ret =>
          have hs' : s.submitAndWaitLoop h q l (some ret) = .ok s' := by simpa only [hpc] using hs
          exact .loops hst rfl hpc hs'
        | _ => simp [hpc] at hs
      | await i => simp [hpc] at hs
      | handler i =>
        cases c with
        | user a =>
          cases a with
          | handlerReturn stop => exact .next hst rfl hpc (by simpa [hpc] using hs.symm)
          | throw => exact .throws hst rfl hpc (by simpa only [hpc] using hs)
          | _ =>
            -- the handler is user code, in which its own coroutine stays where it is
            have hu : ∃ a, s.userStep none a = .ok s' := ⟨_, by simpa only [hpc] using hs⟩
            obtain ⟨a, hu⟩ := hu
            have hnot : ¬ (s.coros h).place.suspended = true := by simp [hrun, Place.suspended]
            cases (Does.userStep (X := fun y => y ≠ h) (by simp) hu).moves hx with
            | stays hsame => exact batch_stays hreach hb (fun _ _ => ⟨i, hpc⟩) hsame
            | resumed hsame hr => exact absurd (hsame.suspended ▸ suspended_of_resume hr) hnot
            | thrown _ hsus | destroyed hsus => exact absurd hsus hnot
        | _ => simp [hpc] at hs
    | finalSuspend h =>
      obtain rfl : h = x := Option.some.inj ha
      have hfin := hreach.placed.final h (by simp [hst])
      cases c <;> simp only [State.step, hst] at hs <;> cases hs
      refine .leaves (by simp [hfin]) ?_
      unfold State.finalReturn
      simp only
      split <;> simp [State.setPlace, State.modCoro]
    | _ => cases ha
  · have hmoves := step_moves hreach hs hx fun a rest hst ha => htop ⟨a, rest, hst, ha⟩
    have hidle : ∀ rest, s.stack = .run x :: rest → ∃ i, l.pc = .handler i :=
      fun rest hst => (htop ⟨_, rest, hst, rfl⟩).elim
    cases hmoves with
    | stays hsame => exact batch_stays hreach hb hidle hsame
    | @resumed u cause hsame hr =>
      have hsus : (s.coros x).place.suspended = true := hsame.suspended ▸ suspended_of_resume hr
      have hrun : (s'.coros x).place = .running := (hreach.step hs).placed.run x (by simp [stack_resume hr])
      cases hp : (s.coros x).place with
      | initial =>
        have hpu : (u.coros x).place = .initial := (hsame.place_eq (by rw [hp]; rfl)).trans hp
        unfold State.resume at hr
        rw [hpu] at hr
        cases hr
        refine .rests ?_ hidle (.inr ⟨hp, hrun⟩)
        simpa [State.enter, State.push, State.setPlace, State.modCoro] using hsame.body.trans hb
      | atGeneric =>
        obtain ⟨r, res, d, hsrc, hd⟩ := delivers_of_wakes hreach hs hp hrun
        obtain ⟨e, -, ht⟩ := hd.takes
        cases ht with
        | awaitable h1 =>
          rw [hp] at h1
          cases h1
        | batch _ _ h1 h2 h3 =>
          rw [hb] at h1
          cases h1
          exact .hears h2 hsrc hd h3
        | poll _ _ h1 =>
          rw [hb] at h1
          cases h1
      | running | final | gone =>
        rw [hp] at hsus
        cases hsus
      | atIo | atTask | atAlways => simp [hp, Body.fits, Body.kind] at hfits
    | @thrown u t _ hsus hm =>
      -- it awaits no task
      obtain ⟨h1, hp⟩ | hp := (show (∃ h, (s.coros x).place = .atTask t h false) ∨ (s.coros x).place = .gone from
        (tasks_suspending hreach.sound t x (List.mem_filter.mpr ⟨hm, rfl⟩)))
      · simp [hp, Body.fits, Body.kind] at hfits
      · simp [hp, Place.suspended] at hsus
    | destroyed hsus hgone =>
      refine .leaves (fun hrun => ?_) hgone
      simp [hrun, Place.suspended] at hsus

end State

end EvManager
