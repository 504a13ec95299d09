import EvManager.Counter

/-!
# The life of the manager

The four ways a step can leave `_manager_life_state` and the ring, and what follows: **the ring is exited once and
for all, by `kill_internal` when the counter is zero.**
-/

namespace EvManager

open Lib State

/-- `kill_internal` is on top and its wait is over: in the next step it makes the manager DEAD and exits the ring. -/
def State.atExit (s : State) : Bool :=
  match s.stack with
  | .run h :: _ => (s.coros h).body = .killInternal .wait && s.ev.inFlightRequests = 0
  | _ => false

theorem State.atExit_iff {s : State} : s.atExit = true ↔
    ∃ h rest, s.stack = .run h :: rest ∧ (s.coros h).body = .killInternal .wait ∧ s.ev.inFlightRequests = 0 := by
  unfold atExit
  split
  · rename_i h rest hst
    simp [hst]
  · rename_i hne
    simp only [Bool.false_eq_true, false_iff, not_exists, not_and]
    intro h rest hst
    exact absurd hst (hne h rest)

/-- What a step does to the life state and the ring. -/
inductive LifeEffect (s s' : State) : Prop
  | same : s'.ev.managerLifeState = s.ev.managerLifeState → s'.ev.ringUp = s.ev.ringUp → LifeEffect s s'
  | start : s.ev.managerLifeState = .notStarted → s'.ev.managerLifeState = .living → s'.ev.ringUp = s.ev.ringUp →
      LifeEffect s s'
  | dying {h : CoroId} {rest : List Activation} : s.stack = .run h :: rest →
      (s.coros h).body = .killInternal .begin → s.ev.managerLifeState.rank < LivingState.dying.rank →
      s'.ev.managerLifeState = .dying → s'.ev.ringUp = s.ev.ringUp → LifeEffect s s'
  | dead : s.atExit = true → s'.ev.managerLifeState = .dead → s'.ev.ringUp = false → LifeEffect s s'

theorem LifeEffect.of_counts {s s' : State} (h : SameCounts s s') : LifeEffect s s' := .same h.life h.ringUp

theorem LifeEffect.of_quiet {s s' : State} (h : Quiet s s') : LifeEffect s s' := .same h.life h.ringUp

theorem step_lifeEffect {s s' : State} {c : Choice} (hs : State.step s c = .ok s') : LifeEffect s s' := by
  have hsubmit : ∀ {ret : ℤ} {s1 s2 : State}, s1.submitQueuedEntries ret = .ok s2 →
      s2.ev.managerLifeState = s1.ev.managerLifeState ∧ s2.ev.ringUp = s1.ev.ringUp := by
    intro ret s1 s2 h1
    obtain ⟨-, -, -, rfl⟩ := submitQueuedEntries_ok h1
    exact ⟨rfl, rfl⟩
  cases step_effect hs with
  | quiet hq => exact .of_quiet hq
  | io h1 => exact .of_counts (.ioOp h1)
  | awaitIo hst h1 => exact .of_counts (.awaitIo hst h1)
  | awaitOp hst h1 h2 => exact .of_counts ((SameCounts.ioOp h1).trans (.awaitIo ((ioOp_stack h1).trans hst) h2))
  | na h1 =>
    rcases naOp_ok h1 with ⟨-, -, rfl⟩ | ⟨-, j, ring, s2, -, h2, hcase⟩
    · exact .of_counts (.refl _)
    · obtain ⟨hl, hr⟩ := hsubmit h2
      rcases hcase with ⟨-, -, rfl⟩ | ⟨-, -, rfl⟩ <;> exact .same hl hr
  | submit _ _ hq h1 hq' =>
    obtain ⟨hl, hr⟩ := hsubmit h1
    exact .same ((hq'.life.trans hl).trans hq.life) ((hq'.ringUp.trans hr).trans hq.ringUp)
  | rawSqe h1 => exact .of_counts (.getUringSqe h1)
  | start hl => exact .start hl rfl rfl
  | leave => exact .same rfl rfl
  | message _ h1 =>
    unfold State.awaitMessage at h1
    simp only at h1
    split at h1
    · have h2 := Uncounted.eventHandler h1
      exact .same h2.life h2.ringUp
    · cases h1
      exact .same rfl rfl
  | cqe _ h1 =>
    unfold State.awaitCqe at h1
    split at h1
    · split at h1
      · have h2 := Uncounted.eventHandler h1
        refine .same (h2.life.trans ?_) (h2.ringUp.trans ?_) <;> split <;> rfl
      · cases h1
    · cases h1
  | seen _ h1 =>
    unfold State.awaitSeen at h1
    split at h1
    · simp only at h1
      split at h1
      · have h2 := Quiet.resume h1
        exact .same h2.life h2.ringUp
      · cases h1
      · cases h1
        exact .same rfl rfl
    · cases h1
  | handlerReturn _ h1 =>
    have h2 := Uncounted.eventHandlerReturn h1
    exact .same h2.life h2.ringUp
  | dying hst hb hl => exact .dying hst hb hl rfl rfl
  | cancel _ _ h1 =>
    obtain ⟨ring, -, -, rfl⟩ := ioUringGetSqe_some h1
    exact .same rfl rfl
  | dead hst hb h0 h1 =>
    have h2 := Quiet.finish (by exact hst) h1
    exact .dead (by simp [State.atExit, hst, hb, h0]) h2.life h2.ringUp
  | batch hst _ _ h1 =>
    unfold submitAndWaitBegin at h1
    obtain ⟨s2, h2, h3⟩ := bind_ok.mp h1
    obtain ⟨hl, hr⟩ := hsubmit h2
    split at h3
    · have h4 := Quiet.finish (by rw [(submitQueuedEntries_stack h2).1, hst]) h3
      exact .same (h4.life.trans hl) (h4.ringUp.trans hr)
    · obtain ⟨s3, h4, h5⟩ := bind_ok.mp h3
      cases h5
      have h6 := SameCounts.processRequests h4
      exact .same (h6.life.trans hl) (h6.ringUp.trans hr)
  | poll _ _ _ _ hq => exact .same hq.life hq.ringUp
  | register _ h1 =>
    have h2 := Uncounted.registerCoroReturn h1
    exact .same h2.life h2.ringUp

theorem ringUp_of_step {s s' : State} {c : Choice} (hs : State.step s c = .ok s') (hup : s'.ev.ringUp = true) :
    s.ev.ringUp = true := by
  cases step_lifeEffect hs with
  | same _ hr => exact hr ▸ hup
  | start _ _ hr => exact hr ▸ hup
  | dying _ _ _ _ hr => exact hr ▸ hup
  | dead _ _ hr =>
    rw [hr] at hup
    cases hup

/-- The ring is exited by `kill_internal` only, when nothing is in flight. -/
theorem atExit_of_step {s s' : State} {c : Choice} (hs : State.step s c = .ok s') (hup : s.ev.ringUp = true)
    (hdown : s'.ev.ringUp = false) : s.atExit = true := by
  cases step_lifeEffect hs with
  | same _ hr =>
    rw [hr, hup] at hdown
    cases hdown
  | start _ _ hr =>
    rw [hr, hup] at hdown
    cases hdown
  | dying _ _ _ _ hr =>
    rw [hr, hup] at hdown
    cases hdown
  | dead hx => exact hx

theorem dead_of_step {s s' : State} {c : Choice} (hs : State.step s c = .ok s') (hd : s.ev.managerLifeState = .dead) :
    s'.ev.managerLifeState = .dead := by
  cases step_lifeEffect hs with
  | same hl => exact hl.trans hd
  | start hl =>
    rw [hd] at hl
    cases hl
  | dying _ _ hl =>
    rw [hd] at hl
    simp [LivingState.rank] at hl
  | dead _ hl => exact hl

end EvManager
