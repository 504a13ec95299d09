import EvManager.Drain
import EvManager.Lib.Avoids

/-!
# What each function may do wrong

Resuming, starting and ending coroutines goes wrong with handles and tasks only; what calls on the ring needs that
it is up; and no record is read but in `event_handler`.  So for a fault `f` of the ring or of a record each
function of the program avoids `f`, where it calls on the ring if this is up.
-/

namespace EvManager

open Lib State ErrorProcessing

/-- What `event_handler` may do wrong with a record. -/
def Fault.ofRecord : Fault → Bool
  | .deadRequest | .unionMember | .doubleDelete => true
  | _ => false

/-- What may go wrong in a call on the ring or with a record. -/
def Fault.ofIo : Fault → Bool
  | .ringDown => true
  | f => f.ofRecord

theorem Fault.ofIo_of_ofRecord {f : Fault} (hf : f.ofRecord = true) : f.ofIo = true := by
  cases f <;> first | rfl | cases hf

theorem Fault.ne_ringDown {f : Fault} (hf : f.ofRecord = true) : f ≠ .ringDown := by
  rintro rfl
  cases hf

namespace State

variable {s s' : State} {c : Choice} {f : Fault} {h : CoroId}

/-- A manager whose ring is down hands out no entry. -/
def Guarded (s : State) : Prop := s.ev.ringUp = false → s.shouldRestrictUsage = true

theorem avoids_disabled {α : Type} : Avoids (.undefined f) (.error .disabled : Except Stop α) := by simp

/-- Something that is neither of the ring nor of a record goes wrong. -/
theorem avoids_other {α : Type} (hf : f.ofIo = true) {g : Fault} (hg : g.ofIo = false) :
    Avoids (.undefined f) (.error (.undefined g) : Except Stop α) := by
  rw [Avoids.error]
  rintro ⟨⟩
  rw [hf] at hg
  cases hg

theorem avoids_need {α : Type} (hf : f.ofIo = true) {g : Fault} (hg : g.ofIo = false) (o : Option α) :
    Avoids (.undefined f) (need g o) := by
  cases o with
  | none => exact avoids_other hf hg
  | some a => exact .ok a

section Io

variable (hf : f.ofIo = true)

include hf

/-! ### Coroutines and tasks -/

theorem avoids_resume {cause : Option ReqId} : Avoids (.undefined f) (s.resume h cause) := by
  unfold resume
  split
  · exact .ok _
  · exact .ok _
  · exact .ok _
  · exact .bind (avoids_need hf rfl _) fun e _ => .ok _
  · unfold genericResume
    simp only
    split
    · split
      · exact .ok _
      · exact avoids_other hf rfl
    · exact .ok _
    · exact avoids_other hf rfl
  all_goals exact avoids_other hf rfl

theorem avoids_startTask {t : TaskRef} : Avoids (.undefined f) (s.startTask t) := by
  refine .bind (avoids_need hf rfl _) fun e _ => ?_
  split
  · exact .ok _
  · exact .bind (avoids_need hf rfl _) fun x _ => avoids_resume hf

theorem avoids_awaitSuspendTail {t : TaskRef} : Avoids (.undefined f) (s.awaitSuspendTail t h) := by
  refine .bind (avoids_need hf rfl _) fun e _ => ?_
  split
  · exact avoids_resume hf
  · exact .bind (avoids_need hf rfl _) fun x _ => .ok _

theorem avoids_awaitTask {t : TaskRef} : Avoids (.undefined f) (s.awaitTask h t) := by
  refine .bind (avoids_need hf rfl _) fun e _ => .bind (avoids_need hf rfl _) fun x _ => ?_
  split
  · exact avoids_awaitSuspendTail hf
  · exact avoids_startTask hf

theorem avoids_startReturn {t : TaskRef} : Avoids (.undefined f) (s.startReturn t h) := by
  refine .bind (avoids_need hf rfl _) fun e _ => ?_
  split
  · unfold rethrow
    split
    · exact .ok _
    · split
      · exact .ok _
      · exact avoids_other hf rfl
    · exact .ok _
  · exact .ok _

theorem avoids_finish {out : Option ℕ} : Avoids (.undefined f) (s.finish h out) := by
  unfold finish
  simp only
  split
  · exact avoids_resume hf
  · exact .ok _

theorem avoids_registerCoroReturn {v : VarId} {pick : ℕ} {grow : Bool} :
    Avoids (.undefined f) (s.registerCoroReturn v pick grow) := by
  refine .bind ?_ fun s1 _ => .bind (avoids_need hf rfl _) fun e _ => .ok _
  unfold makeRoom
  simp only
  split
  · exact .ok _
  · split
    · refine .bind (avoids_need hf rfl _) fun old _ => ?_
      unfold overwriteTask destroyCoro
      split
      · exact .ok _
      · split
        · exact avoids_other hf rfl
        · split
          · exact .ok _
          · split
            · exact .ok _
            · exact avoids_other hf rfl
    · exact avoids_disabled

/-! ### Calls on the ring -/

theorem avoids_ioUringGetSqe {p : Purpose} (hup : f = .ringDown → s.ev.ringUp = true) :
    Avoids (.undefined f) (s.ioUringGetSqe p) := by
  unfold ioUringGetSqe
  split
  · split <;> exact .ok _
  · rename_i hdown
    rw [Avoids.error]
    rintro ⟨⟩
    exact hdown (hup rfl)

theorem avoids_getUringSqe {p : Purpose} (hg : f = .ringDown → s.Guarded) :
    Avoids (.undefined f) (s.getUringSqe p) := by
  unfold getUringSqe
  split
  · exact .ok _
  · rename_i hres
    refine avoids_ioUringGetSqe hf fun hring => ?_
    by_contra hup
    exact hres (hg hring (by simpa using hup))

theorem avoids_submitQueuedEntries {ret : ℤ} (hup : f = .ringDown → s.ev.ringUp = true) :
    Avoids (.undefined f) (s.submitQueuedEntries ret) := by
  unfold submitQueuedEntries
  split
  · split
    · exact .ok _
    · exact avoids_disabled
  · rename_i hdown
    rw [Avoids.error]
    rintro ⟨⟩
    exact hdown (hup rfl)

theorem avoids_ioOp {ctx : Option CoroId} {p : ParameterPack} (hg : f = .ringDown → s.Guarded) :
    Avoids (.undefined f) (s.ioOp ctx p) := by
  unfold ioOp ioAwaitable
  split
  · exact avoids_other hf rfl
  · exact .bind (avoids_getUringSqe hf hg) fun x _ => .ok _

theorem avoids_awaitIo {r : ReqId} (hup : f = .ringDown → isThereAnError (s.reqs r).error = false →
      s.ev.ringUp = true) :
    Avoids (.undefined f) (s.awaitIo h r) := by
  unfold awaitIo
  simp only
  split
  · split
    · exact .ok _
    · rename_i he
      split
      · split
        · exact .ok _
        · exact avoids_disabled
      · rename_i hdown
        rw [Avoids.error]
        rintro ⟨⟩
        exact hdown (hup rfl (by simpa using he))
  · exact avoids_disabled

theorem avoids_naOp {p : ParameterPack} {ret : ℤ} (hg : f = .ringDown → s.Guarded) :
    Avoids (.undefined f) (s.naOp p ret) := by
  refine .bind (.bind (avoids_getUringSqe hf hg) ?_) ?_
  · rintro ⟨x, s1⟩ -
    cases x <;> exact .ok _
  · rintro ⟨x, s1⟩ h1
    obtain ⟨⟨x, s2⟩, h2, h3⟩ := bind_ok.mp h1
    rcases getUringSqe_ok h2 with ⟨rfl, -, rfl⟩ | ⟨j, ring, rfl, -, hup, -, rfl⟩ <;> cases h3
    · exact .ok _
    · -- an entry was handed out, so the ring is up
      refine .bind (avoids_submitQueuedEntries hf fun _ => hup) fun s3 _ => ?_
      split <;> exact .ok _

/-- Queueing changes neither the life of the manager nor the ring. -/
theorem avoids_processRequests {l : List (ParameterPack × ReqId)} :
    ∀ {s : State}, (f = .ringDown → s.Guarded) → Avoids (.undefined f) (s.processRequests h l) := by
  induction l with
  | nil => exact fun _ => .ok _
  | cons x l ih =>
    intro s hg
    obtain ⟨req, r⟩ := x
    refine .bind (.bind (avoids_getUringSqe hf hg) ?_) ?_
    · rintro ⟨x, s1⟩ -
      cases x <;> exact .ok _
    · rintro ⟨b, s1⟩ h1
      refine ih ?_
      rcases processSingleGenericRequest_ok h1 with ⟨-, -, rfl⟩ | ⟨-, -, -, j, ring, -, rfl⟩ <;> exact hg

/-! ### The bodies of the library -/

theorem avoids_submitAndWaitBegin {q : RequestQueue} {ret : ℤ} (hup : f = .ringDown → s.ev.ringUp = true) :
    Avoids (.undefined f) (s.submitAndWaitBegin h q ret) := by
  refine .bind (avoids_submitQueuedEntries hf hup) fun s1 h1 => ?_
  split
  · exact avoids_finish hf
  · obtain ⟨-, -, -, rfl⟩ := submitQueuedEntries_ok h1
    refine .bind (avoids_processRequests hf fun hring hdown => ?_) fun s2 _ => .ok _
    have h2 : s.ev.ringUp = false := hdown
    rw [hup hring] at h2
    cases h2

theorem avoids_submitAndWaitLoop {q : RequestQueue} {l : BatchLocals} {ret : Option ℤ}
    (hup : f = .ringDown → ret ≠ none → s.ev.ringUp = true) :
    Avoids (.undefined f) (s.submitAndWaitLoop h q l ret) := by
  unfold submitAndWaitLoop
  split
  · split
    · exact avoids_finish hf
    · exact avoids_disabled
  · split
    · split
      · refine .bind (avoids_submitQueuedEntries hf fun hring => hup hring (by simp)) fun s1 _ => ?_
        split
        · exact avoids_finish hf
        · exact .ok _
      · exact avoids_disabled
    · split
      · exact .ok _
      · exact avoids_disabled

theorem avoids_flushLoop {pc : ℕ → KillPc} {iter : ℕ} {ret : Option ℤ} {next : State → Except Stop State}
    (hup : f = .ringDown → s.ev.ringUp = true) (hnext : Avoids (.undefined f) (next s)) :
    Avoids (.undefined f) (s.flushLoop h pc iter ret next) := by
  unfold flushLoop
  split
  · split
    · split
      · exact .bind (avoids_submitQueuedEntries hf hup) fun s1 _ => .ok _
      · exact avoids_disabled
    · split
      · split
        · exact avoids_finish hf
        · exact hnext
      · exact avoids_disabled
  · rename_i hdown
    rw [Avoids.error]
    rintro ⟨⟩
    exact hdown (hup rfl)

theorem avoids_cancelSqe (hup : f = .ringDown → s.ev.ringUp = true) (n : ℕ) :
    Avoids (.undefined f) (s.cancelSqe n) := by
  induction n with
  | zero => exact .ok _
  | succ n ih =>
    refine .bind (avoids_ioUringGetSqe hf hup) ?_
    rintro ⟨x, s1⟩ h1
    cases x with
    | some j => exact .ok _
    | none =>
      obtain rfl := ioUringGetSqe_none h1
      exact ih

theorem avoids_killInternal {pc : KillPc} {ret : Option ℤ} (hup : f = .ringDown → pc ≠ .begin → s.ev.ringUp = true) :
    Avoids (.undefined f) (s.killInternal h pc ret) := by
  unfold killInternal
  split
  · split
    · split
      · exact avoids_finish hf
      · exact .ok _
    · exact avoids_disabled
  · exact avoids_flushLoop hf (fun hring => hup hring (by simp)) (.ok _)
  · split
    · refine .bind (avoids_cancelSqe hf (fun hring => hup hring (by simp)) _) ?_
      rintro ⟨x, s1⟩ -
      cases x with
      | none => exact avoids_finish hf
      | some j => exact .ok _
    · exact avoids_disabled
  · exact avoids_flushLoop hf (fun hring => hup hring (by simp)) (.ok _)
  · split
    · split
      · exact .ok _
      · exact avoids_finish hf
    · exact avoids_disabled

theorem avoids_pollBegin : Avoids (.undefined f) (s.pollBegin h) := by
  unfold pollBegin
  split
  · exact avoids_finish hf
  · exact .ok _

theorem avoids_pollNext {stop : Bool} : Avoids (.undefined f) (s.pollNext h stop) := by
  unfold pollNext
  split
  · exact avoids_finish hf
  · exact .ok _

/-! ### User code -/

theorem avoids_userStep {ctx : Option CoroId} {a : Act} (hg : f = .ringDown → s.Guarded)
    (hup : f = .ringDown → ∀ ret, a = .submitQueuedEntries ret → s.ev.ringUp = true) :
    Avoids (.undefined f) (s.userStep ctx a) := by
  unfold userStep
  cases a with
  | call | submitAndWait | poll | kill | destroyTask | start => exact .ok _
  | startTask | registerCoro => exact avoids_startTask hf
  | io p => exact .map (avoids_ioOp hf hg)
  | na p ret => exact .map (avoids_naOp hf hg)
  | submitQueuedEntries ret => exact avoids_submitQueuedEntries hf fun hring => hup hring ret rfl
  | getUringSqe => exact .map (avoids_getUringSqe hf hg)
  | dropAwaitable | consume =>
    simp only
    split
    · exact .ok _
    · exact avoids_disabled
  | awaitTask | awaitIo | awaitOp | coReturn | throw | handlerReturn => exact avoids_disabled

/-- Where a step of the coroutine `h` calls on the ring without a look at the life of the manager, the ring is up. -/
structure CallsUp (s : State) (h : CoroId) (c : Choice) : Prop where
  guarded : s.Guarded
  submit : ∀ ret, c = .user (.submitQueuedEntries ret) → s.ev.ringUp = true
  await : ∀ r, c = .user (.awaitIo r) → isThereAnError (s.reqs r).error = false → s.ev.ringUp = true
  batch : ∀ ret q l, c = .sub ret → (s.coros h).body = .submitAndWait q l → s.ev.ringUp = true
  kill : ∀ pc, (s.coros h).body = .killInternal pc → pc ≠ .begin → s.ev.ringUp = true

theorem avoids_coroStep {a : Act} (hup : f = .ringDown → s.CallsUp h (.user a)) :
    Avoids (.undefined f) (s.coroStep h a) := by
  have huser : Avoids (.undefined f) (s.userStep (some h) a) :=
    avoids_userStep hf (fun hring => (hup hring).guarded) fun hring ret ha => (hup hring).submit ret (by rw [ha])
  unfold coroStep
  cases a with
  | awaitTask v => exact avoids_awaitTask hf
  | awaitIo r => exact avoids_awaitIo hf fun hring => (hup hring).await r rfl
  | awaitOp p =>
    refine .bind (avoids_ioOp hf fun hring => (hup hring).guarded) ?_
    -- past LIVING no awaitable is made, and one that holds an entry was made on a ring that is up
    rintro ⟨r, s1⟩ h1
    refine avoids_awaitIo hf fun hring _ => (SameCounts.ioOp h1).ringUp.trans ?_
    by_contra hdown
    have h2 := (ioOp_ok h1).1
    rw [(hup hring).guarded (by simpa using hdown)] at h2
    cases h2
  | coReturn | throw => exact avoids_finish hf
  | _ => exact huser

theorem avoids_bodyStep (hup : f = .ringDown → s.CallsUp h c) : Avoids (.undefined f) (s.bodyStep h c) := by
  have huser : ∀ a, c = .user a → Avoids (.undefined f) (s.userStep none a) := fun a hc =>
    avoids_userStep hf (fun hring => (hup hring).guarded) fun hring ret ha => (hup hring).submit ret (by rw [hc, ha])
  unfold bodyStep
  split
  · exact avoids_coroStep hf hup
  · rename_i hb
    exact avoids_killInternal hf fun hring => (hup hring).kill _ hb
  · rename_i hb
    exact avoids_killInternal hf fun hring => (hup hring).kill _ hb
  · exact avoids_awaitTask hf
  · exact avoids_finish hf
  · rename_i q l hb
    split
    · exact avoids_submitAndWaitBegin hf fun hring => (hup hring).batch _ q l rfl hb
    · exact avoids_submitAndWaitLoop hf fun _ hne => absurd rfl hne
    · exact avoids_submitAndWaitLoop hf fun hring _ => (hup hring).batch _ q l rfl hb
    · exact .ok _
    · exact avoids_finish hf
    · exact huser _ rfl
    · exact avoids_disabled
  · split
    · exact avoids_pollBegin hf
    · exact avoids_pollNext hf
    · exact avoids_finish hf
    · exact huser _ rfl
    · exact avoids_disabled
  · exact avoids_disabled

/-! ### The loop -/

theorem avoids_awaitSeen (hup : f = .ringDown → s.ev.ringUp = true) : Avoids (.undefined f) s.awaitSeen := by
  unfold awaitSeen
  split
  · simp only
    split
    · exact avoids_resume hf
    · exact avoids_other hf rfl
    · exact .ok _
  · rename_i hdown
    rw [Avoids.error]
    rintro ⟨⟩
    exact hdown (hup rfl)

theorem avoids_ioSubmit {r : ReqId} {ret : ℤ} (hup : f = .ringDown → s.ev.ringUp = true) :
    Avoids (.undefined f) (s.ioSubmit h r ret) := by
  refine .bind (avoids_submitQueuedEntries hf hup) fun s1 _ => ?_
  split
  · exact avoids_resume hf
  · exact .ok _

end Io

end State

end EvManager
