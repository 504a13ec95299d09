import EvManager.Frame

/-!
# What a step does

`Effect s c s'` lists what a step from `s` with the choice `c` can do: nothing but moving coroutines, or one
of the operations on the ring, the stores and the life state, with quiet parts around it.  **`step_effect`**
splits every step of the program accordingly.
-/

namespace EvManager

open Lib State

/-- The result of the `io_uring_submit` a choice is about. -/
def Choice.ret : Choice → Option ℤ
  | .sub ret | .user (.na _ ret) | .user (.submitQueuedEntries ret) => some ret
  | _ => none

/-- The step makes the coroutine `h` wait in `poll`: a poll begins while none is under way, or its handler has
it go on. -/
def State.Arms (h : CoroId) (c : Choice) (s : State) : Prop :=
  (s.coros h).body = .poll .begin ∧ c = .tau ∧ s.ev.pollingRequests = false ∨
    (s.coros h).body = .poll .handler ∧ c = .user (.handlerReturn false)

theorem State.Arms.kind {h : CoroId} {c : Choice} {s : State} (ha : s.Arms h c) : (s.coros h).body.kind = .poll := by
  rcases ha with ⟨hb, -⟩ | ⟨hb, -⟩ <;> rw [hb] <;> rfl

/-- The record that the step hands to `event_handler`: that of a completion, or one that was parked. -/
def State.handed (s : State) (c : Choice) : Option ReqId :=
  match s.stack, c with
  | .awaitWait :: _, .cqe i _ _ => if s.ev.ringUp then s.ev.ring.inFlight[i]?.bind fun x => x.sqe.userData else none
  | .start :: _, .message _ =>
    if s.ev.managerLifeState.rank < LivingState.dead.rank ∧ s.ev.pollingHandle ≠ none then
      s.ev.readyRequestsStore.head?.map Prod.snd
    else none
  | _, _ => none

/-- The step hands `event_handler` no awaitable that is held after its `co_await` has returned. -/
def State.OnTime (s : State) (c : Choice) : Prop := ∀ r ∈ s.handed c, (s.reqs r).held = false

instance (s : State) (c : Choice) : Decidable (s.OnTime c) := by unfold State.OnTime; infer_instance

inductive Effect (s : State) : Choice → State → Prop
  | quiet {c : Choice} {s' : State} : Quiet s s' → Effect s c s'
  | io {ctx : Option CoroId} {p : ParameterPack} {r : ReqId} {s' : State} :
      s.ioOp ctx p = .ok (r, s') → Effect s (.user (.io p)) s'
  | awaitIo {h : CoroId} {rest : List Activation} {r : ReqId} {s' : State} :
      s.stack = .run h :: rest → s.awaitIo h r = .ok s' → Effect s (.user (.awaitIo r)) s'
  | awaitOp {h : CoroId} {rest : List Activation} {p : ParameterPack} {r : ReqId} {s1 s' : State} :
      s.stack = .run h :: rest → s.ioOp (some h) p = .ok (r, s1) → s1.awaitIo h r = .ok s' →
      Effect s (.user (.awaitOp p)) s'
  | na {p : ParameterPack} {ret : ℤ} {e : Errnos} {s' : State} :
      s.naOp p ret = .ok (e, s') → Effect s (.user (.na p ret)) s'
  | submit {c : Choice} {ret : ℤ} {s1 s2 s' : State} :
      c.ret = some ret → (∀ p ret, c ≠ .user (.na p ret)) → Quiet s s1 → s1.submitQueuedEntries ret = .ok s2 →
      Quiet s2 s' → Effect s c s'
  | rawSqe {j : Option ℕ} {s' : State} :
      s.getUringSqe .raw = .ok (j, s') → Effect s (.user .getUringSqe) s'
  | start : s.ev.managerLifeState = .notStarted →
      Effect s (.user .start) ((s.modEv fun ev => { ev with managerLifeState := .living }).push .start)
  | leave {rest : List Activation} : s.stack = .start :: rest → s.ev.managerLifeState = .dead →
      Effect s .tau s.pop
  | message {base : Addr} {rest : List Activation} {s' : State} :
      s.stack = .start :: rest → s.awaitMessage base = .ok s' → Effect s (.message base) s'
  | cqe {i : ℕ} {res : ℤ} {base : Addr} {rest : List Activation} {s' : State} :
      s.stack = .awaitWait :: rest → s.awaitCqe i res base = .ok s' → Effect s (.cqe i res base) s'
  | seen {rest : List Activation} {s' : State} :
      s.stack = .awaitSeen :: rest → s.awaitSeen = .ok s' → Effect s .tau s'
  | handlerReturn {r : ReqId} {h : CoroId} {rest : List Activation} {s' : State} :
      s.stack = .eventHandler r h :: rest → s.pop.eventHandlerReturn r h = .ok s' → Effect s .tau s'
  | dying {h : CoroId} {rest : List Activation} : s.stack = .run h :: rest →
      (s.coros h).body = .killInternal .begin → s.ev.managerLifeState.rank < LivingState.dying.rank →
      Effect s .tau ((s.modEv fun ev => { ev with managerLifeState := .dying }).setBody h (.killInternal (.flush 0)))
  | cancel {h : CoroId} {rest : List Activation} {j : ℕ} {s1 : State} : s.stack = .run h :: rest →
      (s.coros h).body = .killInternal .cancel → s.ioUringGetSqe .cancel = .ok (some j, s1) →
      Effect s .tau ((s1.writeSqe j (Slot.prep (ioUringPrepCancel 0 cancelFlags))).setBody h
        (.killInternal (.flushCancel 0)))
  | dead {h : CoroId} {rest : List Activation} {s' : State} : s.stack = .run h :: rest →
      (s.coros h).body = .killInternal .wait → s.ev.inFlightRequests = 0 →
      (s.modEv fun ev => { ev with managerLifeState := .dead, ringUp := false }).finish h (some 0) = .ok s' →
      Effect s .tau s'
  | batch {h : CoroId} {rest : List Activation} {q : RequestQueue} {l : BatchLocals} {ret : ℤ} {s' : State} :
      s.stack = .run h :: rest → (s.coros h).body = .submitAndWait q l → l.pc = .begin →
      s.submitAndWaitBegin h q ret = .ok s' → Effect s (.sub ret) s'
  | poll {c : Choice} {h : CoroId} {rest : List Activation} {s1 : State} :
      s.stack = .run h :: rest → s.Arms h c → s1.stack = s.stack → s1.coros = s.coros →
      Quiet s s1 → Effect s c (s1.pollWait h)
  | register {v : VarId} {idx : ℕ} {grow : Bool} {rest : List Activation} {s' : State} :
      s.stack = .registerCoro v :: rest → s.pop.registerCoroReturn v idx grow = .ok s' →
      Effect s (.pick idx grow) s'

/-! ### One operation at a time -/

section Parts

variable {s s' : State} {h : CoroId} {rest : List Activation}

theorem submitQueuedEntries_stack {ret : ℤ} (hs : s.submitQueuedEntries ret = .ok s') :
    s'.stack = s.stack ∧ s'.coros = s.coros := by
  unfold submitQueuedEntries at hs
  split at hs
  · split at hs
    · cases hs
      exact ⟨rfl, rfl⟩
    · cases hs
  · cases hs

theorem ioUringGetSqe_none {p : Purpose} (hs : s.ioUringGetSqe p = .ok (none, s')) : s' = s := by
  unfold ioUringGetSqe at hs
  split at hs
  · split at hs <;> cases hs
    rfl
  · cases hs

/-- Trying again does not help, the ring being as it was. -/
theorem cancelSqe_ok {j : Option ℕ} {n : ℕ} (hs : s.cancelSqe n = .ok (j, s')) :
    (j = none ∧ s' = s) ∨ s.ioUringGetSqe .cancel = .ok (j, s') := by
  induction n with
  | zero =>
    cases hs
    exact .inl ⟨rfl, rfl⟩
  | succ n ih =>
    unfold cancelSqe at hs
    obtain ⟨⟨j', s1⟩, h1, h2⟩ := bind_ok.mp hs
    cases j' with
    | some j' =>
      cases h2
      exact .inr h1
    | none =>
      obtain rfl := ioUringGetSqe_none h1
      exact ih h2

theorem effect_userStep {ctx : Option CoroId} {a : Act} (hs : s.userStep ctx a = .ok s') :
    Effect s (.user a) s' := by
  cases a with
  | call | submitAndWait q | poll | kill =>
    cases hs
    exact .quiet (.call ctx (by simp [Body.kind]) s)
  | startTask v => exact .quiet (.startTask hs)
  | registerCoro v => exact .quiet ((Quiet.push rfl s).trans (.startTask hs))
  | destroyTask v =>
    cases hs
    exact .quiet (.destroyTask ..)
  | io p =>
    simp only [userStep, Except.map] at hs
    split at hs
    · cases hs
    · rename_i x hx
      cases hs
      exact .io (r := x.1) hx
  | dropAwaitable r =>
    simp only [userStep] at hs
    split at hs
    · cases hs
      refine .quiet (.modReq r ?_ ?_ ?_ ?_ ?_ s)
      · exact fun _ => rfl
      · exact fun _ => rfl
      · exact fun _ => rfl
      · exact fun _ hl => by simp at hl
      · exact fun _ hk => by simp at hk
    · cases hs
  | na p ret =>
    simp only [userStep, Except.map] at hs
    split at hs
    · cases hs
    · rename_i x hx
      cases hs
      exact .na (e := x.1) hx
  | submitQueuedEntries ret =>
    exact .submit rfl (by simp) (.refl s) hs (.refl s')
  | getUringSqe =>
    simp only [userStep, Except.map] at hs
    split at hs
    · cases hs
    · rename_i x hx
      cases hs
      exact .rawSqe (j := x.1) hx
  | start =>
    cases hs
    unfold startLoop
    split
    · exact .quiet (.refl s)
    · rename_i hl
      refine .start ?_
      generalize s.ev.managerLifeState = l at hl
      cases l <;> simp_all [LivingState.rank]
  | consume h rt =>
    simp only [userStep] at hs
    split at hs <;> cases hs
    exact .quiet (.modPromise ..)
  | awaitTask | awaitIo | awaitOp | coReturn | throw | handlerReturn => cases hs

theorem effect_coroStep {a : Act} (hst : s.stack = .run h :: rest) (hs : s.coroStep h a = .ok s') :
    Effect s (.user a) s' := by
  unfold coroStep at hs
  split at hs
  · exact .quiet (.awaitTask hst hs)
  · exact .awaitIo hst hs
  · obtain ⟨⟨r, s1⟩, h1, hs⟩ := bind_ok.mp hs
    exact .awaitOp hst h1 hs
  · exact .quiet (.finish hst hs)
  · exact .quiet (.finish hst hs)
  · exact effect_userStep hs

theorem effect_flushLoop {pc : ℕ → KillPc} {iter : ℕ} {ret : Option ℤ} {next : State → Except Stop State}
    {c : Choice} (hst : s.stack = .run h :: rest) (hb : (s.coros h).body.kind = .killInternal)
    (hc : ∀ r, ret = some r → c = .sub r)
    (hn : ∀ s', next s = .ok s' → Quiet s s') (hs : s.flushLoop h pc iter ret next = .ok s') :
    Effect s c s' := by
  unfold flushLoop at hs
  split at hs
  · split at hs
    · split at hs
      · rename_i ret
        obtain ⟨s2, h2, hs⟩ := bind_ok.mp hs
        cases hs
        obtain rfl := hc ret rfl
        refine .submit rfl (by simp) (.refl s) h2 (.setBody ?_)
        rw [(submitQueuedEntries_stack h2).2, hb]
        rfl
      · cases hs
    · split at hs
      · split at hs
        · exact .quiet (.finish hst hs)
        · exact .quiet (hn _ hs)
      · cases hs
  · cases hs

theorem effect_killInternal {pc : KillPc} {ret : Option ℤ} {c : Choice} (hst : s.stack = .run h :: rest)
    (hb : (s.coros h).body = .killInternal pc) (hc : c = match ret with | none => .tau | some r => .sub r)
    (hs : s.killInternal h pc ret = .ok s') : Effect s c s' := by
  have hsub : ∀ r, ret = some r → c = .sub r := fun r hr => by rw [hc, hr]
  have htau : ret = none → c = .tau := fun hr => by rw [hc, hr]
  have hk : (s.coros h).body.kind = .killInternal := by rw [hb]; rfl
  cases pc with
  | begin =>
    simp only [State.killInternal] at hs
    split at hs
    · rename_i hr
      obtain rfl := htau hr
      split at hs
      · exact .quiet (.finish hst hs)
      · rename_i hl
        cases hs
        exact .dying hst hb (by omega)
    · cases hs
  | flush iter =>
    simp only [State.killInternal] at hs
    refine effect_flushLoop hst hk hsub (fun s' hn => ?_) hs
    cases hn
    exact .setBody hk.symm
  | cancel =>
    simp only [State.killInternal] at hs
    split at hs
    · rename_i hr
      obtain rfl := htau hr
      obtain ⟨⟨j, s1⟩, h1, h2⟩ := bind_ok.mp hs
      cases j with
      | none =>
        rcases cancelSqe_ok h1 with ⟨-, rfl⟩ | h1
        · exact .quiet (.finish hst h2)
        · obtain rfl := ioUringGetSqe_none h1
          exact .quiet (.finish hst h2)
      | some j =>
        rcases cancelSqe_ok h1 with ⟨hj, -⟩ | h1
        · cases hj
        · cases h2
          exact .cancel hst hb h1
    · cases hs
  | flushCancel iter =>
    simp only [State.killInternal] at hs
    refine effect_flushLoop hst hk hsub (fun s' hn => ?_) hs
    cases hn
    exact .setBody hk.symm
  | wait =>
    simp only [State.killInternal] at hs
    split at hs
    · rename_i hr
      obtain rfl := htau hr
      split at hs
      · cases hs
        exact .quiet (.suspend (by simp) hst)
      · rename_i h0
        exact .dead hst hb (not_not.mp h0) hs
    · cases hs

theorem effect_submitAndWaitLoop {q : RequestQueue} {l : BatchLocals} {ret : Option ℤ} {c : Choice}
    (hst : s.stack = .run h :: rest) (hb : (s.coros h).body.kind = .submitAndWait q)
    (hc : ∀ r, ret = some r → c = .sub r) (hs : s.submitAndWaitLoop h q l ret = .ok s') : Effect s c s' := by
  unfold submitAndWaitLoop at hs
  split at hs
  · split at hs
    · exact .quiet (.finish hst hs)
    · cases hs
  · split at hs
    · split at hs
      · rename_i ret
        obtain ⟨s2, h2, hs⟩ := bind_ok.mp hs
        obtain rfl := hc ret rfl
        refine .submit rfl (by simp) (.refl s) h2 ?_
        split at hs
        · exact .finish (by rw [(submitQueuedEntries_stack h2).1, hst]) hs
        · cases hs
          refine .setBody ?_
          rw [(submitQueuedEntries_stack h2).2, hb]
          rfl
      · cases hs
    · split at hs
      · cases hs
        exact .quiet ((Quiet.setBody (b := .submitAndWait q _) hb.symm).trans (.suspend (by simp) hst))
      · cases hs

theorem effect_pollBegin (hst : s.stack = .run h :: rest) (hb : (s.coros h).body = .poll .begin)
    (hs : s.pollBegin h = .ok s') : Effect s .tau s' := by
  unfold pollBegin at hs
  split at hs
  · exact .quiet (.finish hst hs)
  · rename_i hp
    cases hs
    exact .poll hst (.inl ⟨hb, rfl, by simpa using hp⟩) rfl rfl { Quiet.refl s with steady := .of_eq rfl rfl rfl }

theorem effect_pollNext {stop : Bool} (hst : s.stack = .run h :: rest) (hb : (s.coros h).body = .poll .handler)
    (hs : s.pollNext h stop = .ok s') : Effect s (.user (.handlerReturn stop)) s' := by
  unfold pollNext at hs
  split at hs
  · refine .quiet (.trans ?_ (.finish (by exact hst) hs))
    exact { Quiet.refl s with steady := .of_eq rfl rfl rfl }
  · rename_i hstop
    cases hs
    have hstop' : stop = false := by simpa using hstop
    exact .poll hst (.inr ⟨hb, by rw [hstop']⟩) rfl rfl (.refl s)

theorem effect_submitAndWaitNext {q : RequestQueue} {l : BatchLocals} {i : ℕ}
    (hst : s.stack = .run h :: rest) (hb : (s.coros h).body.kind = .submitAndWait q) :
    Quiet s (s.submitAndWaitNext h q l i) := by
  unfold submitAndWaitNext
  split
  · exact (Quiet.setBody (b := .submitAndWait q _) hb.symm).trans (.suspend (by simp) hst)
  · exact .setBody hb.symm

theorem effect_bodyStep {c : Choice} (hst : s.stack = .run h :: rest) (hs : s.bodyStep h c = .ok s') :
    Effect s c s' := by
  unfold bodyStep at hs
  split at hs
  · exact effect_coroStep hst hs
  · rename_i hb
    exact effect_killInternal hst hb rfl hs
  · rename_i hb
    exact effect_killInternal hst hb rfl hs
  · exact .quiet (.awaitTask hst hs)
  · exact .quiet (.finish hst hs)
  · rename_i q l hb
    have hk : (s.coros h).body.kind = .submitAndWait q := by rw [hb]; rfl
    split at hs
    · rename_i hpc
      exact .batch hst hb hpc hs
    · exact effect_submitAndWaitLoop hst hk (by simp) hs
    · exact effect_submitAndWaitLoop hst hk (by simp) hs
    · cases hs
      exact .quiet (effect_submitAndWaitNext hst hk)
    · exact .quiet (.finish hst hs)
    · exact effect_userStep hs
    · cases hs
  · rename_i hb
    split at hs
    · exact effect_pollBegin hst hb hs
    · exact effect_pollNext hst hb hs
    · exact .quiet (.finish hst hs)
    · exact effect_userStep hs
    · cases hs
  · cases hs

theorem effect_ioSubmit {r : ReqId} {ret : ℤ} (hst : s.stack = .ioSubmit h r :: rest)
    (hs : s.ioSubmit h r ret = .ok s') : Effect s (.sub ret) s' := by
  unfold State.ioSubmit at hs
  obtain ⟨s2, h2, hs⟩ := bind_ok.mp hs
  refine .submit rfl (by simp) (.pop hst rfl) h2 ?_
  split at hs
  · refine (Quiet.modReq r ?_ ?_ ?_ ?_ ?_ s2).trans (.resume hs)
    · exact fun _ => rfl
    · exact fun _ => rfl
    · exact fun _ => rfl
    · exact fun _ hl => hl
    · exact fun _ hk => hk
  · cases hs
    exact .refl _

end Parts

/-- **Every step of the program has one of the effects.** -/
theorem step_effect {s s' : State} {c : Choice} (hs : step s c = .ok s') : Effect s c s' := by
  unfold step at hs
  split at hs
  · exact effect_userStep hs
  · rename_i hst
    split at hs
    · exact .message hst hs
    · cases hs
  · rename_i hst
    split at hs
    · cases hs
    · rename_i hl
      cases hs
      refine .leave hst ?_
      generalize s.ev.managerLifeState = l at hl
      cases l <;> simp_all [LivingState.rank]
  · rename_i hst
    exact .cqe hst hs
  · cases hs
  · rename_i hst
    exact .seen hst hs
  · rename_i hst
    exact .handlerReturn hst hs
  · rename_i hst
    exact effect_bodyStep hst hs
  · rename_i hst
    exact .quiet ((Quiet.pop hst rfl).trans (.startReturn hs))
  · rename_i hst
    exact .register hst hs
  · rename_i hst
    exact .quiet ((Quiet.pop hst rfl).trans (.awaitSuspendTail hs))
  · rename_i hst
    cases hs
    exact .quiet ((Quiet.pop hst rfl).trans (.finalReturn ..))
  · rename_i hst
    exact effect_ioSubmit hst hs
  · cases hs

end EvManager
