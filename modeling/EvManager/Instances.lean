import EvManager.Life

/-!
# Several managers

The statics `ring_instances` and `shared_ring_fd`, over every sequence of constructions of managers and of steps of
the programs that run on them.  A new manager attaches its ring to the worker pool of the ring that
`shared_ring_fd` names, so that descriptor has to be the one of a ring that is up.
-/

namespace EvManager

open Lib State

/-- The statics of `EventManager`. -/
structure Statics where
  sharedRingFd : ℤ := -1
  ringInstances : ℕ := 0
  deriving DecidableEq, Repr

/-- A manager among others: `_ring.ring_fd`, and the program that runs on it. -/
structure Instance where
  ringFd : ℤ
  state : State

/-- All managers that were constructed, in the order of their constructions. -/
structure World where
  statics : Statics := {}
  managers : List Instance := []

/-- What happens next. -/
inductive WorldAct
  /-- A manager is constructed: the ring set-up returns `ret`, and the ring it sets up has the descriptor `fd`. -/
  | construct (entries : ℕ) (ret fd : ℤ)
  /-- The program on the manager `i` takes a step. -/
  | run (i : ℕ) (c : Choice)
  deriving DecidableEq, Repr

/-- The ring of the manager was set up and was not exited. -/
def Instance.up (m : Instance) : Bool := m.state.ev.ringUp

/-- The last lines of `kill_internal`. -/
def Statics.exit (st : Statics) : Statics where
  ringInstances := decrement st.ringInstances
  sharedRingFd := if decrement st.ringInstances = 0 then -1 else st.sharedRingFd

namespace World

/-- What the constructor passes as `wq_fd`, when it attaches to another ring. -/
def wqFd (w : World) : Option ℤ :=
  if w.statics.sharedRingFd = -1 ∨ w.statics.ringInstances = 0 then none else some w.statics.sharedRingFd

/-- The constructor.  A descriptor the kernel gives is not negative and is not the one of a ring that is up. -/
def construct (entries : ℕ) (ret fd : ℤ) (w : World) : Except Stop World :=
  if ret < 0 then .ok { w with managers := w.managers ++ [⟨0, initFailed⟩] }
  else if 0 ≤ fd ∧ ∀ m ∈ w.managers, m.up = true → m.ringFd ≠ fd then
    .ok {
      statics := {
        sharedRingFd := if w.wqFd = none then fd else w.statics.sharedRingFd
        ringInstances := w.statics.ringInstances + 1 }
      managers := w.managers ++ [⟨fd, init entries⟩] }
  else .error .disabled

/-- The program on the manager `i` takes a step, which may exit the ring. -/
def runStep (i : ℕ) (c : Choice) (w : World) : Except Stop World :=
  match w.managers[i]? with
  | some m => do
    let s ← State.step m.state c
    return {
      statics := if m.up && !s.ev.ringUp then w.statics.exit else w.statics
      managers := w.managers.set i { m with state := s } }
  | none => .error .disabled

def step (w : World) : WorldAct → Except Stop World
  | .construct entries ret fd => w.construct entries ret fd
  | .run i c => w.runStep i c

/-- What the statics say of the managers: how many rings are up, and the descriptor of one of them. -/
structure Accounted (w : World) : Prop where
  instances : w.statics.ringInstances = w.managers.countP Instance.up
  shared : 0 < w.statics.ringInstances → ∃ m ∈ w.managers, m.up = true ∧ m.ringFd = w.statics.sharedRingFd

/-- A manager whose descriptor the others share exits its ring only when it is the last one. -/
def OwnerLast (w : World) : WorldAct → Prop
  | .construct .. => True
  | .run i _ => ∀ m ∈ w.managers[i]?, m.state.atExit = true →
      m.ringFd ≠ w.statics.sharedRingFd ∨ w.statics.ringInstances = 1

instance (w : World) : ∀ a, Decidable (w.OwnerLast a)
  | .construct .. => isTrue trivial
  | .run i _ => inferInstanceAs (Decidable (∀ m ∈ w.managers[i]?, m.state.atExit = true →
      m.ringFd ≠ w.statics.sharedRingFd ∨ w.statics.ringInstances = 1))

/-! ### One manager among the others -/

section Managers

variable {l : List Instance} {m m' : Instance} {i : ℕ}

theorem mem_set_of_ne (x : Instance) (hm : l[i]? = some m) (hm' : m' ∈ l) (hne : m' ≠ m) : m' ∈ l.set i x := by
  obtain ⟨j, hj, rfl⟩ := List.mem_iff_getElem.mp hm'
  have hij : i ≠ j := by
    rintro rfl
    exact hne (Option.some.inj ((List.getElem?_eq_getElem hj).symm.trans hm))
  refine List.mem_iff_getElem.mpr ⟨j, by simpa using hj, ?_⟩
  rw [List.getElem_set_ne hij]

/-- The rings that are up when one manager takes a step, which may exit its ring and no other. -/
theorem countP_up_set {s : State} (hm : l[i]? = some m) (hdown : s.ev.ringUp = true → m.up = true) :
    l.countP Instance.up = (l.set i { m with state := s }).countP Instance.up +
      if m.up && !s.ev.ringUp then 1 else 0 := by
  obtain ⟨hi, hget⟩ := List.getElem?_eq_some_iff.mp hm
  have hcount := List.countP_set (p := Instance.up) (l := l) (a := { m with state := s }) hi
  have hpos : m.up = true → 0 < l.countP Instance.up := fun hup =>
    List.countP_pos_iff.mpr ⟨m, List.mem_of_getElem? hm, hup⟩
  have hself : Instance.up { m with state := s } = s.ev.ringUp := rfl
  rw [hget, hself] at hcount
  rcases hup : m.up with _ | _ <;> rcases hup' : s.ev.ringUp with _ | _ <;> simp_all

end Managers

/-! ### The statics over a step -/

/-- The programs on the managers are in states they reach, and the statics fit. -/
structure Fit (w : World) : Prop where
  reachable : ∀ m ∈ w.managers, Reachable m.state
  fd : ∀ m ∈ w.managers, m.up = true → 0 ≤ m.ringFd
  accounted : w.Accounted

namespace Fit

variable {w w' : World}

theorem construct {entries : ℕ} {ret fd : ℤ} (hf : w.Fit) (hs : w.construct entries ret fd = .ok w') : w'.Fit := by
  unfold World.construct at hs
  split at hs
  · cases hs
    refine ⟨fun m hm => ?_, fun m hm hup => ?_, ?_, fun hpos => ?_⟩
    · rcases List.mem_append.mp hm with hm | hm
      · exact hf.reachable m hm
      · rw [List.mem_singleton.mp hm]
        exact ⟨_, .failed, .refl⟩
    · rcases List.mem_append.mp hm with hm | hm
      · exact hf.fd m hm hup
      · rw [List.mem_singleton.mp hm] at hup
        cases hup
    · rw [List.countP_append, hf.accounted.instances]
      rfl
    · obtain ⟨m, hm, hup⟩ := hf.accounted.shared hpos
      exact ⟨m, List.mem_append_left _ hm, hup⟩
  · split at hs
    · rename_i hfd
      cases hs
      refine ⟨fun m hm => ?_, fun m hm hup => ?_, ?_, fun _ => ?_⟩
      · rcases List.mem_append.mp hm with hm | hm
        · exact hf.reachable m hm
        · rw [List.mem_singleton.mp hm]
          exact ⟨_, .up entries, .refl⟩
      · rcases List.mem_append.mp hm with hm | hm
        · exact hf.fd m hm hup
        · rw [List.mem_singleton.mp hm]
          exact hfd.1
      · rw [List.countP_append, ← hf.accounted.instances]
        rfl
      · by_cases hw : w.wqFd = none
        · refine ⟨⟨fd, init entries⟩, by simp, rfl, ?_⟩
          rw [if_pos hw]
        · rw [if_neg hw]
          have hpos : 0 < w.statics.ringInstances := by
            by_contra hz
            exact hw (if_pos (.inr (by omega)))
          obtain ⟨m, hm, hup⟩ := hf.accounted.shared hpos
          exact ⟨m, List.mem_append_left _ hm, hup⟩
    · cases hs

theorem run {i : ℕ} {c : Choice} (hf : w.Fit) (ho : w.OwnerLast (.run i c)) (hs : w.runStep i c = .ok w') : w'.Fit := by
  unfold World.runStep at hs
  split at hs
  · rename_i m hm
    obtain ⟨s, hst, h1⟩ := bind_ok.mp hs
    cases h1
    have hmem : m ∈ w.managers := List.mem_of_getElem? hm
    have hself : { m with state := s } ∈ w.managers.set i { m with state := s } :=
      List.mem_set (List.getElem?_eq_some_iff.mp hm).1 _
    have hdown : s.ev.ringUp = true → m.up = true := ringUp_of_step hst
    have hcount := countP_up_set hm hdown
    have hins := hf.accounted.instances
    refine ⟨fun m' hm' => ?_, fun m' hm' hup => ?_, ?_⟩
    · rcases List.mem_or_eq_of_mem_set hm' with hm' | rfl
      · exact hf.reachable m' hm'
      · obtain ⟨s₀, h0, hr⟩ := hf.reachable m hmem
        exact ⟨s₀, h0, hr.tail trivial hst⟩
    · rcases List.mem_or_eq_of_mem_set hm' with hm' | rfl
      · exact hf.fd m' hm' hup
      · exact hf.fd m hmem (hdown hup)
    · by_cases hexit : (m.up && !s.ev.ringUp) = true
      · -- `kill_internal` exits the ring
        rw [if_pos hexit] at hcount ⊢
        obtain ⟨hup, hup'⟩ : m.up = true ∧ s.ev.ringUp = false := by simpa using hexit
        have hdec : decrement w.statics.ringInstances = w.statics.ringInstances - 1 := if_neg (by omega)
        refine ⟨?_, fun hpos => ?_⟩
        · show decrement w.statics.ringInstances = (w.managers.set i { m with state := s }).countP Instance.up
          omega
        · have hpos' : 0 < w.statics.ringInstances - 1 := hdec ▸ hpos
          obtain ⟨m', hm', hu, hfd⟩ := hf.accounted.shared (by omega)
          have hshared : w.statics.exit.sharedRingFd = w.statics.sharedRingFd := if_neg (by omega)
          refine ⟨m', mem_set_of_ne _ hm hm' ?_, hu, hfd.trans hshared.symm⟩
          rintro rfl
          rcases ho m' hm (atExit_of_step hst hup hup') with hne | hone
          · exact hne hfd
          · omega
      · rw [if_neg hexit] at hcount ⊢
        refine ⟨hins.trans hcount, fun hpos => ?_⟩
        obtain ⟨m', hm', hu, hfd⟩ := hf.accounted.shared hpos
        by_cases hmm : m' = m
        · subst hmm
          have hup' : s.ev.ringUp = true := by
            rw [hu] at hexit
            simpa using hexit
          exact ⟨_, hself, hup', hfd⟩
        · exact ⟨m', mem_set_of_ne _ hm hm' hmm, hu, hfd⟩
  · cases hs

theorem step {a : WorldAct} (hf : w.Fit) (ho : w.OwnerLast a) (hs : w.step a = .ok w') : w'.Fit := by
  cases a with
  | construct entries ret fd => exact hf.construct hs
  | run i c => exact hf.run ho hs

end Fit

end World

/-- **The statics fit the managers**, in every run in which a manager whose descriptor the others share exits its
ring only when it is the last one: `ring_instances` is the number of rings that are up, `shared_ring_fd` is the
descriptor of one of them, and so is what a new manager attaches to. -/
theorem statics_accounted {w : World} (h : Run World.step World.OwnerLast {} w) :
    w.Accounted ∧ ∀ fd, w.wqFd = some fd → ∃ m ∈ w.managers, m.up = true ∧ m.ringFd = fd := by
  have hf : w.Fit := by
    refine h.inv ⟨fun m hm => ?_, fun m hm => ?_, rfl, fun hpos => absurd hpos (lt_irrefl 0)⟩
      fun w a w' hf ho hs => hf.step ho hs
    · cases hm
    · cases hm
  refine ⟨hf.accounted, fun fd hfd => ?_⟩
  unfold World.wqFd at hfd
  split at hfd
  · cases hfd
  · rename_i hne
    cases hfd
    exact hf.accounted.shared (by omega)

/-- The program on the manager `i` kills it from a coroutine whose read has completed. -/
def killRun (i : ℕ) : List WorldAct :=
  [.user .call, .user (.registerCoro 0), .user (.awaitOp (.read {})), .sub 1, .tau, .pick 0 false, .user .start,
    .message 0, .cqe 0 1 0, .user .kill, .user (.awaitTask 1), .tau, .tau, .tau, .tau, .sub 1, .tau, .tau, .tau, .tau,
    .tau, .tau, .tau, .tau, .tau, .message 0, .cqe 0 0 0, .tau, .tau].map (.run i)

/-- Two managers, of which the second is killed; a third would attach to the first. -/
theorem statics_accounted_two : ∃ w : World, w.wqFd = some 5 ∧ w.statics.ringInstances = 1 ∧ w.Accounted := by
  have he : (exec World.step World.OwnerLast {} (.construct 4 0 5 :: .construct 4 0 6 :: killRun 1)).map (fun w =>
      decide (w.wqFd = some 5 ∧ w.statics.ringInstances = 1)) = some true := by decide
  obtain ⟨w, hrun, hw⟩ := Run.exists_of_exec he
  exact ⟨w, (of_decide_eq_true hw).1, (of_decide_eq_true hw).2, (statics_accounted hrun).1⟩

/-- Two managers, of which the first is killed: a third would attach to a ring that was exited. -/
theorem statics_accounted_fails : ¬ ∀ w : World, Run World.step (fun _ _ => True) {} w →
    w.Accounted ∧ ∀ fd, w.wqFd = some fd → ∃ m ∈ w.managers, m.up = true ∧ m.ringFd = fd := by
  intro hall
  have he : (exec World.step (fun _ _ => True) {} (.construct 4 0 5 :: .construct 4 0 6 :: killRun 0)).map (fun w =>
      decide (w.wqFd = some 5 ∧ ∀ m ∈ w.managers, m.up = true → m.ringFd ≠ 5)) = some true := by decide
  obtain ⟨w, hrun, hw⟩ := Run.exists_of_exec he
  obtain ⟨hfd, hno⟩ := of_decide_eq_true hw
  obtain ⟨m, hm, hup, h5⟩ := (hall w hrun).2 5 hfd
  exact hno m hm hup h5

end EvManager
