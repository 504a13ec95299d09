import Mathlib.Tactic.Common

/-!
# Runs of a partial step function

A system is given by a function `step : σ → γ → Except ε σ`: from a state and a choice it either goes on
to a next state or stops.  `Run step P s₀ s` says that `s` is reached from `s₀` by steps each of which
meets the condition `P` on the state before it and the choice taken.  A property of every reachable
state is a property of `Run step (fun _ _ => True) s₀`.
-/

namespace EvManager.Lib

variable {σ γ ε : Type}

/-- The states reached from `s₀` by steps that all meet `P`. -/
inductive Run (step : σ → γ → Except ε σ) (P : σ → γ → Prop) (s₀ : σ) : σ → Prop
  | refl : Run step P s₀ s₀
  | tail {s s' : σ} {c : γ} : Run step P s₀ s → P s c → step s c = .ok s' → Run step P s₀ s'

/-- The state after a list of choices, each of which meets the condition where it is taken. -/
def exec (step : σ → γ → Except ε σ) (P : σ → γ → Prop) [∀ s c, Decidable (P s c)] :
    σ → List γ → Option σ
  | s, [] => some s
  | s, c :: cs =>
    if P s c then
      match step s c with
      | .ok s' => exec step P s' cs
      | .error _ => none
    else none

/-- The states reached from `s₀` by steps that all meet `P`, with the number of those that meet `B`. -/
inductive RunCount (step : σ → γ → Except ε σ) (P B : σ → γ → Prop) (s₀ : σ) : ℕ → σ → Prop
  | refl : RunCount step P B s₀ 0 s₀
  | hit {n : ℕ} {s s' : σ} {c : γ} :
      RunCount step P B s₀ n s → P s c → B s c → step s c = .ok s' → RunCount step P B s₀ (n + 1) s'
  | miss {n : ℕ} {s s' : σ} {c : γ} :
      RunCount step P B s₀ n s → P s c → ¬ B s c → step s c = .ok s' → RunCount step P B s₀ n s'

theorem bind_ok {ε α β : Type} {x : Except ε α} {f : α → Except ε β} {b : β} :
    (x >>= f) = .ok b ↔ ∃ a, x = .ok a ∧ f a = .ok b := by
  cases x with
  | error e => simp [bind, Except.bind]
  | ok a => simp [bind, Except.bind]

theorem exec_append {step : σ → γ → Except ε σ} {P : σ → γ → Prop} [∀ s c, Decidable (P s c)]
    (cs cs' : List γ) (s : σ) :
    exec step P s (cs ++ cs') = (exec step P s cs).bind fun u => exec step P u cs' := by
  induction cs generalizing s with
  | nil => rfl
  | cons c cs ih =>
    simp only [List.cons_append, exec]
    split
    · split
      · exact ih _
      · rfl
    · rfl

/-- **The potential rule.**  A potential that every own step lowers and that another step raises by at most `b`
bounds how many steps are own. -/
theorem exec_potential {step : σ → γ → Except ε σ} {P : σ → γ → Prop} [∀ s c, Decidable (P s c)]
    {J : σ → Prop} (φ : σ → ℕ) (own : γ → Bool) (b : ℕ) (hJ : ∀ s c s', J s → step s c = .ok s' → J s')
    (hown : ∀ s c s', J s → own c = true → step s c = .ok s' → φ s' < φ s)
    (hother : ∀ s c s', J s → step s c = .ok s' → φ s' ≤ φ s + b) {cs : List γ} {s₀ s : σ} (h0 : J s₀)
    (h : exec step P s₀ cs = some s) : cs.countP own + φ s ≤ φ s₀ + b * cs.countP fun c => !own c := by
  induction cs generalizing s₀ with
  | nil =>
    obtain rfl : s₀ = s := Option.some.inj h
    simp
  | cons c cs ih =>
    simp only [exec] at h
    split at h
    · split at h
      · rename_i u hu
        have hle := ih (hJ _ _ _ h0 hu) h
        rw [List.countP_cons, List.countP_cons]
        cases hc : own c with
        | true =>
          have hlt := hown _ _ _ h0 hc hu
          simp only [if_true, Bool.not_true, Bool.false_eq_true, if_false, Nat.add_zero]
          omega
        | false =>
          have hle' := hother _ _ _ h0 hu
          simp only [Bool.false_eq_true, if_false, Bool.not_false, if_true, Nat.add_zero, Nat.mul_add, Nat.mul_one]
          omega
      · cases h
    · cases h

namespace Run

variable {step : σ → γ → Except ε σ} {P Q : σ → γ → Prop} {s₀ s s' : σ}

/-- **The invariant rule.**  What holds at the start and is kept by every step that meets the
condition holds of every state of the run. -/
theorem inv {I : σ → Prop} (h0 : I s₀)
    (hs : ∀ s c s', I s → P s c → step s c = .ok s' → I s') (h : Run step P s₀ s) : I s := by
  induction h with
  | refl => exact h0
  | tail _ hP hstep ih => exact hs _ _ _ ih hP hstep

/-- The invariant rule with an invariant already known: a step may use what is known before it. -/
theorem inv_of {I J : σ → Prop} (hJ : ∀ s, Run step P s₀ s → J s) (h0 : I s₀)
    (hs : ∀ s c s', J s → I s → P s c → step s c = .ok s' → I s') (h : Run step P s₀ s) : I s := by
  induction h with
  | refl => exact h0
  | tail hr hP hstep ih => exact hs _ _ _ (hJ _ hr) ih hP hstep

/-- A condition may be weakened where an invariant of the run gives the weaker one. -/
theorem mono_of {J : σ → Prop} (hJ : ∀ s, Run step P s₀ s → J s)
    (hPQ : ∀ s c, J s → P s c → Q s c) (h : Run step P s₀ s) : Run step Q s₀ s := by
  induction h with
  | refl => exact .refl
  | tail hr hP hstep ih => exact .tail ih (hPQ _ _ (hJ _ hr) hP) hstep

theorem mono (hPQ : ∀ s c, P s c → Q s c) (h : Run step P s₀ s) : Run step Q s₀ s :=
  h.mono_of (J := fun _ => True) (fun _ _ => trivial) fun s c _ => hPQ s c

theorem trans (h : Run step P s₀ s) (h' : Run step P s s') : Run step P s₀ s' := by
  induction h' with
  | refl => exact h
  | tail _ hP hstep ih => exact .tail ih hP hstep

/-- A list of choices that executes is a run. -/
theorem of_exec [∀ s c, Decidable (P s c)] :
    ∀ {cs : List γ} {s s' : σ}, exec step P s cs = some s' → Run step P s s'
  | [], s, s', h => by
    simp only [exec, Option.some.injEq] at h
    subst h
    exact .refl
  | c :: cs, s, s', h => by
    rw [exec] at h
    split at h
    · rename_i hP
      cases hst : step s c with
      | error e => simp [hst] at h
      | ok u =>
        simp only [hst] at h
        exact (Run.tail .refl hP hst).trans (of_exec h)
    · cases h

/-- What a check computes at the end of a list of choices holds of a state some run reaches. -/
theorem exists_of_exec [∀ s c, Decidable (P s c)] {cs : List γ} {p : σ → Bool}
    (h : (exec step P s₀ cs).map p = some true) : ∃ s, Run step P s₀ s ∧ p s = true := by
  cases hr : exec step P s₀ cs with
  | none => simp [hr] at h
  | some s =>
    simp only [hr, Option.map_some, Option.some.injEq] at h
    exact ⟨s, of_exec hr, h⟩

theorem exists_step_of_exec [∀ s c, Decidable (P s c)] {cs : List γ} {c : γ} {p : σ → σ → Bool}
    (h : ((exec step P s₀ cs).bind fun s => (step s c).toOption.map (p s)) = some true) :
    ∃ s s', Run step P s₀ s ∧ step s c = .ok s' ∧ p s s' = true := by
  cases hr : exec step P s₀ cs with
  | none => simp [hr] at h
  | some s =>
    rw [hr, Option.bind_some] at h
    cases hs : step s c with
    | error e => simp [hs, Except.toOption] at h
    | ok s' =>
      rw [hs] at h
      exact ⟨s, s', of_exec hr, hs, Option.some.inj h⟩

theorem count (B : σ → γ → Prop) (h : Run step P s₀ s) : ∃ n, RunCount step P B s₀ n s := by
  induction h with
  | refl => exact ⟨0, .refl⟩
  | @tail s s' c _ hP hstep ih =>
    obtain ⟨n, hn⟩ := ih
    by_cases hB : B s c
    · exact ⟨n + 1, hn.hit hP hB hstep⟩
    · exact ⟨n, hn.miss hP hB hstep⟩

end Run

namespace RunCount

variable {step : σ → γ → Except ε σ} {P B : σ → γ → Prop} {s₀ s : σ} {n : ℕ}

theorem run (h : RunCount step P B s₀ n s) : Run step P s₀ s := by
  induction h with
  | refl => exact .refl
  | hit _ hP _ hstep ih => exact .tail ih hP hstep
  | miss _ hP _ hstep ih => exact .tail ih hP hstep

theorem inv_of {I : ℕ → σ → Prop} {J : σ → Prop} (hJ : ∀ s, Run step P s₀ s → J s) (h0 : I 0 s₀)
    (hhit : ∀ n s c s', J s → I n s → P s c → B s c → step s c = .ok s' → I (n + 1) s')
    (hmiss : ∀ n s c s', J s → I n s → P s c → ¬ B s c → step s c = .ok s' → I n s')
    (h : RunCount step P B s₀ n s) : I n s := by
  induction h with
  | refl => exact h0
  | hit hr hP hB hstep ih => exact hhit _ _ _ _ (hJ _ hr.run) ih hP hB hstep
  | miss hr hP hB hstep ih => exact hmiss _ _ _ _ (hJ _ hr.run) ih hP hB hstep

/-- **The measure rule.**  A measure that every counted step lowers and no other step raises bounds how many steps
are counted. -/
theorem measure_of {J : σ → Prop} (μ : σ → ℕ) (hJ : ∀ s, Run step P s₀ s → J s)
    (hhit : ∀ s c s', J s → P s c → B s c → step s c = .ok s' → μ s' < μ s)
    (hmiss : ∀ s c s', J s → P s c → ¬ B s c → step s c = .ok s' → μ s' ≤ μ s) (h : RunCount step P B s₀ n s) :
    n + μ s ≤ μ s₀ := by
  induction h with
  | refl => exact Nat.le_of_eq (Nat.zero_add _)
  | hit hr hP hB hstep ih =>
    have hlt := hhit _ _ _ (hJ _ hr.run) hP hB hstep
    omega
  | miss hr hP hB hstep ih =>
    have hle := hmiss _ _ _ (hJ _ hr.run) hP hB hstep
    omega

end RunCount

end EvManager.Lib
