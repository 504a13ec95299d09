import EvManager.Lib.Run

/-!
# Computations that avoid a fault

`Avoids e x` says that the computation `x` does not end with the fault `e`.  A bind avoids it when both of its parts
do, the second one on the values that the first one gives.
-/

namespace EvManager.Lib

variable {ε α β : Type} {e e' : ε}

/-- The computation does not end with the fault `e`. -/
def Avoids (e : ε) (x : Except ε α) : Prop := x ≠ .error e

namespace Avoids

@[simp] theorem ok (a : α) : Avoids e (.ok a) := by simp [Avoids]

@[simp] theorem pure (a : α) : Avoids e (pure a : Except ε α) := ok a

@[simp] theorem error : Avoids e (.error e' : Except ε α) ↔ e' ≠ e := by simp [Avoids]

theorem bind {x : Except ε α} {f : α → Except ε β} (hx : Avoids e x) (hf : ∀ a, x = .ok a → Avoids e (f a)) :
    Avoids e (x >>= f) := by
  cases x with
  | error e' => exact error.mpr (error.mp hx)
  | ok a => exact hf a rfl

theorem map {x : Except ε α} {f : α → β} (hx : Avoids e x) : Avoids e (x.map f) := by
  cases x with
  | error e' => exact error.mpr (error.mp hx)
  | ok a => exact ok _

end Avoids

end EvManager.Lib
