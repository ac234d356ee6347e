import Mathlib.Init

/-!
# Computations that keep their state when they fail

A failing step ends the computation, but what was done to the state before it
stays done.
-/

namespace RaspiOrbSlam.Foundation

universe u

abbrev Fallible (ε σ α : Type u) := ExceptT ε (StateM σ) α

namespace Fallible

variable {ε σ α γ : Type u}

theorem bind_ok {f : Fallible ε σ α} {g : α → Fallible ε σ γ} {s s' : σ} {a : α}
    (h : f s = (.ok a, s')) : (f >>= g) s = g a s' := by
  change (fun r : Except ε α × σ => ExceptT.bindCont g r.1 r.2) (f s) = _
  rw [h]
  rfl

theorem bind_error {f : Fallible ε σ α} {g : α → Fallible ε σ γ} {s s' : σ} {e : ε}
    (h : f s = (.error e, s')) : (f >>= g) s = (.error e, s') := by
  change (fun r : Except ε α × σ => ExceptT.bindCont g r.1 r.2) (f s) = _
  rw [h]
  rfl

end Fallible

end RaspiOrbSlam.Foundation
