import Mathlib.Init

/-!
# Transition systems

A system says what each action does in each state where it is enabled. A
restriction allows some of the enabled actions; a property of all states that
restricted runs reach follows from the initial states and from one step.
-/

namespace RaspiOrbSlam.Foundation

universe u v

structure TransitionSystem (σ : Type u) (ι : Type v) where
  Initial : σ → Prop
  step : σ → ι → Option σ

namespace TransitionSystem

variable {σ : Type u} {ι : Type v} (T : TransitionSystem σ ι)

/-- The state after the given actions, if each of them is allowed and enabled in turn. -/
def run (Allowed : σ → ι → Prop) [∀ s a, Decidable (Allowed s a)] (s : σ) : List ι → Option σ
  | [] => some s
  | a :: rest => if Allowed s a then (T.step s a).bind fun s' => run Allowed s' rest else none

/-- The states of the runs whose every step is allowed. -/
inductive ReachableBy (Allowed : σ → ι → Prop) : σ → Prop
  | initial {s : σ} : T.Initial s → ReachableBy Allowed s
  | step {s s' : σ} {a : ι} :
      ReachableBy Allowed s → Allowed s a → T.step s a = some s' → ReachableBy Allowed s'

/-- The states of all runs. -/
def Reachable : σ → Prop := T.ReachableBy fun _ _ => True

variable {T} {Allowed : σ → ι → Prop}

theorem ReachableBy.reachable {s : σ} (h : T.ReachableBy Allowed s) : T.Reachable s := by
  induction h with
  | initial h => exact .initial h
  | step _ _ hstep ih => exact .step ih trivial hstep

/-- What holds initially and is kept by every allowed step between reachable
states holds of every state reached. -/
theorem ReachableBy.invariant {Inv : σ → Prop} (hinit : ∀ s, T.Initial s → Inv s)
    (hstep : ∀ {s s' a}, T.ReachableBy Allowed s → Inv s → Allowed s a →
      T.step s a = some s' → Inv s') {s : σ} (h : T.ReachableBy Allowed s) : Inv s := by
  induction h with
  | initial h => exact hinit _ h
  | step hs ha h ih => exact hstep hs ih ha h

theorem ReachableBy.run [∀ s a, Decidable (Allowed s a)] {s s' : σ}
    (h : T.ReachableBy Allowed s) {actions : List ι} (hrun : T.run Allowed s actions = some s') :
    T.ReachableBy Allowed s' := by
  induction actions generalizing s with
  | nil => exact Option.some.inj hrun ▸ h
  | cons a rest ih =>
      rw [TransitionSystem.run] at hrun
      split at hrun
      · next ha =>
        obtain ⟨next, hnext, hrest⟩ := Option.bind_eq_some_iff.mp hrun
        exact ih (.step h ha hnext) hrest
      · cases hrun

end TransitionSystem

end RaspiOrbSlam.Foundation
