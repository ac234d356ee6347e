import Mathlib.Data.List.Infix

/-!
# Runs over a list of events

A system that takes every event in every state. If in a state with the property
one step keeps it exactly when it meets a condition, then a run has the property
throughout exactly when all its steps meet the condition.
-/

namespace RaspiOrbSlam.Foundation

variable {σ ι : Type*} (next : σ → ι → σ)

/-- The state after the given events. -/
def after (s : σ) (events : List ι) : σ := events.foldl next s

/-- Every event meets the condition in the state that it finds. -/
def StepsMeet (Condition : σ → ι → Prop) : σ → List ι → Prop
  | _, [] => True
  | s, e :: rest => Condition s e ∧ StepsMeet Condition (next s e) rest

theorem after_concat (s : σ) (events : List ι) (e : ι) :
    after next s (events ++ [e]) = next (after next s events) e :=
  List.foldl_append

/-- A beginning of the run that ends with `e` is the whole run or one without the last event. -/
theorem concat_prefix_concat {first events : List ι} {e last : ι} :
    first ++ [e] <+: events ++ [last] ↔ first = events ∧ e = last ∨ first ++ [e] <+: events := by
  rw [List.prefix_concat_iff]
  refine or_congr_left ⟨fun heq => ?_, ?_⟩
  · obtain ⟨hfirst, hlast⟩ := List.append_inj' heq rfl
    exact ⟨hfirst, List.singleton_inj.mp hlast⟩
  · rintro ⟨rfl, rfl⟩
    rfl

variable {next} {Inv Holds : σ → Prop} {Condition : σ → ι → Prop}

theorem holdsThroughout_iff (hinv : ∀ s e, Inv s → Inv (next s e))
    (hstep : ∀ s e, Inv s → Holds s → (Holds (next s e) ↔ Condition s e)) {s : σ} (hs : Inv s)
    (hholds : Holds s) (events : List ι) :
    (∀ first, first <+: events → Holds (after next s first)) ↔
      StepsMeet next Condition s events := by
  induction events generalizing s with
  | nil =>
      refine ⟨fun _ => trivial, ?_⟩
      intro _ first hfirst
      rw [List.prefix_nil.mp hfirst]
      exact hholds
  | cons e rest ih =>
      constructor
      · intro hall
        have hnext : Holds (next s e) := hall [e] ⟨rest, rfl⟩
        refine ⟨(hstep s e hs hholds).mp hnext, ?_⟩
        apply (ih (hinv s e hs) hnext).mp
        intro first hfirst
        exact hall (e :: first) (List.cons_prefix_cons.mpr ⟨rfl, hfirst⟩)
      · rintro ⟨hcond, hrest⟩ first hfirst
        have hnext := (hstep s e hs hholds).mpr hcond
        rcases List.prefix_cons_iff.mp hfirst with rfl | ⟨tail, rfl, htail⟩
        · exact hholds
        · exact (ih (hinv s e hs) hnext).mpr hrest tail htail

/-- A property that one step only loses, and loses exactly when the condition fails. -/
theorem holdsAtEnd_iff (hinv : ∀ s e, Inv s → Inv (next s e))
    (hstep : ∀ s e, Inv s → (Holds (next s e) ↔ Holds s ∧ Condition s e)) {s : σ} (hs : Inv s)
    (events : List ι) :
    Holds (after next s events) ↔ Holds s ∧ StepsMeet next Condition s events := by
  induction events generalizing s with
  | nil => exact (and_iff_left trivial).symm
  | cons e rest ih =>
      change Holds (after next (next s e) rest) ↔ _
      rw [ih (hinv s e hs), hstep s e hs, and_assoc]
      rfl

end RaspiOrbSlam.Foundation
