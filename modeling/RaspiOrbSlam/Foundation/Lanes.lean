import Mathlib.Data.List.Basic
import Mathlib.Logic.Function.Basic

/-! # Steps that work on one lane of a memory each

A loop whose steps read and write disjoint parts of one memory computes every
part from its initial contents, in whatever order the steps are taken. -/

namespace RaspiOrbSlam.Foundation

variable {ι κ μ α : Type*}

/-- What no step writes keeps its value. -/
theorem foldl_frame {step : (μ → α) → ι → μ → α} {x : μ} {is : List ι}
    (h : ∀ b, ∀ i ∈ is, step b i x = b x) (b : μ → α) : is.foldl step b x = b x := by
  induction is generalizing b with
  | nil => rfl
  | cons i is ih =>
      rw [List.foldl_cons, ih fun b j hj => h b j (List.mem_cons_of_mem i hj)]
      exact h b i List.mem_cons_self

/-- The contents of a lane after the loop, when each step transforms its own lane and leaves
the others. -/
theorem foldl_lane (lane : ι → κ → μ) {step : (μ → α) → ι → μ → α} {f : ι → (κ → α) → κ → α}
    (hown : ∀ b i k, step b i (lane i k) = f i (fun k => b (lane i k)) k)
    (hframe : ∀ b i j k, j ≠ i → step b i (lane j k) = b (lane j k)) {is : List ι}
    (hnodup : is.Nodup) {i : ι} (hi : i ∈ is) (b : μ → α) (k : κ) :
    is.foldl step b (lane i k) = f i (fun k => b (lane i k)) k := by
  induction is generalizing b with
  | nil => cases hi
  | cons j is ih =>
      obtain ⟨hj, hrest⟩ := List.nodup_cons.mp hnodup
      rw [List.foldl_cons]
      rcases List.mem_cons.mp hi with rfl | hmem
      · rw [foldl_frame]
        · exact hown b i k
        · intro c j' hj'
          apply hframe
          rintro rfl
          exact hj hj'
      · have hother : i ≠ j := by
          rintro rfl
          exact hj hmem
        rw [ih hrest hmem]
        congr 1
        ext k'
        exact hframe b j i k' hother

section Stores

variable [DecidableEq μ] (place : ι → μ) {values : ι → α} {is : List ι}

/-- Each place holds the value that was stored there. -/
theorem foldl_update (hplace : place.Injective) (hnodup : is.Nodup) {i : ι} (hi : i ∈ is)
    (b : μ → α) :
    is.foldl (fun b i => Function.update b (place i) (values i)) b (place i) = values i := by
  apply foldl_lane (fun i (_ : Unit) => place i) (f := fun i _ _ => values i) _ _
    hnodup hi b ()
  · intro b i _
    exact Function.update_self _ _ _
  · intro b i j _ hji
    exact Function.update_of_ne (hplace.ne hji) _ _

theorem foldl_update_of_ne {x : μ} (hx : ∀ i, x ≠ place i) (b : μ → α) :
    is.foldl (fun b i => Function.update b (place i) (values i)) b x = b x := by
  apply foldl_frame
  intro b i _
  exact Function.update_of_ne (hx i) _ _

end Stores

end RaspiOrbSlam.Foundation
