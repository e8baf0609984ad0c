import Mathlib

set_option autoImplicit false

/-!
# Runs of two machines side by side

A machine is a step that answers the next state or none where it ends without one; a run is its
steps in order. Where one step of two machines keeps a relation and they end together, so does
every run.
-/
namespace SoutherNative.Simulation

variable {S T I : Type}

def Together (R : S → T → Prop) : Option S → Option T → Prop
  | some s, some t => R s t
  | none, none => True
  | _, _ => False

theorem Together.mono {R Q : S → T → Prop} {s : Option S} {t : Option T} (h : Together R s t)
    (hRQ : ∀ s t, R s t → Q s t) : Together Q s t := by
  cases s <;> cases t <;> first | exact h | exact hRQ _ _ h

/-- A relation every step keeps is kept by every run. -/
theorem together_foldlM {R : S → T → Prop} {f : S → I → Option S} {g : T → I → Option T}
    (hstep : ∀ s t i, R s t → Together R (f s i) (g t i)) {s : S} {t : T} (h : R s t)
    (steps : List I) : Together R (steps.foldlM f s) (steps.foldlM g t) := by
  induction steps generalizing s t with
  | nil => exact h
  | cons i steps ih =>
    have hi := hstep s t i h
    rw [List.foldlM_cons, List.foldlM_cons]
    cases hf : f s i with
    | none =>
      cases hg : g t i with
      | none => trivial
      | some t' => simp [hf, hg, Together] at hi
    | some s' =>
      cases hg : g t i with
      | none => simp [hf, hg, Together] at hi
      | some t' =>
        rw [hf, hg] at hi
        exact ih hi

end SoutherNative.Simulation
