import PySQL.Lib.Machine

/-!
# Specifications that machines refine

A specification may have several answers to one input.  A machine refines it if every history of
inputs and replies that the machine can produce is one that the specification allows.
-/

namespace Lib

structure Specification (τ ι ρ : Type*) where
  init : τ
  step : τ → ι → ρ → τ → Prop

/-- What an observer of a step sees. -/
def Event.observed {σ ι ρ : Type*} (e : Event σ ι ρ) : ι × ρ := (e.input, e.reply)

namespace Specification

variable {σ τ ι ρ : Type*} (A : Specification τ ι ρ)

/-- `A.Allows history t`: the history, oldest first, may lead from the initial state to `t`. -/
inductive Allows : List (ι × ρ) → τ → Prop where
  | nil : Allows [] A.init
  | snoc {history : List (ι × ρ)} {t t' : τ} {i : ι} {r : ρ} :
      Allows history t → A.step t i r t' → Allows (history ++ [(i, r)]) t'

variable {A}

/-- The invariant rule. -/
theorem Allows.invariant {I : List (ι × ρ) → τ → Prop} {history : List (ι × ρ)} {t : τ}
    (h : A.Allows history t) (h0 : I [] A.init)
    (hs : ∀ history t i r t', I history t → A.step t i r t' → I (history ++ [(i, r)]) t') :
    I history t := by
  induction h with
  | nil => exact h0
  | snoc _ hstep ih => exact hs _ _ _ _ _ ih hstep

/-- The simulation rule. -/
theorem allows_of_run {M : Machine σ ι ρ} {R : σ → τ → Prop} {tr : List (Event σ ι ρ)} {s : σ}
    (h : M.Run tr s) (h0 : R M.init A.init)
    (hs : ∀ s t i, R s t → M.enabled s i →
      ∃ t', A.step t i (M.step s i).2 t' ∧ R (M.step s i).1 t') :
    ∃ t, A.Allows (tr.map Event.observed) t ∧ R s t := by
  induction h with
  | nil => exact ⟨A.init, .nil, h0⟩
  | snoc i _ hi ih =>
    obtain ⟨t, hallows, hR⟩ := ih
    obtain ⟨t', hstep, hR'⟩ := hs _ t i hR hi
    refine ⟨t', ?_, hR'⟩
    rw [List.map_append]
    exact hallows.snoc hstep

end Specification

end Lib
