import Mathlib.Data.List.Infix

/-!
# Traces of labelled machines

A machine moves from state to state by labelled steps. A trace is the list of the labels of a
run, latest first, with the state it ends in.
-/
namespace Skit.Lib

structure Machine (σ Λ : Type) where
  init : σ → Prop
  step : σ → Λ → σ → Prop

variable {σ Λ : Type} {M : Machine σ Λ} {tr r : List Λ} {s : σ} {l : Λ}

inductive Trace (M : Machine σ Λ) : List Λ → σ → Prop
  | init {s : σ} : M.init s → Trace M [] s
  | step {tr : List Λ} {s s' : σ} {l : Λ} : Trace M tr s → M.step s l s' → Trace M (l :: tr) s'

namespace Trace

/-- What holds at the start and is kept by every step holds after every run. -/
theorem invariant {I : List Λ → σ → Prop} (h0 : ∀ s, M.init s → I [] s)
    (hs : ∀ tr s l s', Trace M tr s → M.step s l s' → I tr s → I (l :: tr) s')
    (h : Trace M tr s) : I tr s := by
  induction h with
  | init hi => exact h0 _ hi
  | step h hst ih => exact hs _ _ _ _ h hst ih

/-- Every beginning of a run is a run. -/
theorem of_suffix (h : Trace M tr s) (hr : r <:+ tr) : ∃ s', Trace M r s' := by
  induction h with
  | init hi => exact ⟨_, by rw [List.suffix_nil.mp hr]; exact .init hi⟩
  | step h hst ih =>
    rcases List.suffix_cons_iff.mp hr with rfl | hr
    · exact ⟨_, .step h hst⟩
    · exact ih hr

/-- The step of a label of a run. -/
theorem at_label (h : Trace M tr s) (hr : l :: r <:+ tr) :
    ∃ s₀ s₁, Trace M r s₀ ∧ M.step s₀ l s₁ := by
  obtain ⟨s₁, h₁⟩ := h.of_suffix hr
  cases h₁ with
  | step h₀ hst => exact ⟨_, _, h₀, hst⟩

end Trace

/-- Some run ends in a state with the property. -/
def Reaches (M : Machine σ Λ) (P : σ → Prop) : Prop := ∃ tr s, Trace M tr s ∧ P s

/-- A run goes on by one step, unless it need not. -/
theorem Reaches.step {P Q : σ → Prop} (h : Reaches M P)
    (hs : ∀ tr s, Trace M tr s → P s → Q s ∨ ∃ l s', M.step s l s' ∧ Q s') : Reaches M Q := by
  obtain ⟨tr, s, htr, hp⟩ := h
  rcases hs tr s htr hp with hq | ⟨l, s', hst, hq⟩
  · exact ⟨tr, s, htr, hq⟩
  · exact ⟨l :: tr, s', .step htr hst, hq⟩

end Skit.Lib
