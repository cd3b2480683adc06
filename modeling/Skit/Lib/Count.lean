import Mathlib.Data.Finset.Card

/-!
# Counters of parties

`Counts P n` says that exactly `n` parties satisfy `P`, out of any number of parties.
-/
namespace Skit.Lib

variable {ι : Type} [DecidableEq ι] {P Q : ι → Prop} {n : Nat} {i : ι}

def Counts (P : ι → Prop) (n : Nat) : Prop := ∃ F : Finset ι, (∀ i, i ∈ F ↔ P i) ∧ F.card = n

namespace Counts

omit [DecidableEq ι] in
theorem zero (h : ∀ i, ¬ P i) : Counts P 0 :=
  ⟨∅, fun i => iff_of_false (Finset.notMem_empty i) (h i), rfl⟩

omit [DecidableEq ι] in
theorem congr (h : Counts P n) (hPQ : ∀ i, Q i ↔ P i) : Counts Q n := by
  obtain ⟨F, hF, hcard⟩ := h
  exact ⟨F, fun i => (hF i).trans (hPQ i).symm, hcard⟩

omit [DecidableEq ι] in
theorem not_of_zero (h : Counts P 0) (i : ι) : ¬ P i := by
  obtain ⟨F, hF, hcard⟩ := h
  rw [← hF i, Finset.card_eq_zero.mp hcard]
  exact Finset.notMem_empty i

omit [DecidableEq ι] in
theorem eq_zero (h : Counts P n) (hP : ∀ i, ¬ P i) : n = 0 := by
  obtain ⟨F, hF, rfl⟩ := h
  exact Finset.card_eq_zero.mpr (Finset.eq_empty_of_forall_notMem fun i hi => hP i ((hF i).mp hi))

omit [DecidableEq ι] in
theorem card_le (h : Counts P n) {F : Finset ι} (hF : ∀ i ∈ F, P i) : F.card ≤ n := by
  obtain ⟨G, hG, rfl⟩ := h
  exact Finset.card_le_card fun i hi => (hG i).mpr (hF i hi)

omit [DecidableEq ι] in
theorem exists_succ (h : Counts P n) (hi : P i) : ∃ k, n = k + 1 := by
  have hle := h.card_le (F := {i}) fun j hj => Finset.mem_singleton.mp hj ▸ hi
  exact Nat.exists_eq_add_of_le' hle

/-- One more party. -/
theorem enter (h : Counts P n) (hi : ¬ P i) (hi' : Q i) (hne : ∀ j, j ≠ i → (Q j ↔ P j)) :
    Counts Q (n + 1) := by
  obtain ⟨F, hF, hcard⟩ := h
  refine ⟨insert i F, fun j => ?_, ?_⟩
  · by_cases hj : j = i
    · subst hj
      exact iff_of_true (Finset.mem_insert_self _ _) hi'
    · rw [Finset.mem_insert, hne j hj, ← hF j]
      exact or_iff_right hj
  · rw [Finset.card_insert_of_notMem (fun h => hi ((hF i).mp h)), hcard]

/-- One party less. -/
theorem leave (h : Counts P (n + 1)) (hi : P i) (hi' : ¬ Q i) (hne : ∀ j, j ≠ i → (Q j ↔ P j)) :
    Counts Q n := by
  obtain ⟨F, hF, hcard⟩ := h
  refine ⟨F.erase i, fun j => ?_, ?_⟩
  · by_cases hj : j = i
    · subst hj
      exact iff_of_false (Finset.notMem_erase _ _) hi'
    · rw [Finset.mem_erase, hne j hj, ← hF j]
      exact and_iff_right hj
  · rw [Finset.card_erase_of_mem ((hF i).mpr hi), hcard]
    rfl

end Counts

/-- A counter that follows a property of the places of the parties when one of them moves. -/
theorem counts_update {σ : Type} {place : ι → σ} {p : σ → Bool} {a b : σ} {n' : Nat}
    (h : Counts (fun j => p (place j) = true) n) (ha : place i = a)
    (hn : n' + (p a).toNat = n + (p b).toNat) :
    Counts (fun j => p (Function.update place i b j) = true) n' := by
  have hne : ∀ j, j ≠ i → (p (Function.update place i b j) = true ↔ p (place j) = true) := by
    intro j hj
    rw [Function.update_of_ne hj]
  have hi : p (Function.update place i b i) = p b := by rw [Function.update_self]
  cases hpa : p a with
  | false =>
    cases hpb : p b with
    | false =>
      rw [hpa, hpb] at hn
      obtain rfl : n' = n := hn
      refine h.congr fun j => ?_
      by_cases hj : j = i
      · subst hj
        rw [hi, hpb, ha, hpa]
      · exact hne j hj
    | true =>
      rw [hpa, hpb] at hn
      obtain rfl : n' = n + 1 := hn
      exact h.enter (by rw [ha, hpa]; exact Bool.false_ne_true) (hi.trans hpb) hne
  | true =>
    cases hpb : p b with
    | false =>
      rw [hpa, hpb] at hn
      obtain rfl : n' + 1 = n := hn
      exact h.leave (by rw [ha, hpa]) (by rw [hi, hpb]; exact Bool.false_ne_true) hne
    | true =>
      rw [hpa, hpb] at hn
      obtain rfl : n' = n := Nat.add_right_cancel hn
      refine h.congr fun j => ?_
      by_cases hj : j = i
      · subst hj
        rw [hi, hpb, ha, hpa]
      · exact hne j hj

end Skit.Lib
