import Mathlib.Data.List.Basic

/-!
# Actions whose order and number do not matter

An action may fail. Where doing an action a second time changes nothing and two actions may be
exchanged, what a list of actions makes of a state depends only on which actions are in it.
-/
namespace Skit.Lib.Commute
open List

variable {ι σ : Type} {S : ι → Prop} {I : σ → Prop} {act : σ → ι → Option σ} {i j : ι}
  {l l' : List ι} {s t u : σ}

/-- The laws of the actions in `S` on the states in `I`. -/
structure Laws (S : ι → Prop) (I : σ → Prop) (act : σ → ι → Option σ) : Prop where
  keep : ∀ {i s t}, S i → I s → act s i = some t → I t
  again : ∀ {i s t}, S i → I s → act s i = some t → act t i = some t
  swap : ∀ {i j s t u}, S i → S j → i ≠ j → I s → act s i = some t → act t j = some u →
    ∃ t', act s j = some t' ∧ act t' i = some u

theorem foldlM_cons_eq_some_iff :
    (i :: l).foldlM act s = some u ↔ ∃ t, act s i = some t ∧ l.foldlM act t = some u := by
  rw [foldlM_cons]
  exact Option.bind_eq_some_iff

theorem foldlM_append_eq_some_iff :
    (l ++ l').foldlM act s = some u ↔
      ∃ t, l.foldlM act s = some t ∧ l'.foldlM act t = some u := by
  rw [foldlM_append]
  exact Option.bind_eq_some_iff

/-- A list of actions that change nothing changes nothing. -/
theorem foldlM_fixed (hfix : ∀ i ∈ l, act s i = some s) : l.foldlM act s = some s := by
  induction l with
  | nil => rfl
  | cons i l ih =>
    refine foldlM_cons_eq_some_iff.mpr ⟨s, hfix i mem_cons_self, ih fun j hj => ?_⟩
    exact hfix j (mem_cons_of_mem _ hj)

/-- An action that fails in every state makes every list with it fail. -/
theorem foldlM_eq_none (hi : i ∈ l) (hfail : ∀ s, act s i = none) : l.foldlM act s = none := by
  induction l generalizing s with
  | nil => cases hi
  | cons j l ih =>
    rw [foldlM_cons]
    rcases mem_cons.mp hi with rfl | hi
    · rw [hfail s]
      rfl
    · cases act s j with
      | none => rfl
      | some t => exact ih hi

namespace Laws

variable (laws : Laws S I act)

include laws

theorem swap' (hi : S i) (hj : S j) (hs : I s) (hst : act s i = some t) (htu : act t j = some u) :
    ∃ t', act s j = some t' ∧ act t' i = some u := by
  by_cases hij : i = j
  · subst hij
    exact ⟨t, hst, htu⟩
  · exact laws.swap hi hj hij hs hst htu

theorem keep_foldlM (hl : ∀ i ∈ l, S i) (hs : I s) (hrun : l.foldlM act s = some t) : I t := by
  induction l generalizing s with
  | nil =>
    cases hrun
    exact hs
  | cons i l ih =>
    obtain ⟨u, hu, hrun⟩ := foldlM_cons_eq_some_iff.mp hrun
    exact ih (fun j hj => hl j (mem_cons_of_mem _ hj))
      (laws.keep (hl i mem_cons_self) hs hu) hrun

theorem foldlM_perm (hp : l.Perm l') (hl : ∀ i ∈ l, S i) (hs : I s)
    (hrun : l.foldlM act s = some t) : l'.foldlM act s = some t := by
  induction hp generalizing s with
  | nil => exact hrun
  | cons i _ ih =>
    obtain ⟨u, hu, hrun⟩ := foldlM_cons_eq_some_iff.mp hrun
    have hI := laws.keep (hl i mem_cons_self) hs hu
    exact foldlM_cons_eq_some_iff.mpr
      ⟨u, hu, ih (fun j hj => hl j (mem_cons_of_mem _ hj)) hI hrun⟩
  | swap i j l =>
    obtain ⟨u, hu, hrun⟩ := foldlM_cons_eq_some_iff.mp hrun
    obtain ⟨v, hv, hrun⟩ := foldlM_cons_eq_some_iff.mp hrun
    obtain ⟨u', hu', hv'⟩ := laws.swap' (hl j (by simp)) (hl i (by simp)) hs hu hv
    exact foldlM_cons_eq_some_iff.mpr ⟨u', hu', foldlM_cons_eq_some_iff.mpr ⟨v, hv', hrun⟩⟩
  | trans hp₁ _ ih₁ ih₂ =>
    exact ih₂ (fun i hi => hl i (hp₁.mem_iff.mpr hi)) hs (ih₁ hl hs hrun)

/-- After a list of actions each of them changes nothing more. -/
theorem absorbed (hl : ∀ i ∈ l, S i) (hs : I s) (hrun : l.foldlM act s = some t) (hi : i ∈ l) :
    act t i = some t := by
  induction l generalizing s with
  | nil => cases hi
  | cons j l ih =>
    obtain ⟨u, hu, hrun'⟩ := foldlM_cons_eq_some_iff.mp hrun
    have hI := laws.keep (hl j mem_cons_self) hs hu
    rcases mem_cons.mp hi with rfl | hi
    · -- done a second time before the rest, the action may also come last
      have hmore : (i :: l).foldlM act u = some t :=
        foldlM_cons_eq_some_iff.mpr ⟨u, laws.again (hl i mem_cons_self) hs hu, hrun'⟩
      have hlast := laws.foldlM_perm (perm_append_singleton i l).symm hl hI hmore
      obtain ⟨v, hv, hend⟩ := foldlM_append_eq_some_iff.mp hlast
      obtain rfl := Option.some.inj (hrun'.symm.trans hv)
      simpa using hend
    · exact ih (fun k hk => hl k (mem_cons_of_mem _ hk)) hI hrun' hi

/-- Lists of the same actions do the same. -/
theorem foldlM_of_mem_iff (hmem : ∀ i, i ∈ l ↔ i ∈ l') (hl : ∀ i ∈ l, S i) (hs : I s)
    (hrun : l.foldlM act s = some t) : l'.foldlM act s = some t := by
  have hboth : (l ++ l').foldlM act s = some t := by
    refine foldlM_append_eq_some_iff.mpr ⟨t, hrun, foldlM_fixed fun i hi => ?_⟩
    exact laws.absorbed hl hs hrun ((hmem i).mpr hi)
  have hl' : ∀ i ∈ l', S i := fun i hi => hl i ((hmem i).mpr hi)
  have hS : ∀ i ∈ l ++ l', S i := fun i hi => (mem_append.mp hi).elim (hl i) (hl' i)
  obtain ⟨u, hu, hut⟩ := foldlM_append_eq_some_iff.mp
    (laws.foldlM_perm perm_append_comm hS hs hboth)
  have hfix : l.foldlM act u = some u :=
    foldlM_fixed fun i hi => laws.absorbed hl' hs hu ((hmem i).mp hi)
  rw [hu, Option.some.inj (hfix.symm.trans hut)]

end Laws

end Skit.Lib.Commute
