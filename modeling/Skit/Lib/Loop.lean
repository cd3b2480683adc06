import Skit.Lib.Prog

/-!
# Loops

`Loop p` are the partial executions of the endless loop `for { p }`, where the value that `p`
returns says whether to go on. `Loop.admitted` is the loop rule: what `p` keeps of an
invariant of the histories between two rounds holds at every call of the loop.

Several loops run at once; a trace lists their events with the loop each belongs to,
latest first, and `thread i` are the events of loop `i`. The last section is about loops over
a list.
-/
namespace Skit.Lib
open List

section Loop

variable {τ O : Type} {A : O → Type} {p q : Prog O A Bool} {h h' : List (Event τ O A)}
  {ev : Event τ O A}

/-- `Loop p h q`: the loop has made the calls of `h` and has `q` left of this round. -/
inductive Loop (p : Prog O A Bool) : List (Event τ O A) → Prog O A Bool → Prop
  | start : Loop p [] p
  | step {h : List (Event τ O A)} {o : O} {k : A o → Prog O A Bool} (t : τ) (a : A o) :
      Loop p h (.call o k) → Loop p (⟨t, o, a⟩ :: h) (k a)
  | again {h : List (Event τ O A)} : Loop p h (.ret true) → Loop p h p

/-- A loop goes on with what is left of its round. -/
theorem Loop.exec {q' : Prog O A Bool} (hl : Loop p h q) (hx : Exec q h' q') :
    Loop p (h' ++ h) q' := by
  induction hx with
  | start => exact hl
  | step t a _ ih => exact ih.step t a

/-- Every event of a loop was its next call. -/
theorem Loop.at_event (hl : Loop p h q) (hs : ev :: h' <:+ h) : ∃ k, Loop p h' (.call ev.op k) := by
  induction hl with
  | start => simp at hs
  | step t a hl ih =>
    rcases suffix_cons_iff.mp hs with heq | hs
    · obtain ⟨rfl, rfl⟩ := List.cons.inj heq
      exact ⟨_, hl⟩
    · exact ih hs
  | again _ ih => exact ih hs

section Rule

variable {J : List (Event τ O A) → O → Prop} {I : List (Event τ O A) → Prop}

/-- An invariant that every round keeps holds at the start of every round. -/
theorem Loop.wp (hnil : I []) (hbody : ∀ h, I h → wp J (fun on h' => on = true → I h') p h)
    (hl : Loop p h q) : Lib.wp J (fun on h' => on = true → I h') q h := by
  induction hl with
  | start => exact hbody [] hnil
  | step t a _ ih => exact ih.2 t a
  | again _ ih => exact hbody _ (ih rfl)

theorem Loop.admitted (hnil : I [])
    (hbody : ∀ h, I h → Lib.wp J (fun on h' => on = true → I h') p h)
    (hl : Loop p h q) (hs : ev :: h' <:+ h) : J h' ev.op := by
  obtain ⟨k, hk⟩ := hl.at_event hs
  exact (hk.wp hnil hbody).1

end Rule

end Loop

section Threads

variable {ι α : Type} [DecidableEq ι] {i : ι} {a : α} {r tr : List (ι × α)} {h : List α}

/-- The events of one loop. -/
def thread (i : ι) (tr : List (ι × α)) : List α := (tr.filter (·.1 = i)).map (·.2)

theorem mem_thread : a ∈ thread i tr ↔ (i, a) ∈ tr := by simp [thread]

theorem thread_cons_self : thread i ((i, a) :: tr) = a :: thread i tr := by simp [thread]

theorem thread_suffix (hs : r <:+ tr) : thread i r <:+ thread i tr := by
  obtain ⟨l, rfl⟩ := hs
  exact ⟨thread i l, by simp [thread]⟩

/-- An event of a loop stands in the trace, after the events before it. -/
theorem exists_suffix_of_thread (hs : a :: h <:+ thread i tr) :
    ∃ r, (i, a) :: r <:+ tr ∧ thread i r = h := by
  induction tr with
  | nil => simp [thread] at hs
  | cons x tr ih =>
    obtain ⟨j, b⟩ := x
    by_cases hj : j = i
    · subst hj
      rw [thread_cons_self] at hs
      rcases suffix_cons_iff.mp hs with heq | hs
      · obtain ⟨rfl, rfl⟩ := List.cons.inj heq
        exact ⟨tr, suffix_refl _, rfl⟩
      · obtain ⟨r, hr, hh⟩ := ih hs
        exact ⟨r, hr.trans (suffix_cons _ _), hh⟩
    · have hne : thread i ((j, b) :: tr) = thread i tr := by simp [thread, hj]
      rw [hne] at hs
      obtain ⟨r, hr, hh⟩ := ih hs
      exact ⟨r, hr.trans (suffix_cons _ _), hh⟩

end Threads

section Lists

variable {ε σ α : Type} {f : σ → α → Except ε σ} {l : List α} {s s' : σ}

/-- Whether and where such a loop gets through does not depend on the errors. -/
theorem toOption_foldlM :
    (l.foldlM f s).toOption = l.foldlM (fun s a => (f s a).toOption) s := by
  induction l generalizing s with
  | nil => rfl
  | cons a l ih =>
    rw [foldlM_cons, foldlM_cons]
    cases f s a with
    | error e => rfl
    | ok s' => exact ih

/-- A loop over a list that may stop with an error keeps what each round keeps. -/
theorem foldlM_invariant (P : σ → Prop)
    (hround : ∀ a ∈ l, ∀ s s', P s → f s a = .ok s' → P s') (hs : P s)
    (hl : l.foldlM f s = .ok s') : P s' := by
  induction l generalizing s with
  | nil =>
    cases hl
    exact hs
  | cons a l ih =>
    rw [foldlM_cons] at hl
    cases ha : f s a with
    | error e =>
      rw [ha] at hl
      cases hl
    | ok s₁ =>
      rw [ha] at hl
      refine ih (fun b hb => hround b (mem_cons_of_mem a hb)) ?_ hl
      exact hround a mem_cons_self s s₁ hs ha

/-- A loop whose rounds all succeed, with an invariant of the rounds made so far. -/
theorem foldlM_done (P : List α → σ → Prop)
    (hround : ∀ done, ∀ a ∈ l, ∀ s, P done s → ∃ s', f s a = .ok s' ∧ P (done ++ [a]) s')
    {done : List α} (hs : P done s) : ∃ s', l.foldlM f s = .ok s' ∧ P (done ++ l) s' := by
  induction l generalizing s done with
  | nil => exact ⟨s, rfl, by simpa using hs⟩
  | cons a l ih =>
    obtain ⟨s₁, ha, hs₁⟩ := hround done a mem_cons_self s hs
    obtain ⟨s', hl, hs'⟩ := ih (fun d b hb => hround d b (mem_cons_of_mem a hb)) hs₁
    refine ⟨s', ?_, by simpa using hs'⟩
    rw [foldlM_cons, ha]
    exact hl

end Lists

end Skit.Lib
