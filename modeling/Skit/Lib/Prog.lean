import Mathlib.Data.List.Basic

/-!
# Programs over a signature of calls

A program either returns or makes a call and goes on with the answer, so a
program is the tree of everything it may do. The answers are not fixed by the
program: an execution supplies them. Histories are kept latest event first.

`wp J Q p h` says that from history `h` every call of `p` is made at a history
`J` admits, whatever the answers are, and that `p` returns only in `Q`. The rules
below compute it along the program text, and `Exec.wp` transports it to every
partial execution.
-/
namespace Skit.Lib

/-- A finite program whose calls `o : O` are answered in `A o`. -/
inductive Prog (O : Type) (A : O → Type) (α : Type) : Type
  | ret (a : α)
  | call (o : O) (k : A o → Prog O A α)

namespace Prog

variable {O : Type} {A : O → Type} {α β : Type}

def bind (p : Prog O A α) (f : α → Prog O A β) : Prog O A β :=
  match p with
  | ret a => f a
  | call o k => call o (fun a => (k a).bind f)

instance : Monad (Prog O A) where
  pure := ret
  bind := bind

/-- One call, returning its answer. -/
def ask (o : O) : Prog O A (A o) := call o ret

/-- The result when every call has a fixed answer. -/
def eval (g : (o : O) → A o) : Prog O A α → α
  | ret a => a
  | call o k => (k (g o)).eval g

/-- The result when the calls are answered from a state that they change. -/
def interp {σ : Type} (f : (o : O) → σ → A o × σ) : Prog O A α → σ → α × σ
  | ret a, s => (a, s)
  | call o k, s => (k (f o s).1).interp f (f o s).2

/-- Calls that keep an invariant and, under it, give fixed answers. -/
theorem interp_spec {σ : Type} {f : (o : O) → σ → A o × σ} {g : (o : O) → A o} {I : σ → Prop}
    (hf : ∀ o s, I s → (f o s).1 = g o ∧ I (f o s).2) (p : Prog O A α) {s : σ} (hs : I s) :
    (p.interp f s).1 = p.eval g ∧ I (p.interp f s).2 := by
  induction p generalizing s with
  | ret a => exact ⟨rfl, hs⟩
  | call o k ih =>
    obtain ⟨hans, hs'⟩ := hf o s hs
    have := ih (f o s).1 hs'
    rw [interp, eval]
    rwa [hans] at this ⊢

@[simp] theorem pure_eq (a : α) : (pure a : Prog O A α) = ret a := rfl

@[simp] theorem ret_bind (a : α) (f : α → Prog O A β) : (ret a >>= f) = f a := rfl

@[simp] theorem call_bind (o : O) (k : A o → Prog O A α) (f : α → Prog O A β) :
    (call o k >>= f) = call o (fun a => k a >>= f) := rfl

@[simp] theorem ask_bind (o : O) (f : A o → Prog O A β) : (ask o >>= f) = call o f := rfl

end Prog

/-- A call with its answer, at the time it took place. -/
structure Event (τ O : Type) (A : O → Type) where
  time : τ
  op : O
  ans : A op

section Executions

variable {τ O : Type} {A : O → Type} {α β : Type} {h : List (Event τ O A)} {p q q' : Prog O A α}
  {J : List (Event τ O A) → O → Prop} {Q : α → List (Event τ O A) → Prop}

/-- Partial executions: `Exec p h q` means that `p` has made the calls of `h`
and `q` is left to run. -/
inductive Exec (p : Prog O A α) : List (Event τ O A) → Prog O A α → Prop
  | start : Exec p [] p
  | step {h : List (Event τ O A)} {o : O} {k : A o → Prog O A α} (t : τ) (a : A o) :
      Exec p h (.call o k) → Exec p (⟨t, o, a⟩ :: h) (k a)

/-- What is left of a program after the given events, earliest first; `none` when
they are not events of it. -/
def play [DecidableEq O] : Prog O A α → List (Event τ O A) → Option (Prog O A α)
  | q, [] => some q
  | .ret _, _ :: _ => none
  | .call o k, ev :: evs => if h : ev.op = o then play (k (h ▸ ev.ans)) evs else none

/-- Playing events is executing them. -/
theorem Exec.of_play [DecidableEq O]
    (hx : Exec p h q) (evs : List (Event τ O A)) (hp : play q evs = some q') :
    Exec p (evs.reverse ++ h) q' := by
  induction evs generalizing q h with
  | nil =>
    have hq : some q = some q' := by rw [← hp]; cases q <;> rfl
    obtain rfl := Option.some.inj hq
    exact hx
  | cons ev evs ih =>
    cases q with
    | ret a => exact absurd hp (by simp [play])
    | call o k =>
      obtain ⟨t, o', a⟩ := ev
      by_cases ho : o' = o
      · subst ho
        have hk : play (k a) evs = some q' := by simpa [play] using hp
        simpa using ih (hx.step t a) hk
      · simp [play, ho] at hp

/-- What is left of a program is determined by the calls it has made. -/
theorem Exec.unique (hx : Exec p h q) (hx' : Exec p h q') : q = q' := by
  induction hx generalizing q' with
  | start =>
    cases hx'
    rfl
  | step t a _ ih =>
    cases hx' with
    | step _ _ hx' =>
      cases ih hx'
      rfl

/-- Every call of the program is made at a history that `J` admits, and every
return satisfies `Q`. -/
def wp (J : List (Event τ O A) → O → Prop) (Q : α → List (Event τ O A) → Prop) :
    Prog O A α → List (Event τ O A) → Prop
  | .ret a, h => Q a h
  | .call o k, h => J h o ∧ ∀ t a, wp J Q (k a) (⟨t, o, a⟩ :: h)

@[simp] theorem wp_ret (a : α) : wp J Q (.ret a) h ↔ Q a h := Iff.rfl

@[simp] theorem wp_call (o : O) (k : A o → Prog O A α) :
    wp J Q (.call o k) h ↔ J h o ∧ ∀ t a, wp J Q (k a) (⟨t, o, a⟩ :: h) := Iff.rfl

@[simp] theorem wp_ask {o : O} {Q : A o → List (Event τ O A) → Prop} :
    wp J Q (Prog.ask o) h ↔ J h o ∧ ∀ t a, Q a (⟨t, o, a⟩ :: h) := Iff.rfl

/-- Sequencing: the rest is verified at every return of the first part. -/
theorem wp_bind {Q : β → List (Event τ O A) → Prop} (p : Prog O A α) (f : α → Prog O A β)
    (h : List (Event τ O A)) :
    wp J Q (p >>= f) h ↔ wp J (fun a h' => wp J Q (f a) h') p h := by
  induction p generalizing h with
  | ret a => exact Iff.rfl
  | call o k ih =>
    simp only [Prog.call_bind, wp_call]
    exact and_congr_right fun _ => forall_congr' fun t => forall_congr' fun a => ih a _

theorem wp_mono {Q Q' : α → List (Event τ O A) → Prop}
    (hq : ∀ a h', Q a h' → Q' a h') (hp : wp J Q p h) : wp J Q' p h := by
  induction p generalizing h with
  | ret a => exact hq a h hp
  | call o k ih => exact ⟨hp.1, fun t a => ih a (hp.2 t a)⟩

/-- Sequencing with an assertion in between. -/
theorem wp_seq {R : α → List (Event τ O A) → Prop} {Q : β → List (Event τ O A) → Prop}
    {f : α → Prog O A β} (hp : wp J R p h)
    (hf : ∀ a h', R a h' → wp J Q (f a) h') : wp J Q (p >>= f) h :=
  (wp_bind p f h).mpr (wp_mono hf hp)

/-- What holds of a program before a partial execution holds of what is left. -/
theorem Exec.wp (hx : Exec p h q) (hp : wp J Q p []) : Lib.wp J Q q h := by
  induction hx with
  | start => exact hp
  | step t a _ ih => exact ih.2 t a

/-- Every call of a partial execution was made at a history that `J` admits. -/
theorem Exec.admitted
    {h' : List (Event τ O A)} {ev : Event τ O A} (hx : Exec p h q) (hp : Lib.wp J Q p [])
    (hs : ev :: h' <:+ h) : J h' ev.op := by
  induction hx with
  | start => simp at hs
  | step t a hx ih =>
    rcases List.suffix_cons_iff.mp hs with heq | hs
    · obtain ⟨rfl, rfl⟩ := List.cons.inj heq
      exact (hx.wp hp).1
    · exact ih hs

end Executions

section Evaluations

variable {O : Type} {A : O → Type} {α β σ : Type} {sem : σ → (o : O) → A o → σ → Prop} {s s' : σ}
  {p : Prog O A α}

/-- A program that runs alone over a state: `sem s o a s'` are the answers of a call and what it
leaves. -/
inductive Evals (sem : σ → (o : O) → A o → σ → Prop) : σ → Prog O A α → α → σ → Prop
  | ret {s : σ} {a : α} : Evals sem s (.ret a) a s
  | call {s s₁ s' : σ} {o : O} {k : A o → Prog O A α} {ans : A o} {a : α} :
      sem s o ans s₁ → Evals sem s₁ (k ans) a s' → Evals sem s (.call o k) a s'

theorem Evals.of_ret {a a' : α} (h : Evals sem s (.ret a) a' s') : a' = a ∧ s' = s := by
  cases h
  exact ⟨rfl, rfl⟩

theorem Evals.of_call {o : O} {k : A o → Prog O A α} {a : α} (h : Evals sem s (.call o k) a s') :
    ∃ ans s₁, sem s o ans s₁ ∧ Evals sem s₁ (k ans) a s' := by
  cases h with
  | call hcall hrest => exact ⟨_, _, hcall, hrest⟩

theorem Evals.mono {sem' : σ → (o : O) → A o → σ → Prop}
    (hsem : ∀ {s o ans s'}, sem s o ans s' → sem' s o ans s') {a : α}
    (h : Evals sem s p a s') : Evals sem' s p a s' := by
  induction h with
  | ret => exact .ret
  | call hcall _ ih => exact .call (hsem hcall) ih

/-- Where every call has an answer, every program has an evaluation. -/
theorem exists_evals (h : ∀ s o, ∃ ans s', sem s o ans s') (p : Prog O A α) (s : σ) :
    ∃ a s', Evals sem s p a s' := by
  induction p generalizing s with
  | ret a => exact ⟨a, s, .ret⟩
  | call o k ih =>
    obtain ⟨ans, s₁, hcall⟩ := h s o
    obtain ⟨a, s', hrest⟩ := ih ans s₁
    exact ⟨a, s', .call hcall hrest⟩

/-- A sequence is the first part and then the rest. -/
theorem evals_bind {f : α → Prog O A β} {b : β} :
    Evals sem s (p >>= f) b s' ↔ ∃ a s₁, Evals sem s p a s₁ ∧ Evals sem s₁ (f a) b s' := by
  induction p generalizing s with
  | ret a =>
    constructor
    · exact fun h => ⟨a, s, .ret, h⟩
    · rintro ⟨a', s₁, ha, h⟩
      obtain ⟨rfl, rfl⟩ := ha.of_ret
      exact h
  | call o k ih =>
    constructor
    · intro h
      obtain ⟨ans, s₁, hcall, h⟩ := Evals.of_call h
      obtain ⟨a, s₂, ha, h⟩ := (ih ans).mp h
      exact ⟨a, s₂, .call hcall ha, h⟩
    · rintro ⟨a, s₂, ha, h⟩
      obtain ⟨ans, s₁, hcall, ha⟩ := ha.of_call
      exact .call hcall ((ih ans).mpr ⟨a, s₂, ha, h⟩)

/-- A call and what follows its answer. -/
theorem evals_ask {o : O} {f : A o → Prog O A β} {b : β} :
    Evals sem s (Prog.ask o >>= f) b s' ↔ ∃ ans s₁, sem s o ans s₁ ∧ Evals sem s₁ (f ans) b s' := by
  constructor
  · exact Evals.of_call
  · rintro ⟨ans, s₁, hcall, h⟩
    exact .call hcall h

end Evaluations

end Skit.Lib
