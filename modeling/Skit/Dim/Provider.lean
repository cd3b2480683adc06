import Skit.Basic
import Skit.Lib.Prog
import Mathlib.Data.List.Nodup
import Mathlib.Logic.Function.Basic
import Mathlib.Order.Basic

/-!
# Lazy providers

`Once`, `OnceWithName` and `NewResource` run a factory on the first call and keep what it
returned. A factory is a program that calls other providers, of lower rank, since the
dependencies are acyclic; it may recover their panics. A panic value is kept as an `Err`.

`sync.Once` counts a factory that panicked as run. Neither its value nor its error was assigned
then, so the next call returns the zero value (`zero_value_handed_out`).
-/
namespace Skit.Dim
open Lib List Function

section Factories

/-- How a call of a `CleanupFunc` ends. -/
abbrev CleanupFunc := Outcome

/-- How a factory ends. The factories of `Once` have no cleanup function. -/
inductive Finish (T : Type)
  | returned (value : T) (cleanupFn : Option CleanupFunc) (err : Option Err)
  | panicked (value : Err)

/-- How a call of a provider ends. -/
inductive Answer (T : Type)
  | value (v : T)
  | panicked (value : Err)

/-- What a provider owes its callers when its factory ended so. -/
def Finish.answer {T : Type} : Finish T → Answer T
  | .returned v _ none => .value v
  | .returned _ _ (some err) => .panicked err
  | .panicked p => .panicked p

inductive Kind
  | once
  | onceWithName (name : String)
  | newResource (name : String)
  deriving DecidableEq, Repr

/-- Providers with their factories. The calls of a factory are typed by their rank. -/
structure Graph (ι : Type) (V : ι → Type) where
  zero : (i : ι) → V i
  kind : ι → Kind
  rank : ι → Nat
  factory : (i : ι) → Prog { j // rank j < rank i } (fun j => Answer (V j)) (Finish (V i))

end Factories

section Cells

variable {T : Type}

/-- The variables that a provider closes over. -/
structure Cell (T : Type) where
  done : Bool
  value : T
  err : Option Err
  cleanupFn : Option CleanupFunc

def Cell.new (zero : T) : Cell T := ⟨false, zero, none, none⟩

/-- What `once.Do` leaves in the variables of `Once`. -/
def Cell.once (c : Cell T) : Finish T → Cell T
  | .returned v _ err => { c with done := true, value := v, err := err }
  | .panicked _ => { c with done := true }

/-- `OnceWithName` differs from `Once` in what it logs. -/
def Cell.onceWithName (c : Cell T) (fin : Finish T) : Cell T := c.once fin

def Cell.resource (c : Cell T) : Finish T → Cell T
  | .returned v cleanupFn err => ⟨true, v, err, cleanupFn⟩
  | .panicked _ => { c with done := true }

def Cell.run (c : Cell T) : Kind → Finish T → Cell T
  | .once, fin => c.once fin
  | .onceWithName _, fin => c.onceWithName fin
  | .newResource _, fin => c.resource fin

/-- The end of a provider: the stored error is a panic of every call. -/
def Cell.answer (c : Cell T) : Answer T :=
  match c.err with
  | some err => .panicked err
  | none => .value c.value

/-- `getCleanup`: nothing to clean up is no error. -/
def Cell.getCleanup (c : Cell T) : CleanupFunc := c.cleanupFn.getD (.returned none)

@[simp] theorem Cell.run_done (c : Cell T) (k : Kind) (fin : Finish T) :
    (c.run k fin).done = true := by
  cases k <;> cases fin <;> rfl

theorem Cell.run_answer {c : Cell T} {k : Kind} {fin : Finish T} (hfin : ∀ p, fin ≠ .panicked p) :
    (c.run k fin).answer = fin.answer := by
  cases fin with
  | panicked p => exact absurd rfl (hfin p)
  | returned v cleanupFn err => cases k <;> cases err <;> rfl

theorem Cell.run_panicked (zero : T) (k : Kind) (p : Err) :
    ((Cell.new zero).run k (.panicked p)).answer = .value zero := by
  cases k <;> rfl

end Cells

section Calls

variable {ι : Type} {V : ι → Type}

/-- What happens to the providers, nested calls included. -/
inductive Event (V : ι → Type)
  | started (i : ι)
  | finished (i : ι) (fin : Finish (V i))
  | answered (i : ι) (a : Answer (V i))

/-- The cells and, for the statements, the events so far, latest first. -/
structure State (V : ι → Type) where
  cells : (i : ι) → Cell (V i)
  events : List (Event V)

def State.log (s : State V) (e : Event V) : State V := { s with events := e :: s.events }

def Graph.init (G : Graph ι V) : State V := ⟨fun i => .new (G.zero i), []⟩

variable [DecidableEq ι]

def State.setCell (s : State V) (i : ι) (c : Cell (V i)) : State V :=
  { s with cells := Function.update s.cells i c }

/-- The factory of `i` has ended: `once.Do` is over, also by the panic. -/
def Graph.finish (G : Graph ι V) (i : ι) (fin : Finish (V i)) (s : State V) :
    Answer (V i) × State V :=
  let c := (s.cells i).run (G.kind i) fin
  let a := match fin with
    | .panicked p => .panicked p
    | .returned _ _ _ => c.answer
  (a, ((s.setCell i c).log (.finished i fin)).log (.answered i a))

/-- A call of provider `i`; the bound is above its rank. -/
def Graph.call (G : Graph ι V) : (n : Nat) → (i : ι) → G.rank i < n → State V →
    Answer (V i) × State V
  | n + 1, i, hi, s =>
    if (s.cells i).done then
      ((s.cells i).answer, s.log (.answered i (s.cells i).answer))
    else
      let nested (j : { j // G.rank j < G.rank i }) (s : State V) :=
        G.call n j.1 (Nat.lt_of_lt_of_le j.2 (Nat.lt_succ_iff.mp hi)) s
      let (fin, s') := (G.factory i).interp nested (s.log (.started i))
      G.finish i fin s'

/-- A sequence of calls whose panics the callers recover. -/
def Graph.calls (G : Graph ι V) (is : List ι) : State V :=
  is.foldl (fun s i => (G.call (G.rank i + 1) i (Nat.lt_succ_self _) s).2) G.init

end Calls

section Outcomes

variable {ι : Type} {V : ι → Type}

/-- How the factory of `i` ends if every provider it calls gives what it owes; the bound is above
the rank of `i`. -/
def Graph.outcomeBelow (G : Graph ι V) : (n : Nat) → (i : ι) → G.rank i < n → Finish (V i)
  | n + 1, i, hi => (G.factory i).eval fun j : { j // G.rank j < G.rank i } =>
    (G.outcomeBelow n j.1 (Nat.lt_of_lt_of_le j.2 (Nat.lt_succ_iff.mp hi))).answer

/-- How the factory of `i` ends. -/
def Graph.outcome (G : Graph ι V) (i : ι) : Finish (V i) :=
  G.outcomeBelow (G.rank i + 1) i (Nat.lt_succ_self _)

theorem Graph.outcomeBelow_eq (G : Graph ι V) {n m : Nat} {i : ι} (hn : G.rank i < n)
    (hm : G.rank i < m) : G.outcomeBelow n i hn = G.outcomeBelow m i hm := by
  induction n generalizing i m with
  | zero => exact absurd hn (Nat.not_lt_zero _)
  | succ n ih =>
    cases m with
    | zero => exact absurd hm (Nat.not_lt_zero _)
    | succ m =>
      rw [Graph.outcomeBelow, Graph.outcomeBelow]
      congr 1
      funext j
      rw [ih]

theorem Graph.outcome_eq (G : Graph ι V) (i : ι) :
    G.outcome i = (G.factory i).eval fun j : { j // G.rank j < G.rank i } =>
      (G.outcome j.1).answer := by
  rw [Graph.outcome, Graph.outcomeBelow]
  congr 1
  funext j
  rw [Graph.outcome, G.outcomeBelow_eq]

end Outcomes

section Sound

variable {ι : Type} {V : ι → Type}

/-- The providers whose factories were run. -/
def starts (events : List (Event V)) : List ι :=
  events.filterMap fun
    | .started i => some i
    | _ => none

theorem mem_starts {events : List (Event V)} {i : ι} : i ∈ starts events ↔ .started i ∈ events := by
  simp only [starts, mem_filterMap]
  constructor
  · rintro ⟨e, he, hi⟩
    cases e with
    | started j =>
      cases hi
      exact he
    | finished _ _ => cases hi
    | answered _ _ => cases hi
  · exact fun h => ⟨_, h, rfl⟩

/-- No factory has run twice, and every value handed out is one that its factory had returned
with a nil error. -/
structure Sound (events : List (Event V)) : Prop where
  once : (starts events).Nodup
  told : ∀ i v l, .answered i (.value v) :: l <:+ events →
    ∃ cleanupFn, .finished i (.returned v cleanupFn none) ∈ l

variable {events : List (Event V)} {i : ι} (h : Sound events)
include h

theorem Sound.started (hi : .started i ∉ events) :
    Sound (.started i :: events) := by
  refine ⟨nodup_cons.mpr ⟨fun hm => hi (mem_starts.mp hm), h.once⟩, fun j v l hl => ?_⟩
  rcases suffix_cons_iff.mp hl with heq | hl
  · cases heq
  · exact h.told j v l hl

theorem Sound.finished (fin : Finish (V i)) :
    Sound (.finished i fin :: events) := by
  refine ⟨h.once, fun j v l hl => ?_⟩
  rcases suffix_cons_iff.mp hl with heq | hl
  · cases heq
  · exact h.told j v l hl

theorem Sound.answered {fin : Finish (V i)} (hfin : .finished i fin ∈ events) :
    Sound (.answered i fin.answer :: events) := by
  refine ⟨h.once, fun j v l hl => ?_⟩
  rcases suffix_cons_iff.mp hl with heq | hl
  · cases fin with
    | panicked p => cases heq
    | returned w cleanupFn err =>
      cases err with
      | some err => cases heq
      | none =>
        cases heq
        exact ⟨cleanupFn, hfin⟩
  · exact h.told j v l hl

end Sound

section Consistent

variable {ι : Type} {V : ι → Type} {G : Graph ι V} {stack : List ι} {s : State V} {i : ι}

/-- What the state holds while the factories of `stack` run: every cell is fresh or has what the
outcome of its factory gives, and the events tell it. -/
structure Consistent (G : Graph ι V) (stack : List ι) (s : State V) : Prop where
  fresh : ∀ i, (s.cells i).done = false → s.cells i = .new (G.zero i)
  settled : ∀ i, (s.cells i).done = true →
    (s.cells i).answer = (G.outcome i).answer ∧ .finished i (G.outcome i) ∈ s.events
  finished : ∀ i fin, .finished i fin ∈ s.events → fin = G.outcome i
  started : ∀ i, .started i ∈ s.events → (s.cells i).done = true ∨ i ∈ stack
  running : ∀ i ∈ stack, (s.cells i).done = false
  sound : Sound s.events

theorem Consistent.init (G : Graph ι V) : Consistent G [] G.init where
  fresh _ _ := rfl
  settled _ hd := by cases hd
  finished _ _ hf := by cases hf
  started _ hs := by cases hs
  running _ hi := by cases hi
  sound := ⟨nodup_nil, fun i v l hl => by simp [Graph.init] at hl⟩

theorem Consistent.start (hs : Consistent G stack s) (hd : (s.cells i).done = false)
    (hi : i ∉ stack) : Consistent G (i :: stack) (s.log (.started i)) := by
  have hnew : .started i ∉ s.events := by
    intro hm
    rcases hs.started i hm with hdone | hm
    · rw [hd] at hdone
      cases hdone
    · exact hi hm
  refine ⟨hs.fresh, fun j hj => ?_, fun j fin hf => ?_, fun j hj => ?_, fun j hj => ?_,
    hs.sound.started hnew⟩
  · exact ⟨(hs.settled j hj).1, mem_cons_of_mem _ (hs.settled j hj).2⟩
  · rcases mem_cons.mp hf with heq | hf
    · cases heq
    · exact hs.finished j fin hf
  · rcases mem_cons.mp hj with heq | hj
    · cases heq
      exact .inr mem_cons_self
    · exact (hs.started j hj).imp_right (mem_cons_of_mem _)
  · rcases mem_cons.mp hj with rfl | hj
    · exact hd
    · exact hs.running j hj

theorem Consistent.answered (hs : Consistent G stack s) (hd : (s.cells i).done = true) :
    Consistent G stack (s.log (.answered i (s.cells i).answer)) := by
  obtain ⟨ha, hfin⟩ := hs.settled i hd
  refine ⟨hs.fresh, fun j hj => ?_, fun j fin hf => ?_, fun j hj => ?_, hs.running, ?_⟩
  · exact ⟨(hs.settled j hj).1, mem_cons_of_mem _ (hs.settled j hj).2⟩
  · rcases mem_cons.mp hf with heq | hf
    · cases heq
    · exact hs.finished j fin hf
  · rcases mem_cons.mp hj with heq | hj
    · cases heq
    · exact hs.started j hj
  · rw [ha]
    exact hs.sound.answered hfin

variable [DecidableEq ι]

theorem Consistent.setCell (hs : Consistent G (i :: stack) s) (hi : i ∉ stack)
    (hout : ∀ p, G.outcome i ≠ .panicked p) :
    Consistent G stack ((s.setCell i ((s.cells i).run (G.kind i) (G.outcome i))).log
      (.finished i (G.outcome i))) := by
  refine ⟨?_, ?_, fun j fin hf => ?_, ?_, ?_, hs.sound.finished _⟩
  · refine (forall_update_iff s.cells fun j c =>
      c.done = false → c = .new (G.zero j)).mpr ⟨fun hd => ?_, fun j _ => hs.fresh j⟩
    rw [Cell.run_done] at hd
    cases hd
  · refine (forall_update_iff s.cells fun j c =>
      c.done = true → c.answer = (G.outcome j).answer ∧
        .finished j (G.outcome j) ∈ .finished i (G.outcome i) :: s.events).mpr
      ⟨fun _ => ⟨Cell.run_answer hout, mem_cons_self⟩, fun j _ hd => ?_⟩
    exact ⟨(hs.settled j hd).1, mem_cons_of_mem _ (hs.settled j hd).2⟩
  · rcases mem_cons.mp hf with heq | hf
    · cases heq
      rfl
    · exact hs.finished j fin hf
  · refine (forall_update_iff s.cells fun j c =>
      .started j ∈ .finished i (G.outcome i) :: s.events → c.done = true ∨ j ∈ stack).mpr
      ⟨fun _ => .inl (Cell.run_done ..), fun j hji hj => ?_⟩
    rcases mem_cons.mp hj with heq | hj
    · cases heq
    · exact (hs.started j hj).imp_right fun hm => (mem_cons.mp hm).resolve_left hji
  · exact (forall_update_iff s.cells fun j c => j ∈ stack → c.done = false).mpr
      ⟨fun hm => absurd hm hi, fun j _ hj => hs.running j (mem_cons_of_mem _ hj)⟩

theorem Consistent.finish (hs : Consistent G (i :: stack) s) (hi : i ∉ stack)
    (hout : ∀ p, G.outcome i ≠ .panicked p) :
    (G.finish i (G.outcome i) s).1 = (G.outcome i).answer ∧
      Consistent G stack (G.finish i (G.outcome i) s).2 := by
  have hcell : ((s.setCell i ((s.cells i).run (G.kind i) (G.outcome i))).log
      (.finished i (G.outcome i))).cells i = (s.cells i).run (G.kind i) (G.outcome i) :=
    update_self ..
  have hret : (G.finish i (G.outcome i) s).1 =
      ((s.cells i).run (G.kind i) (G.outcome i)).answer := by
    unfold Graph.finish
    dsimp only
    split
    · next p hp => exact absurd hp (hout p)
    · rfl
  refine ⟨hret.trans (Cell.run_answer hout), ?_⟩
  have hanswered := (hs.setCell hi hout).answered (i := i)
    ((congrArg Cell.done hcell).trans (Cell.run_done ..))
  rw [hcell, ← hret] at hanswered
  exact hanswered

/-- The calls of providers below the bound give what the providers owe. -/
def Graph.CallsAnswer (G : Graph ι V) (n : Nat) : Prop :=
  ∀ (i : ι) (hi : G.rank i < n) (stack : List ι) (s : State V), Consistent G stack s →
    (∀ j ∈ stack, G.rank i < G.rank j) →
    (G.call n i hi s).1 = (G.outcome i).answer ∧ Consistent G stack (G.call n i hi s).2

theorem Graph.CallsAnswer.factory {n : Nat} (hn : G.CallsAnswer n) (hi : G.rank i < n + 1)
    (hs : Consistent G stack s) (hstack : ∀ j ∈ stack, G.rank i < G.rank j)
    (hd : (s.cells i).done = false) :
    ∃ s', G.call (n + 1) i hi s = G.finish i (G.outcome i) s' ∧ Consistent G (i :: stack) s' := by
  have hnot : i ∉ stack := fun hm => absurd (hstack i hm) (Nat.lt_irrefl _)
  have hrun := Prog.interp_spec (I := Consistent G (i :: stack))
    (f := fun (j : { j // G.rank j < G.rank i }) s =>
      G.call n j.1 (Nat.lt_of_lt_of_le j.2 (Nat.lt_succ_iff.mp hi)) s)
    (g := fun j => (G.outcome j.1).answer)
    (fun j s hs => hn j.1 _ (i :: stack) s hs (by
      intro k hk
      rcases mem_cons.mp hk with rfl | hk
      · exact j.2
      · exact Nat.lt_trans j.2 (hstack k hk))) (G.factory i) (hs.start hd hnot)
  rw [← G.outcome_eq] at hrun
  refine ⟨_, ?_, hrun.2⟩
  rw [Graph.call, if_neg (by simp [hd])]
  dsimp only
  rw [hrun.1]

theorem Graph.callsAnswer {n : Nat} (hsafe : ∀ i, G.rank i < n → ∀ p, G.outcome i ≠ .panicked p) :
    G.CallsAnswer n := by
  induction n with
  | zero => exact fun i hi => absurd hi (Nat.not_lt_zero _)
  | succ n ih =>
    have hn : G.CallsAnswer n := ih fun i hi => hsafe i (Nat.lt_succ_of_lt hi)
    intro i hi stack s hs hstack
    cases hd : (s.cells i).done with
    | true =>
      rw [Graph.call, if_pos hd]
      exact ⟨(hs.settled i hd).1, hs.answered hd⟩
    | false =>
      obtain ⟨s', heq, hs'⟩ := hn.factory hi hs hstack hd
      rw [heq]
      exact hs'.finish (fun hm => absurd (hstack i hm) (Nat.lt_irrefl _)) (hsafe i hi)

end Consistent

section Providers

variable {ι : Type} {V : ι → Type} [DecidableEq ι] {G : Graph ι V}

theorem Graph.calls_consistent (hsafe : ∀ i p, G.outcome i ≠ .panicked p) (is : List ι) :
    Consistent G [] (G.calls is) := by
  have hloop : ∀ (is : List ι) (s : State V), Consistent G [] s → Consistent G []
      (is.foldl (fun s i => (G.call (G.rank i + 1) i (Nat.lt_succ_self _) s).2) s) := by
    intro is
    induction is with
    | nil => exact fun s hs => hs
    | cons i is ih =>
      intro s hs
      have hcall : G.CallsAnswer (G.rank i + 1) := G.callsAnswer fun j _ => hsafe j
      exact ih _ (hcall i _ [] s hs (by simp)).2
  exact hloop is _ (.init G)

/-- After a first call whose factory panicked, the second call hands out the zero value. -/
theorem Graph.calls_twice {i : ι} {p : Err} (hbelow : ∀ j, G.rank j < G.rank i →
    ∀ p, G.outcome j ≠ .panicked p) (hp : G.outcome i = .panicked p) :
    ∃ l, (G.calls [i, i]).events = .answered i (.value (G.zero i)) :: l ∧
      ∀ fin, .finished i fin ∈ l → fin = .panicked p := by
  have hn : G.CallsAnswer (G.rank i) := G.callsAnswer hbelow
  obtain ⟨s, heq, hs⟩ := hn.factory (Nat.lt_succ_self _) (.init G) (by simp) rfl
  have hfresh : s.cells i = .new (G.zero i) := hs.fresh i (hs.running i mem_cons_self)
  rw [hp] at heq
  have hcell : (G.finish i (.panicked p) s).2.cells i =
      (Cell.new (G.zero i)).run (G.kind i) (.panicked p) := by
    rw [← hfresh]
    exact update_self ..
  have hsecond : G.calls [i, i] = (G.finish i (.panicked p) s).2.log
      (.answered i (.value (G.zero i))) := by
    have hcalls : G.calls [i, i] = (G.call (G.rank i + 1) i (Nat.lt_succ_self _)
      (G.call (G.rank i + 1) i (Nat.lt_succ_self _) G.init).2).2 := rfl
    rw [hcalls, heq, Graph.call, hcell, if_pos (Cell.run_done ..), Cell.run_panicked]
  refine ⟨(G.finish i (.panicked p) s).2.events, by rw [hsecond]; rfl, fun fin hfin => ?_⟩
  have hevents : (G.finish i (.panicked p) s).2.events =
      .answered i (.panicked p) :: .finished i (.panicked p) :: s.events := rfl
  rw [hevents] at hfin
  rcases mem_cons.mp hfin with heq | hfin
  · cases heq
  · rcases mem_cons.mp hfin with heq | hfin
    · cases heq
      rfl
    · exact (hs.finished i fin hfin).trans hp

/-- The providers keep their promise, whatever is called and in whatever order, exactly when no
factory panics, be it by itself or by passing on the panic of a provider it calls. -/
theorem providers_sound_iff (G : Graph ι V) :
    (∀ is, Sound (G.calls is).events) ↔ ∀ i p, G.outcome i ≠ .panicked p := by
  constructor
  · intro hsound
    have hrank : ∀ n i, G.rank i = n → ∀ p, G.outcome i ≠ .panicked p := by
      intro n
      induction n using Nat.strong_induction_on with
      | _ n ih =>
        rintro i rfl p hp
        obtain ⟨l, hevents, hfin⟩ := G.calls_twice (fun j hj => ih _ hj j rfl) hp
        obtain ⟨cleanupFn, hm⟩ := (hsound [i, i]).told i (G.zero i) l (hevents ▸ suffix_refl _)
        cases hfin _ hm
    exact fun i => hrank _ i rfl
  · exact fun hsafe is => (G.calls_consistent hsafe is).sound

/-- A configuration that cannot be read, and a store that needs it. -/
def storeGraph : Graph Bool fun _ => Nat where
  zero _ := 0
  kind i := if i then .once else .newResource "config"
  rank i := if i then 1 else 0
  factory
    | false => .ret (.returned 0 none (some (.text "no config")))
    | true => .call ⟨false, by decide⟩ fun
      | .value n => .ret (.returned (n + 1) none none)
      | .panicked p => .ret (.panicked p)

/-- The first call of the store panics, and the second returns a store that no factory made. -/
theorem zero_value_handed_out :
    (∃ l, (storeGraph.calls [true, true]).events = .answered true (.value 0) ::
      .answered true (.panicked (.text "no config")) :: l) ∧
    (∀ v cleanupFn, .finished true (.returned v cleanupFn none) ∉
      (storeGraph.calls [true, true]).events) ∧
    ¬ Sound (storeGraph.calls [true, true]).events := by
  have hfin : ∀ v cleanupFn, .finished true (.returned v cleanupFn none) ∉
      (storeGraph.calls [true, true]).events := by
    intro v cleanupFn hm
    have hevents : (storeGraph.calls [true, true]).events = [.answered true (.value 0),
      .answered true (.panicked (.text "no config")),
      .finished true (.panicked (.text "no config")),
      .answered false (.panicked (.text "no config")),
      .finished false (.returned 0 none (some (.text "no config"))), .started false,
      .started true] := rfl
    rw [hevents] at hm
    simp at hm
  refine ⟨⟨_, rfl⟩, hfin, fun hs => ?_⟩
  obtain ⟨cleanupFn, hm⟩ := hs.told true 0 _ (suffix_refl _)
  exact hfin 0 cleanupFn (mem_cons_of_mem _ hm)

end Providers

end Skit.Dim
