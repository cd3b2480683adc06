import Skit.Basic
import Skit.Lib.Trace
import Mathlib.Data.List.Perm.Subperm
import Mathlib.Logic.Function.Basic

/-!
# The group of runnables

`Group.Run` as a machine whose parties move one at a time: `Run`, the goroutines of `Start`, and
the context, which may end by a cancellation or by its deadline. The end of the context reaches
the shared context in a step of its own, and only an error that is `context.Canceled` is kept
from the channel, so `Run` may report the deadline of its own context as a failure.
-/
namespace Skit.Worker.Group
open Lib List

section Code

/-- How a context ends. -/
inductive Cause
  | canceled
  | deadline
  deriving DecidableEq

/-- `ctx.Err()`. -/
def Cause.err : Cause → Err
  | .canceled => .sentinel "context canceled"
  | .deadline => .sentinel "context deadline exceeded"

/-- What a `Start` does. It returns a result of its own at some time or never; or it runs until
its context ends and returns `ctx.Err()`, as a `Loop` does. -/
inductive Behaviour
  | returns (result : Option Err)
  | untilEnd

/-- The results with which `Start` may return. -/
def Behaviour.Returns (runCtx : Option Cause) : Behaviour → Option Err → Prop
  | .returns result, r => r = result
  | .untilEnd, r => ∃ c, runCtx = some c ∧ r = some c.err

/-- A group, and whether the context of `Run` has a deadline. -/
structure Config where
  runnables : List Behaviour
  shutdownTimeout : Int
  deadline : Bool

/-- The capacity of `errCh`. -/
def Config.size (cfg : Config) : Nat := cfg.runnables.length

/-- Where a goroutine of `Start` stands: it has an error to send, or it has sent it and will
cancel the shared context. -/
inductive Stage
  | idle
  | running
  | reporting (err : Err)
  | canceling
  | done
  deriving DecidableEq

/-- The goroutine when `Start` has returned. -/
def afterStart : Option Err → Stage
  | none => .done
  | some err => if err.is "context canceled" then .done else .reporting err

/-- Where `Run` stands; `stopping` counts the runnables that are left. -/
inductive Phase
  | launching (k : Nat)
  | select
  | triggered (trigger : Option Err)
  | stopping (trigger : Option Err) (left : Nat)
  | waiting (trigger : Option Err)
  | returned (trigger : Option Err)
  deriving DecidableEq

structure State where
  ctx : Option Cause
  runCtx : Option Cause
  run : Phase
  starts : Nat → Stage
  errCh : List Err

/-- `Run` when it has made the shared context. -/
def State.new (ctx : Option Cause) : State where
  ctx := ctx
  runCtx := ctx
  run := .launching 0
  starts _ := .idle
  errCh := []

/-- `cancel()`. -/
def State.cancel (s : State) : State := { s with runCtx := s.runCtx.or (some .canceled) }

def State.setStart (s : State) (i : Nat) (stage : Stage) : State :=
  { s with starts := Function.update s.starts i stage }

@[simp] theorem State.setStart_self (s : State) (i : Nat) (stage : Stage) :
    (s.setStart i stage).starts i = stage :=
  Function.update_self _ _ _

theorem State.setStart_of_ne (s : State) {i j : Nat} (stage : Stage) (hj : j ≠ i) :
    (s.setStart i stage).starts j = s.starts j :=
  Function.update_of_ne hj _ _

theorem State.forall_setStart {s : State} {i : Nat} {stage : Stage} (p : Nat → Stage → Prop) :
    (∀ j, p j ((s.setStart i stage).starts j)) ↔ p i stage ∧ ∀ j, j ≠ i → p j (s.starts j) :=
  Function.forall_update_iff s.starts p

inductive Label
  | ended (c : Cause)
  | propagated
  | launch (i : Nat)
  | launched
  | startReturned (i : Nat) (result : Option Err)
  | sent (i : Nat)
  | startCanceled (i : Nat)
  | triggered (trigger : Option Err)
  | canceled
  | stop (i : Nat)
  | stopped
  | returned (trigger : Option Err)
  deriving DecidableEq

inductive Step (cfg : Config) : State → Label → State → Prop
  | ended {s c} : s.ctx = none → (c = .deadline → cfg.deadline = true) →
      Step cfg s (.ended c) { s with ctx := some c }
  | propagated {s c} : s.ctx = some c → s.runCtx = none →
      Step cfg s .propagated { s with runCtx := some c }
  | launch {s k} : s.run = .launching k → k < cfg.size →
      Step cfg s (.launch k) { s.setStart k .running with run := .launching (k + 1) }
  | launched {s} : s.run = .launching cfg.size → Step cfg s .launched { s with run := .select }
  | startReturned {s i b result} : s.starts i = .running → cfg.runnables[i]? = some b →
      b.Returns s.runCtx result →
      Step cfg s (.startReturned i result) (s.setStart i (afterStart result))
  | sent {s i err} : s.starts i = .reporting err → s.errCh.length < cfg.size →
      Step cfg s (.sent i) { s.setStart i .canceling with errCh := s.errCh ++ [err] }
  | startCanceled {s i} : s.starts i = .canceling →
      Step cfg s (.startCanceled i) (s.cancel.setStart i .done)
  | triggeredDone {s} : s.run = .select → s.ctx ≠ none →
      Step cfg s (.triggered none) { s with run := .triggered none }
  | triggeredErr {s err rest} : s.run = .select → s.errCh = err :: rest →
      Step cfg s (.triggered (some err)) { s with run := .triggered (some err), errCh := rest }
  | canceled {s trigger} : s.run = .triggered trigger →
      Step cfg s .canceled { s.cancel with run := .stopping trigger cfg.size }
  | stop {s trigger k} : s.run = .stopping trigger (k + 1) →
      Step cfg s (.stop k) { s with run := .stopping trigger k }
  | stopped {s trigger} : s.run = .stopping trigger 0 →
      Step cfg s .stopped { s with run := .waiting trigger }
  | drained {s trigger} : s.run = .waiting trigger → (∀ i < cfg.size, s.starts i = .done) →
      Step cfg s (.returned trigger) { s with run := .returned trigger }
  | timedOut {s trigger} : s.run = .waiting trigger → 0 < cfg.shutdownTimeout →
      Step cfg s (.returned trigger) { s with run := .returned trigger }

/-- `Run`, with a context that has ended or not. -/
def group (cfg : Config) : Machine State Label where
  init s := ∃ ctx, (ctx = some .deadline → cfg.deadline = true) ∧ s = .new ctx
  step := Step cfg

end Code

section Spec

/-- The label is a step of `Run`. -/
def Label.ofRun : Label → Bool
  | .launch _ | .launched | .triggered _ | .canceled | .stop _ | .stopped | .returned _ => true
  | _ => false

/-- The runnable that a label stops. -/
def Label.stopOf : Label → Option Nat
  | .stop i => some i
  | _ => none

/-- The runnables that were stopped, in the order of the calls. -/
def stops (tr : List Label) : List Nat := (tr.filterMap Label.stopOf).reverse

/-- `Run` has returned, or it waits for what it has to wait for: for the end of the context or an
error, and with no timeout for the goroutines. -/
def Waits (cfg : Config) (s : State) : Prop :=
  (s.run = .select ∧ s.ctx = none ∧ s.errCh = []) ∨
    (∃ trigger, s.run = .waiting trigger ∧ cfg.shutdownTimeout ≤ 0 ∧
      ∃ i < cfg.size, s.starts i ≠ .done) ∨
    ∃ trigger, s.run = .returned trigger

/-- What is asked of a run of the group. -/
structure Supervised (cfg : Config) (tr : List Label) (s : State) : Prop where
  canceled : ∀ i r, .stop i :: r <:+ tr → .canceled ∈ r
  ended : .canceled ∈ tr → s.runCtx ≠ none
  order : stops tr <+: (List.range cfg.size).reverse
  all : ∀ trigger r, tr = .returned trigger :: r → stops tr = (List.range cfg.size).reverse
  moves : Waits cfg s ∨ ∃ l s', l.ofRun = true ∧ Step cfg s l s'
  turns : tr.countP Label.ofRun ≤ 2 * cfg.size + 5
  reports : ∀ i err, s.starts i = .reporting err → ∃ s', Step cfg s (.sent i) s'
  cause : ∀ err r, tr = .returned (some err) :: r →
    (∃ i, .startReturned i (some err) ∈ tr) ∧ s.ctx.map Cause.err ≠ some err
  clean : ∀ trigger r c, tr = .returned trigger :: r → s.ctx = some c →
    (∀ i result, .startReturned i result ∈ tr → result = none ∨ result = some c.err) →
    trigger = none

/-- A `Start` that may return the error of a deadline. -/
def Behaviour.PassesDeadline (b : Behaviour) : Prop :=
  b = .untilEnd ∨ b = .returns (some Cause.deadline.err)

end Spec

section Phases

variable {cfg : Config} {tr r : List Label} {s s' : State} {l : Label} {n : Nat}

/-- The goroutines that `Run` has launched. -/
def Phase.launches (n : Nat) : Phase → Nat
  | .launching k => k
  | _ => n

/-- The runnables that are not stopped. -/
def Phase.left (n : Nat) : Phase → Nat
  | .stopping _ k => k
  | .waiting _ | .returned _ => 0
  | _ => n

def Phase.hasCanceled : Phase → Bool
  | .stopping _ _ | .waiting _ | .returned _ => true
  | _ => false

/-- The steps of `Run` so far. -/
def Phase.turns (n : Nat) : Phase → Nat
  | .launching k => k
  | .select => n + 1
  | .triggered _ => n + 2
  | .stopping _ k => n + 3 + (n - k)
  | .waiting _ => 2 * n + 4
  | .returned _ => 2 * n + 5

def Phase.trigger : Phase → Option Err
  | .triggered t | .stopping t _ | .waiting t | .returned t => t
  | _ => none

/-- What the steps of `Run` say about where it stands. -/
structure Told (n : Nat) (tr : List Label) (p : Phase) : Prop where
  launches : p.launches n ≤ n
  left : p.left n ≤ n
  stops : tr.filterMap Label.stopOf = List.range' (p.left n) (n - p.left n)
  canceled : .canceled ∈ tr ↔ p.hasCanceled = true
  turns : tr.countP Label.ofRun = p.turns n

theorem Told.other {p : Phase} (h : Told n tr p) (hl : l.ofRun = false) : Told n (l :: tr) p where
  launches := h.launches
  left := h.left
  stops := by
    rw [← h.stops]
    cases l <;> first | rfl | cases hl
  canceled := by
    have hne : Label.canceled ≠ l := by
      rintro rfl
      cases hl
    rw [← h.canceled, mem_cons, or_iff_right hne]
  turns := by rw [countP_cons_of_neg (by simp [hl]), h.turns]

theorem Step.run_eq (hst : Step cfg s l s') (hl : l.ofRun = false) : s'.run = s.run := by
  cases hst <;> first | rfl | cases hl

theorem Told.move {p p' : Phase} (h : Told n tr p) (hl : l.ofRun = true) (hstop : l.stopOf = none)
    (hlaunches : p'.launches n ≤ n) (hleft : p'.left n = p.left n)
    (hcancel : p'.hasCanceled = true ↔ .canceled = l ∨ p.hasCanceled = true)
    (hturns : p'.turns n = p.turns n + 1) : Told n (l :: tr) p' where
  launches := hlaunches
  left := hleft ▸ h.left
  stops := by rw [filterMap_cons_none hstop, h.stops, hleft]
  canceled := by rw [mem_cons, h.canceled, hcancel]
  turns := by rw [countP_cons_of_pos hl, h.turns, hturns]

theorem Told.stop {trigger : Option Err} {k : Nat} (h : Told n tr (.stopping trigger (k + 1))) :
    Told n (.stop k :: tr) (.stopping trigger k) := by
  have hleft : k + 1 ≤ n := h.left
  refine ⟨h.launches, Nat.le_of_succ_le hleft, ?_, ?_, ?_⟩
  · have hcount : n - k = n - (k + 1) + 1 := by omega
    have hstop : Label.stopOf (.stop k) = some k := rfl
    rw [filterMap_cons_some hstop, h.stops]
    simp only [Phase.left]
    rw [hcount, List.range'_succ]
  · rw [mem_cons, or_iff_right nofun, h.canceled]
    rfl
  · rw [countP_cons_of_pos rfl, h.turns]
    simp only [Phase.turns]
    omega

theorem Told.step (h : Told cfg.size tr s.run) (hst : Step cfg s l s') :
    Told cfg.size (l :: tr) s'.run := by
  by_cases hl : l.ofRun = true
  · cases hst with
    | launch hrun hk =>
      rw [hrun] at h
      exact h.move rfl rfl hk rfl (by simp [Phase.hasCanceled]) rfl
    | launched hrun | triggeredDone hrun _ | triggeredErr hrun _ =>
      rw [hrun] at h
      exact h.move rfl rfl le_rfl rfl (by simp [Phase.hasCanceled]) rfl
    | canceled hrun =>
      rw [hrun] at h
      exact h.move rfl rfl le_rfl rfl (by simp [Phase.hasCanceled]) (by simp [Phase.turns])
    | stop hrun =>
      rw [hrun] at h
      exact h.stop
    | stopped hrun =>
      rw [hrun] at h
      exact h.move rfl rfl le_rfl rfl (by simp [Phase.hasCanceled]) (by simp [Phase.turns]; omega)
    | drained hrun _ | timedOut hrun _ =>
      rw [hrun] at h
      exact h.move rfl rfl le_rfl rfl (by simp [Phase.hasCanceled]) rfl
    | _ => cases hl
  · rw [Bool.not_eq_true] at hl
    rw [hst.run_eq hl]
    exact h.other hl

theorem told (h : Trace (group cfg) tr s) : Told cfg.size tr s.run := by
  refine h.invariant (I := fun tr s => Told cfg.size tr s.run) ?_ ?_
  · rintro s ⟨ctx, -, rfl⟩
    exact ⟨Nat.zero_le _, le_rfl, by simp [State.new, Phase.left], by
      simp [State.new, Phase.hasCanceled], rfl⟩
  · intro tr s l s' _ hst ih
    exact ih.step hst

end Phases

section Starts

variable {cfg : Config} {tr r : List Label} {s s' : State} {l : Label} {err : Err}

/-- The goroutine will not send any more. -/
def Stage.past : Stage → Bool
  | .canceling | .done => true
  | _ => false

/-- The goroutines that were launched, and the senders of what is in the channel. -/
structure Senders (n : Nat) (s : State) : Prop where
  launched : ∀ i, s.starts i = .idle ↔ s.run.launches n ≤ i
  queued : ∃ senders : List Nat, senders.Nodup ∧ senders.length = s.errCh.length ∧
    ∀ i ∈ senders, (s.starts i).past = true

theorem afterStart_ne (result : Option Err) :
    afterStart result ≠ .idle ∧ afterStart result ≠ .running := by
  cases result with
  | none => exact ⟨nofun, nofun⟩
  | some err =>
    simp only [afterStart]
    split_ifs <;> exact ⟨nofun, nofun⟩

theorem Senders.setStart {n i : Nat} {a : Stage} (h : Senders n s) (hidle : s.starts i ≠ .idle)
    (ha : a ≠ .idle) (hpast : (s.starts i).past = true → a.past = true) :
    Senders n (s.setStart i a) := by
  have hlt : ¬ s.run.launches n ≤ i := fun hle => hidle ((h.launched i).mpr hle)
  obtain ⟨senders, hnodup, hlength, hall⟩ := h.queued
  refine ⟨?_, senders, hnodup, hlength, ?_⟩
  · exact (State.forall_setStart fun j x => x = .idle ↔ s.run.launches n ≤ j).mpr
      ⟨iff_of_false ha hlt, fun j _ => h.launched j⟩
  · exact (State.forall_setStart fun j x => j ∈ senders → x.past = true).mpr
      ⟨fun hi => hpast (hall i hi), fun j _ => hall j⟩

theorem Senders.same {n : Nat} (h : Senders n s) (hstarts : s'.starts = s.starts)
    (herrCh : s'.errCh = s.errCh) (hrun : s'.run.launches n = s.run.launches n) :
    Senders n s' := by
  refine ⟨fun i => ?_, ?_⟩
  · rw [hstarts, hrun]
    exact h.launched i
  · rw [hstarts, herrCh]
    exact h.queued

theorem Senders.step (h : Senders cfg.size s) (hst : Step cfg s l s') : Senders cfg.size s' := by
  cases hst with
  | ended | propagated => exact h.same rfl rfl rfl
  | @launch k hrun hk =>
    obtain ⟨senders, hnodup, hlength, hall⟩ := h.queued
    have hidle : s.starts k = .idle := (h.launched k).mpr (by rw [hrun]; exact le_rfl)
    have hnot : k ∉ senders := by
      intro hmem
      have := hall k hmem
      rw [hidle] at this
      cases this
    refine ⟨?_, senders, hnodup, hlength, ?_⟩
    · refine (State.forall_setStart fun i x => x = .idle ↔ k + 1 ≤ i).mpr
        ⟨iff_of_false nofun (Nat.not_succ_le_self k), fun i hi => ?_⟩
      rw [h.launched, hrun]
      exact ⟨fun hle => Nat.lt_of_le_of_ne hle hi.symm, Nat.le_of_succ_le⟩
    · exact (State.forall_setStart fun i x => i ∈ senders → x.past = true).mpr
        ⟨fun hmem => absurd hmem hnot, fun i _ => hall i⟩
  | launched hrun => exact h.same rfl rfl (by rw [hrun]; rfl)
  | startReturned hi _ _ =>
    exact h.setStart (by rw [hi]; nofun) (afterStart_ne _).1 (by rw [hi]; nofun)
  | @sent i err hi hroom =>
    have hset := h.setStart (i := i) (a := .canceling) (by rw [hi]; nofun) nofun (fun _ => rfl)
    obtain ⟨senders, hnodup, hlength, hall⟩ := h.queued
    have hnot : i ∉ senders := by
      intro hmem
      have := hall i hmem
      rw [hi] at this
      cases this
    refine ⟨hset.launched, i :: senders, nodup_cons.mpr ⟨hnot, hnodup⟩, by simp [hlength], ?_⟩
    exact (State.forall_setStart fun j x => j ∈ i :: senders → x.past = true).mpr
      ⟨fun _ => rfl, fun j hj hmem => hall j ((mem_cons.mp hmem).resolve_left hj)⟩
  | startCanceled hi =>
    have hcancel : Senders cfg.size s.cancel := h.same rfl rfl rfl
    exact hcancel.setStart (by simp [State.cancel, hi]) nofun (fun _ => rfl)
  | triggeredDone hrun | canceled hrun | stop hrun | stopped hrun | drained hrun | timedOut hrun =>
    exact h.same rfl rfl (by rw [hrun]; rfl)
  | triggeredErr hrun herr =>
    obtain ⟨senders, hnodup, hlength, hall⟩ := h.queued
    refine ⟨?_, senders.tail, hnodup.tail, by simp [hlength, herr], fun i hi => ?_⟩
    · have := h.launched
      rw [hrun] at this
      exact this
    · exact hall i (mem_of_mem_tail hi)

theorem senders (h : Trace (group cfg) tr s) : Senders cfg.size s := by
  refine h.invariant (I := fun _ s => Senders cfg.size s) ?_ ?_
  · rintro s ⟨ctx, -, rfl⟩
    exact ⟨by simp [State.new, Phase.launches], [], by simp [State.new]⟩
  · intro tr s l s' _ hst ih
    exact ih.step hst

theorem room (h : Trace (group cfg) tr s) {i : Nat} (hi : s.starts i = .reporting err) :
    s.errCh.length < cfg.size := by
  have hs := senders h
  have hlaunches := (told h).launches
  have hlt : ∀ j, s.starts j ≠ .idle → j < cfg.size := by
    intro j hj
    have := mt (hs.launched j).mpr hj
    omega
  obtain ⟨senders, hnodup, hlength, hall⟩ := hs.queued
  have hnot : i ∉ senders := by
    intro hmem
    have := hall i hmem
    rw [hi] at this
    cases this
  have hsub : i :: senders ⊆ List.range cfg.size := by
    intro j hj
    rw [mem_range]
    refine hlt j fun hidle => ?_
    rcases mem_cons.mp hj with rfl | hj
    · rw [hi] at hidle
      cases hidle
    · have := hall j hj
      rw [hidle] at this
      cases this
  have hle := (subperm_of_subset (nodup_cons.mpr ⟨hnot, hnodup⟩) hsub).length_le
  simp only [length_cons, length_range] at hle
  omega

end Starts

section Causes

variable {cfg : Config} {tr r : List Label} {s s' : State} {l : Label} {err : Err} {i : Nat}
  {result : Option Err}

/-- Some `Start` has returned the error, and it is not `context.Canceled`. -/
def Failed (tr : List Label) (err : Err) : Prop :=
  err.is "context canceled" = false ∧ ∃ i, .startReturned i (some err) ∈ tr

theorem Failed.cons (h : Failed tr err) : Failed (l :: tr) err :=
  ⟨h.1, h.2.imp fun _ hi => mem_cons_of_mem _ hi⟩

/-- Where the errors come from. -/
structure Heard (tr : List Label) (s : State) : Prop where
  reporting : ∀ i err, s.starts i = .reporting err → Failed tr err
  queued : ∀ err ∈ s.errCh, Failed tr err
  trigger : ∀ err, s.run.trigger = some err → Failed tr err

theorem Heard.cons (h : Heard tr s) : Heard (l :: tr) s :=
  ⟨fun i err hi => (h.reporting i err hi).cons, fun err he => (h.queued err he).cons,
    fun err he => (h.trigger err he).cons⟩

theorem Heard.setStart {a : Stage} (h : Heard tr s)
    (ha : ∀ err, a = .reporting err → Failed tr err) : Heard tr (s.setStart i a) := by
  refine ⟨?_, h.queued, h.trigger⟩
  exact (State.forall_setStart fun _ x => ∀ err, x = .reporting err → Failed tr err).mpr
    ⟨ha, fun j _ => h.reporting j⟩

theorem Heard.cancel (h : Heard tr s) : Heard tr s.cancel := ⟨h.reporting, h.queued, h.trigger⟩

theorem failed_afterStart
    (h : afterStart result = .reporting err) : Failed (.startReturned i result :: tr) err := by
  cases result with
  | none => cases h
  | some e =>
    simp only [afterStart] at h
    split_ifs at h with hcanceled
    cases h
    exact ⟨Bool.eq_false_iff.mpr hcanceled, i, mem_cons_self⟩

theorem Heard.step (h : Heard tr s) (hst : Step cfg s l s') : Heard (l :: tr) s' := by
  have hcons : Heard (l :: tr) s := h.cons
  cases hst with
  | ended | propagated => exact ⟨hcons.reporting, hcons.queued, hcons.trigger⟩
  | launch => exact ⟨(hcons.setStart (a := .running) nofun).reporting, hcons.queued, nofun⟩
  | launched | triggeredDone => exact ⟨hcons.reporting, hcons.queued, nofun⟩
  | startReturned => exact hcons.setStart fun err => failed_afterStart
  | @sent i err hi hroom =>
    refine ⟨(hcons.setStart (a := .canceling) nofun).reporting, fun e he => ?_, hcons.trigger⟩
    rcases mem_append.mp he with he | he
    · exact hcons.queued e he
    · rw [mem_singleton.mp he]
      exact hcons.reporting i err hi
  | startCanceled => exact hcons.cancel.setStart nofun
  | triggeredErr hrun herr =>
    refine ⟨hcons.reporting, fun e he => ?_, fun e he => ?_⟩
    · exact hcons.queued e (herr ▸ mem_cons_of_mem _ he)
    · rw [← Option.some.inj he]
      exact hcons.queued _ (herr ▸ mem_cons_self)
  | canceled hrun | stop hrun | stopped hrun | drained hrun | timedOut hrun =>
    refine ⟨hcons.reporting, hcons.queued, ?_⟩
    have htrigger := hcons.trigger
    rw [hrun] at htrigger
    exact htrigger

variable (h : Trace (group cfg) tr s)
include h

theorem heard : Heard tr s := by
  refine h.invariant (I := Heard) ?_ ?_
  · rintro s ⟨ctx, -, rfl⟩
    exact ⟨nofun, nofun, nofun⟩
  · intro tr s l s' _ hst ih
    exact ih.step hst

theorem deadline_of_ctx (hctx : s.ctx = some .deadline) : cfg.deadline = true := by
  revert hctx
  refine h.invariant (I := fun _ s => s.ctx = some .deadline → cfg.deadline = true) ?_ ?_
  · rintro s ⟨ctx, hctx, rfl⟩
    exact hctx
  · intro tr s l s' _ hst ih
    cases hst with
    | ended _ hc => exact fun heq => hc (Option.some.inj heq)
    | _ => exact ih

theorem runCtx_of_canceled (hrun : s.run.hasCanceled = true) : s.runCtx ≠ none := by
  revert hrun
  refine h.invariant (I := fun _ s => s.run.hasCanceled = true → s.runCtx ≠ none) ?_ ?_
  · rintro s ⟨ctx, -, rfl⟩
    nofun
  · intro tr s l s' _ hst ih
    cases hst with
    | propagated => exact fun _ => nofun
    | launch | launched | triggeredDone | triggeredErr => nofun
    | startCanceled | canceled =>
      intro _
      simp [State.cancel, State.setStart]
    | stop hrun | stopped hrun | drained hrun | timedOut hrun =>
      rw [hrun] at ih
      exact fun _ => ih rfl
    | _ => exact ih

theorem returns_of_startReturned (hmem : .startReturned i result ∈ tr) :
    ∃ b ∈ cfg.runnables, ∃ runCtx, b.Returns runCtx result := by
  obtain ⟨a, r, htr⟩ := append_of_mem hmem
  obtain ⟨s₀, s₁, -, hst⟩ := h.at_label ⟨a, htr.symm⟩
  cases hst with
  | startReturned _ hb hreturns => exact ⟨_, mem_of_getElem? hb, _, hreturns⟩

end Causes

section Runs

variable {cfg : Config} {tr r : List Label} {s s' : State}

theorem moves (h : Trace (group cfg) tr s) :
    Waits cfg s ∨ ∃ l s', l.ofRun = true ∧ Step cfg s l s' := by
  have ht := told h
  cases hrun : s.run with
  | launching k =>
    rw [hrun] at ht
    have hk : k ≤ cfg.size := ht.launches
    rcases hk.lt_or_eq with hk | rfl
    · exact .inr ⟨_, _, rfl, .launch hrun hk⟩
    · exact .inr ⟨_, _, rfl, .launched hrun⟩
  | select =>
    by_cases hctx : s.ctx = none
    · cases herr : s.errCh with
      | nil => exact .inl (.inl ⟨hrun, hctx, herr⟩)
      | cons err rest => exact .inr ⟨_, _, rfl, .triggeredErr hrun herr⟩
    · exact .inr ⟨_, _, rfl, .triggeredDone hrun hctx⟩
  | triggered t => exact .inr ⟨_, _, rfl, .canceled hrun⟩
  | stopping t k =>
    cases k with
    | zero => exact .inr ⟨_, _, rfl, .stopped hrun⟩
    | succ k => exact .inr ⟨_, _, rfl, .stop hrun⟩
  | waiting t =>
    by_cases hall : ∀ i < cfg.size, s.starts i = .done
    · exact .inr ⟨_, _, rfl, .drained hrun hall⟩
    · rcases lt_or_ge 0 cfg.shutdownTimeout with htimeout | htimeout
      · exact .inr ⟨_, _, rfl, .timedOut hrun htimeout⟩
      · push Not at hall
        exact .inl (.inr (.inl ⟨t, hrun, htimeout, hall⟩))
  | returned t => exact .inl (.inr (.inr ⟨t, hrun⟩))

theorem Told.turns_le {n : Nat} {p : Phase} (h : Told n tr p) :
    tr.countP Label.ofRun ≤ 2 * n + 5 := by
  have hlaunches := h.launches
  rw [h.turns]
  cases p <;> simp only [Phase.turns, Phase.launches] at hlaunches ⊢ <;> omega

theorem run_of_returned {trigger : Option Err}
    (h : Trace (group cfg) (.returned trigger :: r) s) : s.run = .returned trigger := by
  cases h with
  | step _ hst => cases hst <;> rfl

/-- The error that `Run` returns comes from a `Start`, and it is not that of a cancellation. -/
theorem failed_of_returned {err : Err} (h : Trace (group cfg) (.returned (some err) :: r) s) :
    Failed (.returned (some err) :: r) err :=
  (heard h).trigger err (by rw [run_of_returned h]; rfl)

theorem ne_ctx_of_returned {err : Err}
    (hcfg : ¬ (cfg.deadline = true ∧ ∃ b ∈ cfg.runnables, b.PassesDeadline))
    (h : Trace (group cfg) (.returned (some err) :: r) s) : s.ctx.map Cause.err ≠ some err := by
  intro hctx
  obtain ⟨c, hc, rfl⟩ := Option.map_eq_some_iff.mp hctx
  obtain ⟨hcanceled, i, hmem⟩ := failed_of_returned h
  cases c with
  | canceled => exact absurd hcanceled (by decide)
  | deadline =>
    refine hcfg ⟨deadline_of_ctx h hc, ?_⟩
    obtain ⟨b, hb, runCtx, hreturns⟩ := returns_of_startReturned h hmem
    refine ⟨b, hb, ?_⟩
    cases b with
    | returns result => exact .inr (congrArg _ hreturns.symm)
    | untilEnd => exact .inl rfl

theorem supervised (hcfg : ¬ (cfg.deadline = true ∧ ∃ b ∈ cfg.runnables, b.PassesDeadline))
    (h : Trace (group cfg) tr s) : Supervised cfg tr s where
  canceled := by
    intro i r hr
    obtain ⟨s₀, s₁, h₀, hst⟩ := h.at_label hr
    cases hst with
    | stop hrun => exact (told h₀).canceled.mpr (by rw [hrun]; rfl)
  ended hmem := runCtx_of_canceled h ((told h).canceled.mp hmem)
  order := by
    have ht := told h
    rw [stops, reverse_prefix, ht.stops, range_eq_range']
    have happend := List.range'_append_1 (s := 0) (m := s.run.left cfg.size)
      (n := cfg.size - s.run.left cfg.size)
    rw [Nat.zero_add, Nat.add_sub_cancel' ht.left] at happend
    exact ⟨_, happend⟩
  all := by
    rintro trigger r rfl
    rw [stops, (told h).stops, run_of_returned h, range_eq_range']
    rfl
  moves := moves h
  turns := (told h).turns_le
  reports i err hi := ⟨_, .sent hi (room h hi)⟩
  cause := by
    rintro err r rfl
    exact ⟨(failed_of_returned h).2, ne_ctx_of_returned hcfg h⟩
  clean := by
    rintro trigger r c rfl hc hall
    cases trigger with
    | none => rfl
    | some err =>
      obtain ⟨-, i, hmem⟩ := failed_of_returned h
      have hctx := ne_ctx_of_returned hcfg h
      rcases hall i _ hmem with heq | heq
      · cases heq
      · exact absurd (by rw [hc, heq]; rfl) hctx

end Runs

section Expiry

variable {cfg : Config} {k : Nat} {b : Behaviour} {trigger : Option Err} {c : Cause}

theorem reaches_launching (cfg : Config) (hk : k ≤ cfg.size) :
    Reaches (group cfg) fun s => s.run = .launching k ∧ s.ctx = none ∧ s.runCtx = none ∧
      s.errCh = [] ∧ ∀ i < k, s.starts i = .running := by
  induction k with
  | zero => exact ⟨[], .new none, .init ⟨none, nofun, rfl⟩, rfl, rfl, rfl, rfl, nofun⟩
  | succ k ih =>
    refine (ih (Nat.le_of_succ_le hk)).step ?_
    rintro tr s - ⟨hrun, hctx, hrunCtx, herr, hstarts⟩
    refine .inr ⟨_, _, .launch hrun hk, rfl, hctx, hrunCtx, herr, fun i hi => ?_⟩
    rcases Nat.lt_succ_iff_lt_or_eq.mp hi with hi | rfl
    · exact (State.setStart_of_ne s _ hi.ne).trans (hstarts i hi)
    · exact State.setStart_self s i _

theorem reaches_expired (hd : cfg.deadline = true) :
    Reaches (group cfg) fun s => s.run = .select ∧ s.ctx = some .deadline ∧
      s.runCtx = some .deadline ∧ s.errCh = [] ∧ ∀ i < cfg.size, s.starts i = .running := by
  have hselect := (reaches_launching cfg le_rfl).step (Q := fun s => s.run = .select ∧
    s.ctx = none ∧ s.runCtx = none ∧ s.errCh = [] ∧ ∀ i < cfg.size, s.starts i = .running)
    fun tr s _ h => .inr ⟨_, _, .launched h.1, rfl, h.2⟩
  have hended := hselect.step (Q := fun s => s.run = .select ∧
    s.ctx = some .deadline ∧ s.runCtx = none ∧ s.errCh = [] ∧
      ∀ i < cfg.size, s.starts i = .running)
    fun tr s _ h => .inr ⟨_, _, .ended h.2.1 fun _ => hd, h.1, rfl, h.2.2⟩
  exact hended.step fun tr s _ h => .inr ⟨_, _, .propagated h.2.1 h.2.2.1, h.1, h.2.1, rfl, h.2.2.2⟩

theorem passesDeadline_returns (hb : b.PassesDeadline) :
    b.Returns (some .deadline) (some Cause.deadline.err) := by
  rcases hb with rfl | rfl
  · exact ⟨_, rfl, rfl⟩
  · rfl

theorem reaches_stopping (hd : cfg.deadline = true) (hb : b ∈ cfg.runnables)
    (hpass : b.PassesDeadline) :
    Reaches (group cfg) fun s => s.run = .stopping (some Cause.deadline.err) cfg.size ∧
      s.ctx = some .deadline := by
  obtain ⟨i, hi, rfl⟩ := mem_iff_getElem.mp hb
  have hreporting := (reaches_expired hd).step (Q := fun s => s.run = .select ∧
    s.ctx = some .deadline ∧ s.errCh = [] ∧ s.starts i = .reporting Cause.deadline.err) <| by
    rintro tr s - ⟨hrun, hctx, hrunCtx, herr, hstarts⟩
    have hreturns := hrunCtx ▸ passesDeadline_returns hpass
    refine .inr ⟨_, _, .startReturned (hstarts i hi) (getElem?_eq_getElem hi) hreturns, hrun,
      hctx, herr, State.setStart_self _ _ _⟩
  have hsent := hreporting.step (Q := fun s => s.run = .select ∧ s.ctx = some .deadline ∧
    s.errCh = [Cause.deadline.err]) <| by
    rintro tr s htr ⟨hrun, hctx, herr, hstart⟩
    exact .inr ⟨_, _, .sent hstart (room htr hstart), hrun, hctx, by simp [herr]⟩
  have htriggered := hsent.step (Q := fun s => s.run = .triggered (some Cause.deadline.err) ∧
    s.ctx = some .deadline) fun tr s _ h => .inr ⟨_, _, .triggeredErr h.1 h.2.2, rfl, h.2.1⟩
  exact htriggered.step fun tr s _ h => .inr ⟨_, _, .canceled h.1, rfl, h.2⟩

theorem reaches_waiting
    (h : Reaches (group cfg) fun s => s.run = .stopping trigger k ∧ s.ctx = some c) :
    Reaches (group cfg) fun s => s.run = .waiting trigger ∧ s.ctx = some c := by
  induction k with
  | zero => exact h.step fun tr s _ hs => .inr ⟨_, _, .stopped hs.1, rfl, hs.2⟩
  | succ k ih => exact ih (h.step fun tr s _ hs => .inr ⟨_, _, .stop hs.1, rfl, hs.2⟩)

/-- `Run` waits, the first goroutines have returned, and the next one is where it is. -/
def Draining (trigger : Option Err) (c : Cause) (k : Nat) (here : Stage → Prop) (s : State) :
    Prop :=
  s.run = .waiting trigger ∧ s.ctx = some c ∧ (∀ i < k, s.starts i = .done) ∧ here (s.starts k)

theorem Draining.setStart {P Q : Stage → Prop} {s : State}
    {a : Stage} (h : Draining trigger c k P s) (ha : Q a) :
    Draining trigger c k Q (s.setStart k a) := by
  obtain ⟨hrun, hctx, hdone, -⟩ := h
  refine ⟨hrun, hctx, fun i hi => ?_, by rw [State.setStart_self]; exact ha⟩
  rw [State.setStart_of_ne _ _ hi.ne]
  exact hdone i hi

theorem returns_some (b : Behaviour) {runCtx : Option Cause} (h : runCtx ≠ none) :
    ∃ result, b.Returns runCtx result := by
  obtain ⟨c, rfl⟩ := Option.ne_none_iff_exists'.mp h
  cases b with
  | returns result => exact ⟨result, rfl⟩
  | untilEnd => exact ⟨_, c, rfl, rfl⟩

theorem reaches_done (hk : k < cfg.size)
    (h : Reaches (group cfg) (Draining trigger c k fun _ => True)) :
    Reaches (group cfg) (Draining trigger c k (· = .done)) := by
  have hreturned := h.step (Q := Draining trigger c k fun a => a ≠ .idle ∧ a ≠ .running) <| by
    intro tr s htr hs
    have hidle : s.starts k ≠ .idle := by
      rw [Ne, (senders htr).launched, hs.1]
      exact Nat.not_le.mpr hk
    by_cases hrunning : s.starts k = .running
    · have hended := runCtx_of_canceled htr (by rw [hs.1]; rfl)
      obtain ⟨result, hresult⟩ := returns_some cfg.runnables[k] hended
      exact .inr ⟨_, _, .startReturned hrunning (getElem?_eq_getElem hk) hresult,
        hs.setStart (afterStart_ne _)⟩
    · exact .inl ⟨hs.1, hs.2.1, hs.2.2.1, hidle, hrunning⟩
  have hpast := hreturned.step (Q := Draining trigger c k (·.past = true)) <| by
    intro tr s htr hs
    cases hstage : s.starts k with
    | idle => exact absurd hstage hs.2.2.2.1
    | running => exact absurd hstage hs.2.2.2.2
    | reporting err =>
      have hset := hs.setStart (Q := (·.past = true)) (a := .canceling) rfl
      exact .inr ⟨_, _, .sent hstage (room htr hstage), hset.1, hset.2.1, hset.2.2.1, hset.2.2.2⟩
    | canceling | done => exact .inl ⟨hs.1, hs.2.1, hs.2.2.1, by rw [hstage]; rfl⟩
  exact hpast.step <| by
    intro tr s htr hs
    cases hstage : s.starts k with
    | canceling =>
      have hset := hs.setStart (Q := (· = .done)) (a := .done) rfl
      exact .inr ⟨_, _, .startCanceled hstage, hset.1, hset.2.1, hset.2.2.1, hset.2.2.2⟩
    | done => exact .inl ⟨hs.1, hs.2.1, hs.2.2.1, hstage⟩
    | idle | running | reporting =>
      have hfalse := hs.2.2.2
      rw [hstage] at hfalse
      cases hfalse

theorem reaches_drained (hk : k ≤ cfg.size)
    (h : Reaches (group cfg) fun s => s.run = .waiting trigger ∧ s.ctx = some c) :
    Reaches (group cfg) (Draining trigger c k fun _ => True) := by
  induction k with
  | zero => exact h.step fun tr s _ hs => .inl ⟨hs.1, hs.2, nofun, trivial⟩
  | succ k ih =>
    refine (reaches_done hk (ih (Nat.le_of_succ_le hk))).step ?_
    rintro tr s - ⟨hrun, hctx, hdone, hk'⟩
    refine .inl ⟨hrun, hctx, fun i hi => ?_, trivial⟩
    rcases Nat.lt_succ_iff_lt_or_eq.mp hi with hi | rfl
    · exact hdone i hi
    · exact hk'

/-- `Run` returns the deadline of its own context. -/
theorem exists_returned_deadline (hd : cfg.deadline = true)
    (hb : b ∈ cfg.runnables) (hpass : b.PassesDeadline) :
    ∃ tr s, Trace (group cfg) (.returned (some Cause.deadline.err) :: tr) s ∧
      s.ctx = some .deadline := by
  obtain ⟨tr, s, htr, hrun, hctx, hdone, -⟩ :=
    reaches_drained le_rfl (reaches_waiting (reaches_stopping hd hb hpass))
  exact ⟨tr, _, .step htr (.drained hrun hdone), hctx⟩

end Expiry

section Results

/-- Every run of a group is as it should be if and only if no `Start` can pass on a deadline of
the context. -/
theorem supervised_iff (cfg : Config) :
    (∀ tr s, Trace (group cfg) tr s → Supervised cfg tr s) ↔
      ¬ (cfg.deadline = true ∧ ∃ b ∈ cfg.runnables, b.PassesDeadline) := by
  constructor
  · rintro hall ⟨hd, b, hb, hpass⟩
    obtain ⟨tr, s, htr, hctx⟩ := exists_returned_deadline hd hb hpass
    exact ((hall _ s htr).cause _ tr rfl).2 (by rw [hctx]; rfl)
  · intro hcfg tr s htr
    exact supervised hcfg htr

/-- A single `Loop` under a context with a deadline. -/
def loopGroup : Config where
  runnables := [.untilEnd]
  shutdownTimeout := 0
  deadline := true

/-- The only `Start` returns the error of the context, and `Run` reports it as a failure. -/
theorem loopGroup_deadline : ∃ tr s,
    Trace (group loopGroup) (.returned (some Cause.deadline.err) :: tr) s ∧
      s.ctx = some .deadline ∧
      (∀ i result, .startReturned i result ∈ tr → result = some Cause.deadline.err) ∧
      ¬ Supervised loopGroup (.returned (some Cause.deadline.err) :: tr) s := by
  have hnew : Trace (group loopGroup) [] (.new none) := .init ⟨none, nofun, rfl⟩
  have hlaunch := hnew.step (.launch rfl (by decide))
  have hlaunched := hlaunch.step (.launched rfl)
  have hended := hlaunched.step (.ended (c := .deadline) rfl fun _ => rfl)
  have hpropagated := hended.step (.propagated rfl rfl)
  have hreturned := hpropagated.step
    (.startReturned (i := 0) (b := .untilEnd) rfl rfl ⟨_, rfl, rfl⟩)
  have hsent := hreturned.step (.sent (i := 0) rfl (by decide))
  have hstart := hsent.step (.startCanceled (i := 0) rfl)
  have htriggered := hstart.step (.triggeredErr rfl rfl)
  have hcanceled := htriggered.step (.canceled rfl)
  have hstop := hcanceled.step (.stop rfl)
  have hstopped := hstop.step (.stopped rfl)
  have hdone := hstopped.step (.drained rfl (by decide))
  refine ⟨_, _, hdone, rfl, ?_, fun h => (h.cause _ _ rfl).2 rfl⟩
  intro i result hmem
  simp only [mem_cons, not_mem_nil, reduceCtorEq, false_or, or_false] at hmem
  cases hmem
  rfl

end Results

section Loops

variable {cfg : Config} {tr : List Label} {s s' : State} {l : Label}

/-- The loops are up. -/
structure Up (tr : List Label) (s : State) : Prop where
  labels : ∀ l ∈ tr, l = .launched ∨ ∃ i, l = .launch i
  runCtx : s.runCtx = none
  errCh : s.errCh = []
  starts : ∀ i, s.starts i = .idle ∨ s.starts i = .running
  run : s.run = .select ∨ ∃ k, s.run = .launching k

theorem Up.step (hcfg : ∀ b ∈ cfg.runnables, b = .untilEnd) (h : Up tr s) (hctx : s.ctx = none)
    (hst : Step cfg s l s') (hctx' : s'.ctx = none) : Up (l :: tr) s' := by
  cases hst with
  | ended => cases hctx'
  | propagated hc => cases hctx.symm.trans hc
  | launch =>
    exact ⟨forall_mem_cons.mpr ⟨.inr ⟨_, rfl⟩, h.labels⟩, h.runCtx, h.errCh,
      (State.forall_setStart fun _ a => a = .idle ∨ a = .running).mpr
        ⟨.inr rfl, fun j _ => h.starts j⟩, .inr ⟨_, rfl⟩⟩
  | launched =>
    exact ⟨forall_mem_cons.mpr ⟨.inl rfl, h.labels⟩, h.runCtx, h.errCh, h.starts, .inl rfl⟩
  | startReturned _ hb hreturns =>
    obtain rfl := hcfg _ (mem_of_getElem? hb)
    obtain ⟨c, hc, -⟩ := hreturns
    cases h.runCtx.symm.trans hc
  | @sent i _ hi | @startCanceled i hi =>
    have hup := h.starts i
    simp [hi] at hup
  | triggeredDone _ hne => exact absurd hctx hne
  | triggeredErr _ herr => cases h.errCh.symm.trans herr
  | canceled hrun | stop hrun | stopped hrun | drained hrun | timedOut hrun =>
    have hup := h.run
    simp [hrun] at hup

theorem up (hcfg : ∀ b ∈ cfg.runnables, b = .untilEnd) (h : Trace (group cfg) tr s)
    (hctx : s.ctx = none) : Up tr s := by
  revert hctx
  refine h.invariant (I := fun tr s => s.ctx = none → Up tr s) ?_ ?_
  · rintro s ⟨ctx, -, rfl⟩ hctx
    exact ⟨nofun, hctx, rfl, fun _ => .inl rfl, .inr ⟨0, rfl⟩⟩
  · intro tr s l s' _ hst ih hctx'
    have hctx : s.ctx = none := by
      cases hst with
      | ended hnone => exact hnone
      | _ => exact hctx'
    exact (ih hctx).step hcfg hctx hst hctx'

theorem deadline_of_runCtx (h : Trace (group cfg) tr s) (hd : s.runCtx = some .deadline) :
    cfg.deadline = true := by
  revert hd
  refine h.invariant (I := fun _ s => s.runCtx = some .deadline → cfg.deadline = true) ?_ ?_
  · rintro s ⟨ctx, hctx, rfl⟩
    exact hctx
  · intro tr s l s' htr hst ih
    cases hst with
    | propagated hc => exact fun hd => deadline_of_ctx htr (hc.trans hd)
    | startCanceled | canceled =>
      intro hd
      cases hc : s.runCtx <;> simp_all [State.cancel, State.setStart]
    | _ => exact ih

/-- As long as its own context lives a group of loops does nothing but launch them, and the only
error that it ever returns is that of a deadline of this context. -/
theorem loops_until_end (hcfg : ∀ b ∈ cfg.runnables, b = .untilEnd)
    (h : Trace (group cfg) tr s) :
    (s.ctx = none → ∀ l ∈ tr, l = .launched ∨ ∃ i, l = .launch i) ∧
    ∀ err r, tr = .returned (some err) :: r →
      err = Cause.deadline.err ∧ cfg.deadline = true := by
  refine ⟨fun hctx => (up hcfg h hctx).labels, ?_⟩
  rintro err r rfl
  obtain ⟨hcanceled, i, hmem⟩ := failed_of_returned h
  obtain ⟨a, r', htr⟩ := append_of_mem hmem
  obtain ⟨s₀, s₁, h₀, hst⟩ := h.at_label ⟨a, htr.symm⟩
  cases hst with
  | startReturned _ hb hreturns =>
    obtain rfl := hcfg _ (mem_of_getElem? hb)
    obtain ⟨c, hc, herr⟩ := hreturns
    obtain rfl := Option.some.inj herr
    cases c with
    | canceled => exact absurd hcanceled (by decide)
    | deadline => exact ⟨rfl, deadline_of_runCtx h₀ hc⟩

theorem loops_until_end_loopGroup : ∃ tr s,
    Trace (group loopGroup) (.returned (some Cause.deadline.err) :: tr) s ∧ s.ctx ≠ none := by
  have hd : loopGroup.deadline = true := rfl
  have hloops : ∀ b ∈ loopGroup.runnables, b = .untilEnd := by simp [loopGroup]
  obtain ⟨tr, s, h, -⟩ := exists_returned_deadline hd mem_cons_self (.inl rfl)
  refine ⟨tr, s, h, fun hctx => ?_⟩
  have hup := (loops_until_end hloops h).1 hctx _ mem_cons_self
  simp at hup

end Loops

end Skit.Worker.Group
