import Skit.Lib.Count
import Skit.Lib.Trace
import Mathlib.Data.Finset.Insert

/-!
# The pool of jobs

Any number of `Submit`, `Cancel` and `Shutdown` calls and the goroutines of the jobs run one step
at a time, in any order. The semaphore channel and the wait group are counters, the mutex has a
holder, and the map of running jobs is a set: a job is known by the call that submitted it.
-/
namespace Skit.Worker.Pool

open Lib

/-- A `Submit` call up to its `go` statement, and from there on the goroutine of its job. -/
inductive Stage
  | idle
  | called
  | selecting
  | acquired
  | locked
  | checked
  | tracked
  | added
  | launching
  | ready
  | running
  | returned
  | cancelled
  | untracking
  | deleted
  | untracked
  | done
  | finished
  | refusing
  | backing
  | giving
  | failed
  deriving DecidableEq, Repr

namespace Stage

/-- A slot of the semaphore is taken. -/
def holdsSlot : Stage → Bool
  | idle | called | selecting | finished | failed => false
  | _ => true

/-- The job is in the count of the wait group. -/
def counted : Stage → Bool
  | added | launching | ready | running | returned | cancelled | untracking | deleted
  | untracked => true
  | _ => false

/-- The job is in the map of the running ones. -/
def listed : Stage → Bool
  | tracked | added | launching | ready | running | returned | cancelled | untracking => true
  | _ => false

def inLock : Stage → Bool
  | locked | checked | tracked | added | refusing | untracking | deleted => true
  | _ => false

/-- No slot has been taken yet. -/
def early : Stage → Bool
  | idle | called | selecting => true
  | _ => false

/-- The goroutine is there. -/
def launched : Stage → Bool
  | ready | running | returned | cancelled | untracking | deleted | untracked | done
  | finished => true
  | _ => false

/-- The job has been called. -/
def begun : Stage → Bool
  | running | returned | cancelled | untracking | deleted | untracked | done | finished => true
  | _ => false

end Stage

/-- A `Cancel` of a job. -/
inductive CancelPhase (ι : Type)
  | idle
  | called (i : ι)
  | locked (i : ι)
  | acted (i : ι)
  | ended

/-- A `Shutdown`; `closed` has the jobs that its loop still has to cancel. -/
inductive ShutPhase (ι : Type)
  | idle
  | called
  | locked
  | closed (rest : Finset ι)
  | unlocked
  | drained
  | returned (ok : Bool)
  deriving DecidableEq

variable {ι κ ζ : Type}

def CancelPhase.inLock : CancelPhase ι → Bool
  | .locked _ | .acted _ => true
  | _ => false

namespace ShutPhase

def inLock : ShutPhase ι → Bool
  | locked | closed _ => true
  | _ => false

/-- The channel `isShutdown` has been closed. -/
def hasClosed : ShutPhase ι → Bool
  | closed _ | unlocked | drained | returned _ => true
  | _ => false

/-- What the loop has not come to. -/
def left : ShutPhase ι → Finset ι
  | closed rest => rest
  | _ => ∅

def hasUnlocked : ShutPhase ι → Bool
  | unlocked | drained | returned _ => true
  | _ => false

/-- The wait for the jobs is over. -/
def hasDrained : ShutPhase ι → Bool
  | drained | returned true => true
  | _ => false

end ShutPhase

inductive Holder (ι κ ζ : Type)
  | job (i : ι)
  | cancel (k : κ)
  | shutdown (j : ζ)
  deriving DecidableEq

/-- `cancels` has the jobs whose context is cancelled. -/
structure Shared (ι κ ζ : Type) where
  sem : Nat
  wg : Nat
  isShutdown : Bool
  lock : Option (Holder ι κ ζ)
  running : Finset ι
  cancels : Finset ι

inductive Action
  | call | enter | fail | acquire | lock | check | track | add | unlock | go
  | start | finish | cancel | delete | done | release | refuse
  deriving DecidableEq, Repr

variable [DecidableEq ι] [DecidableEq κ] [DecidableEq ζ]

/-- The steps of a `Submit` call and of its job, for a semaphore of the capacity. -/
inductive Act (capacity : Nat) (i : ι) (x : Shared ι κ ζ) :
    Action → Stage → Stage → Shared ι κ ζ → Prop
  | call : Act capacity i x .call .idle .called x
  | enter : x.isShutdown = false → Act capacity i x .enter .called .selecting x
  | rejected : x.isShutdown = true → Act capacity i x .fail .called .failed x
  | shut : x.isShutdown = true → Act capacity i x .fail .selecting .failed x
  | ended : Act capacity i x .fail .selecting .failed x
  | acquire : x.sem < capacity →
      Act capacity i x .acquire .selecting .acquired { x with sem := x.sem + 1 }
  | lock : x.lock = none →
      Act capacity i x .lock .acquired .locked { x with lock := some (.job i) }
  | check : x.isShutdown = false → Act capacity i x .check .locked .checked x
  | track : Act capacity i x .track .checked .tracked { x with running := insert i x.running }
  | add : Act capacity i x .add .tracked .added { x with wg := x.wg + 1 }
  | unlock : Act capacity i x .unlock .added .launching { x with lock := none }
  | go : Act capacity i x .go .launching .ready x
  | start : Act capacity i x .start .ready .running x
  | finish : Act capacity i x .finish .running .returned x
  | cancel : Act capacity i x .cancel .returned .cancelled { x with cancels := insert i x.cancels }
  | relock : x.lock = none →
      Act capacity i x .lock .cancelled .untracking { x with lock := some (.job i) }
  | delete : Act capacity i x .delete .untracking .deleted { x with running := x.running.erase i }
  | reunlock : Act capacity i x .unlock .deleted .untracked { x with lock := none }
  | done {n : Nat} : x.wg = n + 1 →
      Act capacity i x .done .untracked .done { x with wg := n }
  | release {n : Nat} : x.sem = n + 1 →
      Act capacity i x .release .done .finished { x with sem := n }
  | refuse : x.isShutdown = true → Act capacity i x .refuse .locked .refusing x
  | back : Act capacity i x .unlock .refusing .backing { x with lock := none }
  | drop : Act capacity i x .cancel .backing .giving { x with cancels := insert i x.cancels }
  | giveBack {n : Nat} : x.sem = n + 1 →
      Act capacity i x .release .giving .failed { x with sem := n }

inductive CancelAct (k : κ) (x : Shared ι κ ζ) :
    CancelPhase ι → CancelPhase ι → Shared ι κ ζ → Prop
  | call {i : ι} : CancelAct k x .idle (.called i) x
  | lock {i : ι} : x.lock = none →
      CancelAct k x (.called i) (.locked i) { x with lock := some (.cancel k) }
  | cancel {i : ι} : i ∈ x.running →
      CancelAct k x (.locked i) (.acted i) { x with cancels := insert i x.cancels }
  | unknown {i : ι} : i ∉ x.running → CancelAct k x (.locked i) (.acted i) x
  | unlock {i : ι} : CancelAct k x (.acted i) .ended { x with lock := none }

/-- The loop cancels the jobs of the map one at a time, in any order. -/
inductive ShutAct (j : ζ) (x : Shared ι κ ζ) :
    ShutPhase ι → ShutPhase ι → Shared ι κ ζ → Prop
  | call : ShutAct j x .idle .called x
  | lock : x.lock = none →
      ShutAct j x .called .locked { x with lock := some (.shutdown j) }
  | close : ShutAct j x .locked (.closed x.running) { x with isShutdown := true }
  | cancel {rest : Finset ι} {i : ι} : i ∈ rest →
      ShutAct j x (.closed rest) (.closed (rest.erase i)) { x with cancels := insert i x.cancels }
  | unlock : ShutAct j x (.closed ∅) .unlocked { x with lock := none }
  | wait : x.wg = 0 → ShutAct j x .unlocked .drained x
  | ret : ShutAct j x .drained (.returned true) x
  | ended : ShutAct j x .unlocked (.returned false) x
  | endedLate : ShutAct j x .drained (.returned false) x

structure State (ι κ ζ : Type) extends Shared ι κ ζ where
  stage : ι → Stage
  answered : ι → Bool
  cancelling : κ → CancelPhase ι
  shutting : ζ → ShutPhase ι

inductive Label (ι κ ζ : Type)
  | act (i : ι) (a : Action)
  | ret (i : ι)
  | expire (i : ι)
  | cancel (k : κ)
  | shutdown (j : ζ) (after : ShutPhase ι)
  deriving DecidableEq

/-- The goroutine that makes the step. -/
def Label.party : Label ι κ ζ → Option (Holder ι κ ζ)
  | .act i _ => some (.job i)
  | .cancel k => some (.cancel k)
  | .shutdown j _ => some (.shutdown j)
  | _ => none

/-- `ret` is the return of a `Submit` with the key of its job; a deadline of the caller's context
expires the context of the job. -/
inductive Step (capacity : Nat) : State ι κ ζ → Label ι κ ζ → State ι κ ζ → Prop
  | act {s : State ι κ ζ} {i : ι} {a : Action} {b : Stage} {x : Shared ι κ ζ} :
      Act capacity i s.toShared a (s.stage i) b x →
      Step capacity s (.act i a)
        { s with toShared := x, stage := Function.update s.stage i b }
  | ret {s : State ι κ ζ} {i : ι} : (s.stage i).launched = true → s.answered i = false →
      Step capacity s (.ret i) { s with answered := Function.update s.answered i true }
  | expire {s : State ι κ ζ} {i : ι} :
      Step capacity s (.expire i) { s with cancels := insert i s.cancels }
  | cancel {s : State ι κ ζ} {k : κ} {b : CancelPhase ι} {x : Shared ι κ ζ} :
      CancelAct k s.toShared (s.cancelling k) b x →
      Step capacity s (.cancel k)
        { s with toShared := x, cancelling := Function.update s.cancelling k b }
  | shutdown {s : State ι κ ζ} {j : ζ} {b : ShutPhase ι} {x : Shared ι κ ζ} :
      ShutAct j s.toShared (s.shutting j) b x →
      Step capacity s (.shutdown j b)
        { s with toShared := x, shutting := Function.update s.shutting j b }

/-- `NewPool`: nothing has been called. -/
def empty : State ι κ ζ where
  sem := 0
  wg := 0
  isShutdown := false
  lock := none
  running := ∅
  cancels := ∅
  stage _ := .idle
  answered _ := false
  cancelling _ := .idle
  shutting _ := .idle

def capacity (maxConcurrent : Int) : Nat := (max maxConcurrent 1).toNat

def pool (ι κ ζ : Type) [DecidableEq ι] [DecidableEq κ] [DecidableEq ζ] (maxConcurrent : Int) :
    Machine (State ι κ ζ) (Label ι κ ζ) where
  init s := s = empty
  step := Step (capacity maxConcurrent)

end Skit.Worker.Pool
