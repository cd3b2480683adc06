import Skit.Basic
import Skit.Lib.Trace
import Mathlib.Data.List.Nodup
import Mathlib.Logic.Function.Basic

/-!
# The closer

`Closer` as a machine whose parties move one at a time: the calls of `Add`, the calls of `Close`
and `CloseSync`, the goroutines of the handlers, and the goroutine that waits for them and closes
the channel of errors. A call of `Add` is named by `ι`, and so is its handler; a closing call is
named by `κ`. Only one closing call ever runs the body of `once.Do`, so the variables of the body
are part of the state. A label is one step of one party, and no label occurs twice in a run.
-/
namespace Skit.Closer
open Lib

section Code

inductive Kind
  | close
  | closeSync
  deriving DecidableEq

/-- The calls: what the handler of an `Add` does when it is called, none for a nil handler, and
which closing call it is. -/
structure Calls (ι κ : Type) where
  handler : ι → Option Outcome
  kind : κ → Kind

/-- The error that a call of a handler leaves. -/
def failure : Outcome → Option Err
  | .returned err => err
  | .panicked value => some (.text ("panic recovered in closer: " ++ value))

def Calls.error {ι κ : Type} (c : Calls ι κ) (i : ι) : Option Err := (c.handler i).bind failure

/-- Where a call of `add` stands; from `locked` to `unlocking` it holds `mu`. -/
inductive Adder
  | idle
  | called
  | locked
  | unlocking
  | returned
  deriving DecidableEq

def Adder.holds : Adder → Bool
  | .locked | .unlocking => true
  | _ => false

/-- Where a closing call stands; `inside` it runs the body of `once.Do`. -/
inductive Closing
  | idle
  | called
  | inside
  | returned (err : Option (List Err))

/-- Where the body stands: at the lock of `copyAndReverseHandlers`, before and after the
snapshot, in the loop that launches the goroutines, in the loop over the channel, between two
handlers and in one, at its end. -/
inductive Body (ι : Type)
  | idle
  | locking
  | locked
  | unlocking
  | launching
  | ranging
  | running
  | calling (i : ι)
  | leaving
  | done

namespace Body

variable {ι : Type}

def holds : Body ι → Bool
  | locked | unlocking => true
  | _ => false

/-- The snapshot is taken. -/
def taken : Body ι → Bool
  | idle | locking | locked => false
  | _ => true

def active : Body ι → Bool
  | idle | done => false
  | _ => true

end Body

/-- Where a handler stands. With `Close` it has a goroutine, which sends the error, if there is
one, and then leaves the wait group; `CloseSync` calls it `inline`. -/
inductive Handler
  | idle
  | omitted
  | ready
  | running
  | inline
  | reporting (err : Err)
  | exiting
  | done
  deriving DecidableEq

namespace Handler

/-- The goroutine counts in the wait group. -/
def live : Handler → Bool
  | ready | running | reporting _ | exiting => true
  | _ => false

/-- The handler has returned and its error is on the way. -/
def past : Handler → Bool
  | exiting | done => true
  | _ => false

def begun : Handler → Bool
  | running | inline | reporting _ | exiting | done => true
  | _ => false

def finished : Handler → Bool
  | reporting _ | exiting | done => true
  | _ => false

end Handler

/-- The goroutine when its handler has returned. -/
def afterHandler : Option Err → Handler
  | none => .exiting
  | some err => .reporting err

/-- The goroutine of `wg.Wait` and `close(errsCh)`. -/
inductive Waiter
  | idle
  | waiting
  | done
  deriving DecidableEq

inductive Holder (ι : Type)
  | adder (i : ι)
  | body

/-- An error is kept with the handler that it is from. -/
structure State (ι κ : Type) where
  adders : ι → Adder
  closings : κ → Closing
  handlers : ι → Handler
  waiter : Waiter
  mu : Option (Holder ι)
  once : Option κ
  body : Body ι
  mode : Kind
  fns : List ι
  closed : Bool
  funcs : List ι
  todo : List ι
  errs : List (ι × Err)
  errsCh : List (ι × Err)

/-- `New`. -/
def State.new {ι κ : Type} : State ι κ where
  adders _ := .idle
  closings _ := .idle
  handlers _ := .idle
  waiter := .idle
  mu := none
  once := none
  body := .idle
  mode := .close
  fns := []
  closed := false
  funcs := []
  todo := []
  errs := []
  errsCh := []

/-- Where the body goes on with the handlers of the snapshot. -/
def afterSnapshot {ι : Type} (mode : Kind) (funcs : List ι) : Body ι :=
  if funcs.length = 0 then .leaving
  else
    match mode with
    | .close => .launching
    | .closeSync => .running

/-- What a closing call returns: nil or `errors.Join(errs...)`. -/
def joined (errs : List Err) : Option (List Err) := if errs.length > 0 then some errs else none

section Steps

variable {ι κ : Type} [DecidableEq ι] [DecidableEq κ]

def State.setAdder (s : State ι κ) (i : ι) (a : Adder) : State ι κ :=
  { s with adders := Function.update s.adders i a }

def State.setClosing (s : State ι κ) (k : κ) (a : Closing) : State ι κ :=
  { s with closings := Function.update s.closings k a }

def State.setHandler (s : State ι κ) (i : ι) (a : Handler) : State ι κ :=
  { s with handlers := Function.update s.handlers i a }

inductive Label (ι κ : Type)
  | call (i : ι)
  | skip (i : ι)
  | lock (i : ι)
  | added (i : ι)
  | refused (i : ι)
  | unlock (i : ι)
  | close (k : κ)
  | pass (k : κ)
  | enter (k : κ)
  | leave (k : κ)
  | lockBody
  | snapshot
  | unlockBody
  | spawn
  | finished
  | closeCh
  | omitted (i : ι)
  | launch (i : ι)
  | begin (i : ι)
  | finish (i : ι)
  | send (i : ι)
  | exit (i : ι)
  | receive (i : ι)
  deriving DecidableEq

inductive Step (c : Calls ι κ) : State ι κ → Label ι κ → State ι κ → Prop
  | call {s i} : s.adders i = .idle → Step c s (.call i) (s.setAdder i .called)
  | skip {s i} : s.adders i = .called → c.handler i = none →
      Step c s (.skip i) (s.setAdder i .returned)
  | lock {s i} : s.adders i = .called → c.handler i ≠ none → s.mu = none →
      Step c s (.lock i) { s.setAdder i .locked with mu := some (.adder i) }
  | added {s i} : s.adders i = .locked → s.closed = false →
      Step c s (.added i) { s.setAdder i .unlocking with fns := s.fns ++ [i] }
  | refused {s i} : s.adders i = .locked → s.closed = true →
      Step c s (.refused i) (s.setAdder i .unlocking)
  | unlock {s i} : s.adders i = .unlocking →
      Step c s (.unlock i) { s.setAdder i .returned with mu := none }
  | close {s k} : s.closings k = .idle → Step c s (.close k) (s.setClosing k .called)
  | pass {s k} : s.closings k = .called → s.body = .done →
      Step c s (.pass k) (s.setClosing k (.returned (joined [])))
  | enter {s k} : s.closings k = .called → s.body = .idle → Step c s (.enter k)
      { s.setClosing k .inside with once := some k, body := .locking, mode := c.kind k }
  | leave {s k} : s.closings k = .inside → s.body = .leaving → Step c s (.leave k)
      { s.setClosing k (.returned (joined (s.errs.map Prod.snd))) with
        once := none, body := .done }
  | lockBody {s} : s.body = .locking → s.mu = none →
      Step c s .lockBody { s with body := .locked, mu := some .body }
  | snapshot {s} : s.body = .locked → Step c s .snapshot
      { s with
        body := .unlocking, funcs := s.fns.reverse, todo := s.fns.reverse, fns := [],
        closed := true }
  | unlockBody {s} : s.body = .unlocking →
      Step c s .unlockBody { s with body := afterSnapshot s.mode s.funcs, mu := none }
  | omitted {s i rest} : s.body = .launching ∨ s.body = .running → s.todo = i :: rest →
      c.handler i = none → Step c s (.omitted i) { s.setHandler i .omitted with todo := rest }
  | launch {s i rest} : s.body = .launching → s.todo = i :: rest → c.handler i ≠ none →
      Step c s (.launch i) { s.setHandler i .ready with todo := rest }
  | spawn {s} : s.body = .launching → s.todo = [] →
      Step c s .spawn { s with body := .ranging, waiter := .waiting }
  | begin {s i} : s.handlers i = .ready → Step c s (.begin i) (s.setHandler i .running)
  | finish {s i o} : s.handlers i = .running → c.handler i = some o →
      Step c s (.finish i) (s.setHandler i (afterHandler (failure o)))
  | send {s i err} : s.handlers i = .reporting err → s.waiter ≠ .done →
      s.errsCh.length < s.funcs.length →
      Step c s (.send i) { s.setHandler i .exiting with errsCh := s.errsCh ++ [(i, err)] }
  | exit {s i} : s.handlers i = .exiting → Step c s (.exit i) (s.setHandler i .done)
  | closeCh {s} : s.waiter = .waiting → (∀ i, (s.handlers i).live = false) →
      Step c s .closeCh { s with waiter := .done }
  | receive {s i err rest} : s.body = .ranging → s.errsCh = (i, err) :: rest →
      Step c s (.receive i) { s with errs := s.errs ++ [(i, err)], errsCh := rest }
  | finishedRange {s} : s.body = .ranging → s.errsCh = [] → s.waiter = .done →
      Step c s .finished { s with body := .leaving }
  | beginSync {s i rest} : s.body = .running → s.todo = i :: rest → c.handler i ≠ none →
      Step c s (.begin i) { s.setHandler i .inline with todo := rest, body := .calling i }
  | finishSync {s i o} : s.body = .calling i → c.handler i = some o → Step c s (.finish i)
      { s.setHandler i .done with
        body := .running, errs := s.errs ++ ((failure o).map fun err => (i, err)).toList }
  | finishedSync {s} : s.body = .running → s.todo = [] →
      Step c s .finished { s with body := .leaving }

/-- The closer, with the calls that may be made. -/
def closer (c : Calls ι κ) : Machine (State ι κ) (Label ι κ) where
  init s := s = .new
  step := Step c

end Steps

end Code

section Spec

variable {ι κ : Type} [DecidableEq ι] [DecidableEq κ]

/-- The label begins a call. -/
def Label.isCall : Label ι κ → Bool
  | .call _ | .close _ => true
  | _ => false

def Label.addedOf : Label ι κ → Option ι
  | .added i => some i
  | _ => none

def Label.beginOf : Label ι κ → Option ι
  | .begin i => some i
  | _ => none

/-- The handlers that were registered, latest first. -/
def registered (tr : List (Label ι κ)) : List ι := tr.filterMap Label.addedOf

/-- The handlers that were called, in the order of the calls. -/
def begun (tr : List (Label ι κ)) : List ι := (tr.filterMap Label.beginOf).reverse

/-- Every call and every goroutine that has begun has returned. -/
structure Quiet (s : State ι κ) : Prop where
  adders : ∀ i, s.adders i = .idle ∨ s.adders i = .returned
  closings : ∀ k, s.closings k = .idle ∨ ∃ err, s.closings k = .returned err
  handlers : ∀ i, (s.handlers i).live = false
  waiter : s.waiter ≠ .waiting

/-- What is asked of a run of the closer. -/
structure Closes (c : Calls ι κ) (tr : List (Label ι κ)) (s : State ι κ) : Prop where
  /-- An `Add` of a handler that returned before the snapshot has registered it. -/
  completed : ∀ r i, .snapshot :: r <:+ tr → .unlock i ∈ r → i ∈ registered r
  once : ∀ i, tr.count (.begin i) ≤ 1
  /-- When a closing call has returned, all handlers of the snapshot have been called, and have
  returned. -/
  all : ∀ k err, s.closings k = .returned err → ∃ r, .snapshot :: r <:+ tr ∧
    ∀ i ∈ registered r, tr.count (.begin i) = 1 ∧ tr.count (.finish i) = 1
  later : ∀ r i, .snapshot :: r <:+ tr → i ∉ registered r → .begin i ∉ tr
  early : .snapshot ∉ tr → ∀ i, .begin i ∉ tr
  /-- `CloseSync` calls the handlers one after the other, the last one that was registered
  first. -/
  order : ∀ k r, .enter k ∈ tr → c.kind k = .closeSync → .snapshot :: r <:+ tr →
    begun tr <+: registered r ∧
      ∀ i j r', .begin j :: r' <:+ tr → .begin i ∈ r' → .finish i ∈ r'
  only : ∀ k k', .enter k ∈ tr → .enter k' ∈ tr → k = k'
  /-- The call that ran the handlers returns their errors. -/
  result : ∀ k err r, .enter k ∈ tr → s.closings k = .returned err → .snapshot :: r <:+ tr →
    ∃ errs, errs.Perm ((registered r).filterMap c.error) ∧ err = joined errs
  others : ∀ k err, .enter k ∉ tr → s.closings k = .returned err → err = none
  moves : Quiet s ∨ ∃ l s', l.isCall = false ∧ Step c s l s'
  finite : tr.length ≤ 13 * tr.countP Label.isCall + 6

end Spec

end Skit.Closer
