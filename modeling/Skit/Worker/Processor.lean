import Skit.Lib.Prog
import Skit.Basic

/-!
# The batch processor

`worker.Processor` claims a batch, handles its items one by one and records the
outcome of each. Everything it reads or does outside itself is a call: the clock,
the tick context, the contexts it derives, and its steps. A step of the source
that takes an item is a call on that item; `Handle` is two calls, its start and
its return, since other workers act in between. Logging is left out.
-/
namespace Skit.Worker
open Lib

inductive Pace
  | idle
  | busy
  deriving DecidableEq, Repr

/-- The calls of a processor of items `T`. -/
inductive Call (T : Type)
  | now
  | ctxErr
  | withTimeout (d : Int)
  | cancel
  | claim (now limit : Int)
  | handle (item : T)
  | handled (item : T)
  | onPanic (item : T) (value : String)
  | markDone (item : T) (now : Int)
  | markFailed (item : T) (errMsg : String) (terminal : Bool) (now : Int)
  | release (items : List T)
  deriving DecidableEq, Repr

/-- Answers of the calls. `ctxErr` answers whether the tick context has ended;
`R` is what the world answers while `Handle` runs. -/
abbrev Ans (T R : Type) : Call T → Type
  | .now => Int
  | .ctxErr => Bool
  | .withTimeout _ => Unit
  | .cancel => Unit
  | .claim _ _ => Except Err (List T)
  | .handle _ => Unit
  | .handled _ => R
  | .onPanic _ _ => Option Err
  | .markDone _ _ => Option Err
  | .markFailed _ _ _ _ => Option Err
  | .release _ => Option Err

/-- `ProcessorConfig`; `onPanic` says whether `OnPanic` is set. -/
structure ProcessorConfig where
  name : String
  batchSize : Int
  handleTimeout : Int
  batchTimeout : Int
  isTerminal : Option (Err → Bool)
  isHalt : Option (Err → Bool)
  onPanic : Bool

def ProcessorConfig.withDefaults (c : ProcessorConfig) : ProcessorConfig :=
  { c with
    name := if c.name = "" then "processor" else c.name
    batchSize := if c.batchSize ≤ 0 then 100 else c.batchSize
    isTerminal := some (c.isTerminal.getD fun _ => false)
    isHalt := some (c.isHalt.getD fun _ => false) }

/-- The default `OnPanic`: the item is retried. -/
def retryPanic (value : String) : Option Err := some (.panicError value)

/-- `markTimeout` bounds each mark and each release. -/
def markTimeout : Int := 5 * second

/-- A processor. `handle` is what `Steps.Handle` makes of an item and the answer
of the world, `hasRelease` whether `Steps.Release` is set, and `sanitize` stands
for `errs.Sanitize`. -/
structure Processor (T R : Type) where
  handle : T → R → Outcome
  hasRelease : Bool
  sanitize : String → String
  cfg : ProcessorConfig

def newProcessor {T R : Type} (handle : T → R → Outcome) (hasRelease : Bool)
    (sanitize : String → String) (cfg : ProcessorConfig) : Processor T R :=
  ⟨handle, hasRelease, sanitize, cfg.withDefaults⟩

namespace Processor

variable {T R : Type} (p : Processor T R)

/-- The call `o`, returning its answer. -/
abbrev ask (o : Call T) : Prog (Call T) (Ans T R) (Ans T R o) := Prog.ask o

def isTerminal (e : Err) : Bool := p.cfg.isTerminal.getD (fun _ => false) e

/-- Whether an outcome stops the batch. -/
def stops : Option Err → Bool
  | some e => p.cfg.isHalt.getD (fun _ => false) e
  | none => false

/-- Whether the batch claimed at `start` must stop before its next item. -/
def expired (start : Int) : Prog (Call T) (Ans T R) Bool := do
  if ← ask Call.ctxErr then
    return true
  else if 0 < p.cfg.batchTimeout then
    let t ← ask Call.now
    return decide (p.cfg.batchTimeout ≤ t - start)
  else
    return false

/-- A mark or a release runs under a timeout of its own. -/
def settle {α : Type} (op : Prog (Call T) (Ans T R) α) : Prog (Call T) (Ans T R) α := do
  let _ ← ask (Call.withTimeout markTimeout)
  let r ← op
  let _ ← ask Call.cancel
  return r

/-- `op` under a fresh `HandleTimeout`, or as it is without one. -/
def bounded {α : Type} (op : Prog (Call T) (Ans T R) α) : Prog (Call T) (Ans T R) α :=
  if p.cfg.handleTimeout ≤ 0 then op
  else do
    let _ ← ask (Call.withTimeout p.cfg.handleTimeout)
    let r ← op
    let _ ← ask Call.cancel
    return r

def release (rest : List T) : Prog (Call T) (Ans T R) Unit :=
  if p.hasRelease = false ∨ rest = [] then return ()
  else do
    let _ ← settle (ask (Call.release rest))
    return ()

/-- The end of `handle`: an error that is, or wraps, a recovered panic goes to
`OnPanic`. -/
def recovered (item : T) (err : Option Err) : Prog (Call T) (Ans T R) (Option Err) :=
  match err.bind Err.asPanic with
  | none => return err
  | some v => if p.cfg.onPanic then ask (Call.onPanic item v) else return retryPanic v

/-- The outcome of one item. -/
def handleItem (item : T) : Prog (Call T) (Ans T R) (Option Err) := do
  let err ← p.bounded do
    let _ ← ask (Call.handle item)
    let r ← ask (Call.handled item)
    return safetickCall (p.handle item r)
  p.recovered item err

/-- Handle one item and record its outcome. The clock is read before the
handling, and the marks carry that reading. -/
def handleOne (item : T) : Prog (Call T) (Ans T R) (Option Err) := do
  let now ← ask Call.now
  let handleErr ← p.handleItem item
  let _ ← settle (match handleErr with
    | some err => ask (Call.markFailed item (p.sanitize err.error) (p.isTerminal err) now)
    | none => ask (Call.markDone item now))
  return handleErr

/-- The loop of `drain` over the items not yet started; the result says whether
an outcome stopped the batch. -/
def loop (start : Int) : List T → Prog (Call T) (Ans T R) Bool
  | [] => return false
  | item :: rest => do
    if ← p.expired start then
      p.release (item :: rest)
      return false
    else
      let err ← p.handleOne item
      if p.stops err then
        p.release rest
        return true
      else
        loop start rest

/-- One claim, handle and mark cycle with the pace of the tick. -/
def drain : Prog (Call T) (Ans T R) (Pace × Option Err) := do
  let start ← ask Call.now
  match ← ask (Call.claim start p.cfg.batchSize) with
  | Except.error err => return (.idle, some err)
  | Except.ok items =>
    if ← p.loop start items then
      return (.idle, none)
    else
      return (if p.cfg.batchSize ≤ items.length then .busy else .idle, none)

/-- `process` is `drain` without the pace. -/
def process : Prog (Call T) (Ans T R) (Option Err) := do
  let (_, err) ← p.drain
  return err

end Processor

end Skit.Worker
