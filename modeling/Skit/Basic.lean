import Mathlib.Data.Int.Order.Basic
import Mathlib.Tactic.Linarith

/-!
# Clock values and errors

Instants and durations are integers of nanoseconds. A duration is an `int64`, so
a computed one goes through `wrap64`. A `timestamptz` column keeps whole
microseconds: the driver drops the rest of an instant when it writes or compares
one, and `stamp` is that truncation.

An error is the tree that `errors.AsType` searches, with the marks the packages
put on it: `queue.Permanent`, `queue.Halt`, `broker.Permanent` and the recovered
panic of `safetick.Call`.
-/
namespace Skit

def second : Int := 1000000000

theorem second_pos : 0 < second := by decide

theorem two_seconds_nonneg : 0 ≤ 2 * second := by decide

/-- `cmp.Or`. -/
def cmpOr (x d : Int) : Int := if x = 0 then d else x

/-- The value of an `int64` computation. -/
def wrap64 (d : Int) : Int := (d + 2 ^ 63) % 2 ^ 64 - 2 ^ 63

theorem wrap64_of_range {d : Int} (hl : -2 ^ 63 ≤ d) (hu : d < 2 ^ 63) : wrap64 d = d := by
  unfold wrap64
  omega

/-- The microsecond an instant falls into. -/
def stamp (t : Int) : Int := t / 1000

theorem lt_of_stamp_lt {a b : Int} (h : stamp a < stamp b) : a < b := by
  unfold stamp at h
  omega

theorem le_stamp_iff {s t : Int} : s ≤ stamp t ↔ 1000 * s ≤ t := by
  unfold stamp
  omega

/-- The bind parameters that Postgres takes in one statement. -/
def maxBinds : Nat := 65535

/-- `sentinel` is a package-level error value, which `errors.Is` tells by identity. -/
inductive Err
  | text (msg : String)
  | sentinel (msg : String)
  | wrap (msg : String) (e : Err)
  | join (msg : String) (a b : Err)
  | permanent (e : Err)
  | halt (e : Err)
  | brokerPermanent (e : Err)
  | panicError (value : String)
  deriving DecidableEq, Repr

namespace Err

/-- The text of an error; the marks keep the text of what they wrap. -/
def error : Err → String
  | text msg => msg
  | sentinel msg => msg
  | wrap msg _ => msg
  | join msg _ _ => msg
  | permanent e => e.error
  | halt e => e.error
  | brokerPermanent e => e.error
  | panicError v => "panic: " ++ v

/-- `errors.AsType`: the first error of the tree, in preorder, that `sel` accepts. -/
def asType {β : Type} (sel : Err → Option β) : Err → Option β
  | text msg => sel (text msg)
  | sentinel msg => sel (sentinel msg)
  | wrap msg e => (sel (wrap msg e)).or (asType sel e)
  | join msg a b => (sel (join msg a b)).or ((asType sel a).or (asType sel b))
  | permanent e => (sel (permanent e)).or (asType sel e)
  | halt e => (sel (halt e)).or (asType sel e)
  | brokerPermanent e => (sel (brokerPermanent e)).or (asType sel e)
  | panicError v => sel (panicError v)

/-- `errors.Is` for a package-level error value. -/
def is (target : String) (e : Err) : Bool :=
  (e.asType fun
    | sentinel msg => if msg = target then some () else none
    | _ => none).isSome

/-- The recovered panic an error is or wraps. -/
def asPanic : Err → Option String :=
  asType fun
    | panicError v => some v
    | _ => none

@[simp] theorem asPanic_panicError (v : String) : asPanic (panicError v) = some v := rfl

end Err

/-- How a call of a function that returns an error ends. -/
inductive Outcome
  | returned (err : Option Err)
  | panicked (value : String)
  deriving DecidableEq, Repr

/-- `safetick.Call`: a panic comes back as a `*safetick.PanicError`. -/
def safetickCall : Outcome → Option Err
  | .returned err => err
  | .panicked v => some (.panicError v)

end Skit
