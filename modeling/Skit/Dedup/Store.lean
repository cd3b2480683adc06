import Skit.Basic
import Mathlib.Logic.Function.Basic
import Mathlib.Data.Option.Basic
import Mathlib.Data.List.Infix

/-!
# The records of the keys

What a store is for: at every instant it shows the unexpired record of each key, and
its operations act on that view. `View` says so, without regard to how the records are
kept. A `Store` comes with its view and with the proof that its operations are those of
the view; `memory` and `redis` are the two stores of the package.
-/
namespace Skit.Dedup

/-- Keys, tokens and stored values. -/
abbrev Text := List Char

theorem singleton_ne_nil (a : Char) : ([a] : Text) ≠ [] := List.cons_ne_nil a []

inductive Record
  | running (token : Text) (expires : Int)
  | done (value : Text) (expires : Int)
  deriving DecidableEq

def Record.expires : Record → Int
  | running _ x => x
  | done _ x => x

/-- The `state` that `acquire` found, with the stored value of a done key. -/
inductive Found
  | acquired
  | running
  | done (value : Text)
  deriving DecidableEq

/-- The unexpired records at one instant. -/
abbrev View := Text → Option Record

namespace View

variable (v : View) (key token value : Text) (expires : Int)

def acquire : Found × View :=
  match v key with
  | some (.running _ _) => (.running, v)
  | some (.done value _) => (.done value, v)
  | none => (.acquired, Function.update v key (some (.running token expires)))

/-- The token holds the key. -/
def holds : Bool :=
  match v key with
  | some (.running token' _) => token' = token
  | _ => false

theorem holds_iff : v.holds key token = true ↔ ∃ x, v key = some (.running token x) := by
  unfold holds
  split
  · rename_i token' x hv
    simp [hv]
  · rename_i hno
    constructor
    · intro h
      cases h
    · rintro ⟨x, hv⟩
      exact absurd hv (hno token x)

def complete : Bool × View :=
  if v.holds key token then (true, Function.update v key (some (.done value expires)))
  else (false, v)

def release : View := if v.holds key token then Function.update v key none else v

end View

/-- A store: the operations at an instant `now`, and the view they act on. A record
that is set for a duration `d` lives for `life d`, and at most `late` longer. -/
structure Store where
  State : Type
  empty : State
  life : Int → Int
  late : Int
  /-- Whether an operation may fail, or run without its reply coming back. -/
  fallible : Bool
  acquire : State → (now extra : Int) → (key token : Text) → (lease : Int) →
    Except Err Found × State
  complete : State → (now extra : Int) → (key token value : Text) → (ttl : Int) →
    Except Err Bool × State
  release : State → (now : Int) → (key token : Text) → Option Err × State
  view : State → (now : Int) → View
  late_nonneg : 0 ≤ late
  life_pos : ∀ d, 0 < d → 0 < life d
  view_empty : ∀ now key, view empty now key = none
  view_later : ∀ s now now' key, now ≤ now' →
    view s now' key = (view s now key).filter (now' < ·.expires)
  acquire_view : ∀ s now extra key token lease, token ≠ [] → 0 < lease → 0 ≤ extra →
    extra ≤ late →
    (acquire s now extra key token lease).1 =
      .ok ((view s now).acquire key token (now + life lease + extra)).1 ∧
    view (acquire s now extra key token lease).2 now =
      ((view s now).acquire key token (now + life lease + extra)).2
  complete_view : ∀ s now extra key token value ttl, token ≠ [] → 0 < ttl → 0 ≤ extra →
    extra ≤ late →
    (complete s now extra key token value ttl).1 =
      .ok ((view s now).complete key token value (now + life ttl + extra)).1 ∧
    view (complete s now extra key token value ttl).2 now =
      ((view s now).complete key token value (now + life ttl + extra)).2
  release_view : ∀ s now key token, token ≠ [] →
    view (release s now key token).2 now = (view s now).release key token

end Skit.Dedup
