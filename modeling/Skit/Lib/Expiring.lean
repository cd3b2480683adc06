import Mathlib.Logic.Function.Basic
import Mathlib.Data.Option.Basic
import Mathlib.Tactic.SplitIfs

/-!
# Keys that expire

The keys of a Redis server. A key set with `px` is kept for that many milliseconds, and at most
one longer (`extra`); it is not seen from then on. Instants are in nanoseconds.
-/
namespace Skit.Lib.Expiring

def millisecond : Int := 1000000

/-- The duration in whole milliseconds for `px`, at least 1. -/
def millis (d : Int) : Int := max (d / millisecond) 1

theorem millis_mul {d : Int} (hd : 0 < d) (hms : millisecond ∣ d) : millis d * millisecond = d := by
  obtain ⟨k, rfl⟩ := hms
  have hk : 1 ≤ k := by
    unfold millisecond at hd
    omega
  have hdiv : millisecond * k / millisecond = k := Int.mul_ediv_cancel_left k (by decide)
  rw [millis, hdiv, Int.max_eq_left hk, Int.mul_comm]

structure Item (V : Type) where
  value : V
  expires : Int

/-- The keys of a server. -/
abbrev Items (K V : Type) := K → Option (Item V)

namespace Items

variable {K V : Type} (items : Items K V) (now extra : Int)

def get (key : K) : Option V := ((items key).filter (now < ·.expires)).map (·.value)

section Get

variable {items now} {k : K} {v : V} {item : Item V} {x : Int}

theorem get_some (hi : items k = some item) :
    items.get now k = if now < item.expires then some item.value else none := by
  simp only [get, hi, Option.filter_some, decide_eq_true_eq]
  split_ifs <;> rfl

theorem get_of_live (hi : items k = some ⟨v, x⟩) (hlive : now < x) : items.get now k = some v := by
  rw [get_some hi]
  exact if_pos hlive

end Get

variable [DecidableEq K]

/-- `set` with `px`. -/
def set (key : K) (value : V) (px : Int) : Items K V :=
  Function.update items key (some ⟨value, now + px * millisecond + extra⟩)

variable [DecidableEq V]

/-- A script that deletes the key if it has the value. -/
def deleteIf (key : K) (arg : V) : Int × Items K V :=
  if items.get now key = some arg then (1, Function.update items key none) else (0, items)

variable {items now} {k k' : K} {v arg : V} {x : Int}

/-- A key that has another value stays. -/
theorem deleteIf_kept (hi : items k = some ⟨v, x⟩) (hlive : now < x) (hne : v ≠ arg) :
    (items.deleteIf now k' arg).2 k = some ⟨v, x⟩ := by
  unfold deleteIf
  split_ifs with hget
  · have hk : k ≠ k' := by
      rintro rfl
      rw [get_of_live hi hlive] at hget
      exact hne (Option.some.inj hget)
    exact (Function.update_of_ne hk _ _).trans hi
  · exact hi

end Items

end Skit.Lib.Expiring
