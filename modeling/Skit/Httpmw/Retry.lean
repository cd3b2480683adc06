import Skit.Basic
import Skit.Lib.Digits
import Skit.Lib.Prog
import Mathlib.Data.Rat.Defs

/-!
# The retrying transport

`RetryTransport` sends a request again while the status of the response is one to retry and
attempts are left. Between two attempts it waits as long as the `Retry-After` header asks for, at
most `Backoff.Max`. The seconds of the header become nanoseconds in 64-bit arithmetic before they
are compared, so a large value can wrap around.
-/
namespace Skit.Httpmw
open Lib

/-- `retry.Backoff` as the transport uses it. -/
structure Backoff where
  max : Int
  maxAttempts : Int
  nextWithRand : Int → ℚ → Int

structure RetryConfig where
  backoff : Backoff
  statuses : List Int
  disableRetryAfter : Bool

structure RetryTransport where
  cfg : RetryConfig
  statuses : List Int

def newRetryTransport (cfg : RetryConfig) : RetryTransport where
  cfg := cfg
  statuses := if cfg.statuses = [] then [429, 503] else cfg.statuses

section Delay

/-- `time.Until`, which is cut to the durations there are. -/
def timeUntil (instant now : Int) : Int := max (min (instant - now) (2 ^ 63 - 1)) (-2 ^ 63)

-- `http.ParseTime`, to the nanosecond of the instant
variable (parseTime : String → Option Int)

def retryAfter (v : String) (now : Int) : Option Int :=
  if v = "" then none
  else
    match atoi v with
    | some secs => if secs < 0 then none else some (wrap64 (secs * second))
    | none =>
      match parseTime v with
      | some instant => some (max (timeUntil instant now) 0)
      | none => none

/-- The wait that the header asks for, where it is honored. -/
def headerDelay (cfg : RetryConfig) (v : String) (now : Int) : Option Int :=
  if cfg.disableRetryAfter then none
  else
    match retryAfter parseTime v now with
    | none => none
    | some d => some (if 0 < cfg.backoff.max ∧ cfg.backoff.max < d then cfg.backoff.max else d)

/-- `delay` of an attempt whose response has the header; `rand` is drawn if it is needed. -/
def delay (cfg : RetryConfig) (attempt : Int) (v : String) (now : Int) (rand : ℚ) : Int :=
  match headerDelay parseTime cfg v now with
  | some d => d
  | none => cfg.backoff.nextWithRand attempt rand

theorem delay_of_atoi {cfg : RetryConfig} {v : String} {secs : Int}
    (hon : cfg.disableRetryAfter = false) (hv : atoi v = some secs) (hpos : 0 ≤ secs)
    (hmax : 0 < cfg.backoff.max) (attempt now : Int) (rand : ℚ) :
    delay parseTime cfg attempt v now rand = min (wrap64 (secs * second)) cfg.backoff.max := by
  have hne : v ≠ "" := by
    rintro rfl
    cases hv
  have hafter : retryAfter parseTime v now = some (wrap64 (secs * second)) := by
    simp only [retryAfter, if_neg hne, hv, if_neg (Int.not_lt.mpr hpos)]
  have hheader : headerDelay parseTime cfg v now = some (if 0 < cfg.backoff.max ∧
      cfg.backoff.max < wrap64 (secs * second) then cfg.backoff.max
        else wrap64 (secs * second)) := by
    rw [headerDelay, hon, hafter, if_neg Bool.false_ne_true]
  rw [delay, hheader]
  dsimp only
  split_ifs
  · omega
  · omega

/-- The wait is the seconds of the header, at most the maximum, unless their nanoseconds do not
fit and the rest of them is below the maximum or a negative number. -/
theorem retryAfter_honoured_iff {cfg : RetryConfig} {v : String} {secs : Int}
    (hon : cfg.disableRetryAfter = false) (hv : atoi v = some secs) (hpos : 0 ≤ secs)
    (hmax : 0 < cfg.backoff.max ∧ cfg.backoff.max < 2 ^ 63) (attempt : Int) :
    (∀ now rand, delay parseTime cfg attempt v now rand =
      min (secs * second) cfg.backoff.max) ↔
      secs ≤ 9223372036 ∨
        cfg.backoff.max ≤ secs * 10 ^ 9 % 2 ^ 64 ∧ secs * 10 ^ 9 % 2 ^ 64 < 2 ^ 63 := by
  have hdelay := delay_of_atoi parseTime hon hv hpos hmax.1 attempt
  have hwrap : wrap64 (secs * second) =
      if secs * 10 ^ 9 % 2 ^ 64 < 2 ^ 63 then secs * 10 ^ 9 % 2 ^ 64
      else secs * 10 ^ 9 % 2 ^ 64 - 2 ^ 64 := by
    unfold wrap64 second
    split_ifs
    · omega
    · omega
  constructor
  · intro h
    have h := h 0 0
    rw [hdelay, hwrap] at h
    unfold second at h
    split_ifs at h
    · omega
    · omega
  · intro h now rand
    rw [hdelay, hwrap]
    unfold second
    split_ifs
    · omega
    · omega

end Delay

/-- A wait of 30 seconds at most. -/
def halfMinute : RetryConfig := ⟨⟨30 * second, 3, fun _ _ => second⟩, [], false⟩

/-- A header that asks for less is honoured, and one that asks for more is cut. -/
theorem retryAfter_honoured_minute :
    delay (fun _ => none) halfMinute 1 "20" 0 0 = min (20 * second) (30 * second) ∧
      delay (fun _ => none) halfMinute 1 "90" 0 0 = min (90 * second) (30 * second) := by
  have h20 : atoi "20" = some 20 := by decide
  have h90 : atoi "90" = some 90 := by decide
  constructor
  · exact (retryAfter_honoured_iff _ rfl h20 (by decide) (by decide) 1).mpr (.inl (by decide)) 0 0
  · exact (retryAfter_honoured_iff _ rfl h90 (by decide) (by decide) 1).mpr (.inl (by decide)) 0 0

/-- A header that asks for 292 years is not waited for at all. -/
theorem retryAfter_wraps :
    atoi "9223372037" = some 9223372037 ∧
      delay (fun _ => none) halfMinute 1 "9223372037" 0 0 = -9223372036709551616 ∧
      min (9223372037 * second) halfMinute.backoff.max = 30 * second := by decide

end Skit.Httpmw
