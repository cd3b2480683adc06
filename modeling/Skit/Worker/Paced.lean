import Skit.Worker.Group
import Skit.Lib.Suffix
import Mathlib.Data.Nat.Order.Lemmas

/-!
# The adaptive loop

A paced tick reports whether a backlog remains. After a busy tick the loop waits `BusyInterval`;
after an idle one it waits the delay that it carries, and doubles it up to `MaxIdleInterval`. The
doubling is one of `int64`: a delay from `2 ^ 62` on is doubled to a negative one, which the cap
lets pass.
-/
namespace Skit.Worker.Paced
open Lib
open Skit.Worker.Group (Cause Behaviour)
open List

section Code

inductive Pace
  | idle
  | busy
  deriving DecidableEq

/-- How a call of the tick ends. -/
inductive TickOutcome
  | returned (pace : Pace) (err : Option Err)
  | panicked (value : String)
  deriving DecidableEq

/-- The values of `time.Duration`. -/
def IsDuration (d : Int) : Prop := -2 ^ 63 ≤ d ∧ d < 2 ^ 63

instance (d : Int) : Decidable (IsDuration d) := inferInstanceAs (Decidable (_ ∧ _))

structure LoopConfig where
  name : String
  interval : Int
  immediateFirstTick : Bool
  busyInterval : Int
  maxIdleInterval : Int
  durations : ∀ d ∈ [interval, busyInterval, maxIdleInterval], IsDuration d

/-- `log` and `onPanic` say whether there is a logger and a panic handler. -/
structure Loop where
  cfg : LoopConfig
  log : Bool
  onPanic : Bool

theorem isDuration_second : IsDuration second := by decide

def newLoop (log : Bool) (cfg : LoopConfig) (onPanic : Bool) : Loop where
  cfg := { cfg with
    name := if cfg.name = "" then "worker" else cfg.name
    interval := if cfg.interval ≤ 0 then second else cfg.interval
    durations := by
      have h := cfg.durations
      simp only [forall_mem_cons] at h ⊢
      refine ⟨?_, h.2⟩
      split_ifs
      · exact isDuration_second
      · exact h.1 }
  log := log
  onPanic := onPanic

def newPacedLoop (log : Bool) (cfg : LoopConfig) (onPanic : Bool) : Loop := newLoop log cfg onPanic

/-- What a tick leaves in the metrics. -/
inductive Result
  | ok
  | error
  | panic
  deriving DecidableEq

inductive Effect
  | onPanic (worker phase : String)
  | panicLog (msg worker value : String)
  | errorLog (msg worker err : String)
  | record (result : Result)
  deriving DecidableEq

/-- `Runs.Record`. -/
def record (finished : Bool) (err : Option Err) : Effect :=
  .record (if !finished then .panic else if err.isSome then .error else .ok)

namespace Loop

variable (l : Loop)

/-- `safetick.RecoverTick` after a panic. -/
def recoverTick (value : String) : List Effect :=
  (if l.onPanic then [.onPanic l.cfg.name "tick"] else []) ++
    (if l.log then [.panicLog "worker tick panic recovered" l.cfg.name value] else [])

def run : TickOutcome → List Effect
  | .returned _ err =>
    (match err with
      | some err => if l.log then [.errorLog "worker tick error" l.cfg.name err.error] else []
      | none => []) ++ [record true err]
  | .panicked value => l.recoverTick value ++ [record false none]

/-- The pace is assigned when the tick has returned, and is `Idle` before. -/
def runPacedTick (t : TickOutcome) : Pace × List Effect :=
  (match t with
    | .returned pace _ => pace
    | .panicked _ => .idle, l.run t)

def growIdle (cur : Int) : Int :=
  if l.cfg.maxIdleInterval ≤ l.cfg.interval then l.cfg.interval
  else min (wrap64 (cur * 2)) l.cfg.maxIdleInterval

/-- The delay before the next tick, and the idle delay to carry on. -/
def nextDelay (pace : Pace) (idle : Int) : Int × Int :=
  if pace = .busy then (l.cfg.busyInterval, l.cfg.interval) else (idle, l.growIdle idle)

/-- The delay before the first tick. -/
def first : Int := if l.cfg.immediateFirstTick then 0 else l.cfg.interval

end Loop

/-- Where `startAdaptive` stands: in the `select`, with the delay of the timer, or in a tick. -/
inductive Phase
  | waiting (d : Int)
  | ticking
  | returned (err : Err)
  deriving DecidableEq

structure State where
  ctx : Option Cause
  idleDelay : Int
  phase : Phase

/-- A tick is told with what it leaves behind and the delay for which the timer is reset. -/
inductive Label
  | ended (c : Cause)
  | fired
  | tick (t : TickOutcome) (effects : List Effect) (next : Int)
  | done
  deriving DecidableEq

inductive Step (l : Loop) : State → Label → State → Prop
  | ended {s c} : s.ctx = none → Step l s (.ended c) { s with ctx := some c }
  | fired {s d} : s.phase = .waiting d → Step l s .fired { s with phase := .ticking }
  | tick {s t pace effects next carry} : s.phase = .ticking →
      l.runPacedTick t = (pace, effects) → l.nextDelay pace s.idleDelay = (next, carry) →
      Step l s (.tick t effects next) { s with phase := .waiting next, idleDelay := carry }
  | done {s d c} : s.phase = .waiting d → s.ctx = some c →
      Step l s .done { s with phase := .returned c.err }

/-- `startAdaptive`, with a context that may have ended before. -/
def adaptive (l : Loop) : Machine State Label where
  init s := s.idleDelay = l.cfg.interval ∧ s.phase = .waiting l.first
  step := Step l

end Code

section Spec

/-- A tick that panicked counts as idle. -/
def TickOutcome.isIdle : TickOutcome → Bool
  | .returned pace _ => pace = .idle
  | .panicked _ => true

def Label.tick? : Label → Option TickOutcome
  | .tick t _ _ => some t
  | _ => none

/-- The ticks of a run, latest first. -/
def ticks (tr : List Label) : List TickOutcome := tr.filterMap Label.tick?

/-- The idle ticks since the start or the last busy tick. -/
def streak (ts : List TickOutcome) : Nat := (ts.takeWhile TickOutcome.isIdle).length

/-- The wait after tick `t` when `ts` are the ticks before. -/
def LoopConfig.schedule (cfg : LoopConfig) (ts : List TickOutcome) (t : TickOutcome) : Int :=
  if t.isIdle then
    if cfg.maxIdleInterval ≤ cfg.interval then cfg.interval
    else min (cfg.interval * 2 ^ streak ts) cfg.maxIdleInterval
  else cfg.busyInterval

def FollowsSchedule (cfg : LoopConfig) (tr : List Label) : Prop :=
  ∀ t effects next r, .tick t effects next :: r <:+ tr → next = cfg.schedule (ticks r) t

end Spec

section Carried

variable {l : Loop} {tr r : List Label} {s : State} {t : TickOutcome} {ts : List TickOutcome}

theorem nextDelay_runPacedTick (idle : Int) : l.nextDelay (l.runPacedTick t).1 idle =
    if t.isIdle then (idle, l.growIdle idle) else (l.cfg.busyInterval, l.cfg.interval) := by
  cases t with
  | returned pace err => cases pace <;> rfl
  | panicked value => rfl

theorem streak_cons : streak (t :: ts) = if t.isIdle then streak ts + 1 else 0 := by
  rw [streak, takeWhile_cons]
  split_ifs <;> rfl

variable (h : Trace (adaptive l) tr s)
include h

/-- The delay that is carried has grown once for every idle tick since the last busy one. -/
theorem idleDelay_eq :
    s.idleDelay = l.growIdle^[streak (ticks tr)] l.cfg.interval := by
  refine h.invariant
    (I := fun tr s => s.idleDelay = l.growIdle^[streak (ticks tr)] l.cfg.interval) ?_ ?_
  · intro s hs
    exact hs.1
  · intro tr s lbl s' _ hst ih
    cases hst with
    | ended _ => exact ih
    | fired _ => exact ih
    | done _ _ => exact ih
    | @tick t pace effects next carry _ hrun hnext =>
      have hdelay := nextDelay_runPacedTick (l := l) (t := t) s.idleDelay
      have hticks : ticks (.tick t effects next :: tr) = t :: ticks tr := rfl
      rw [hrun, hnext] at hdelay
      rw [hticks, streak_cons]
      split_ifs at hdelay ⊢ with hidle
      · rw [Function.iterate_succ_apply', ← ih]
        exact (Prod.mk.inj hdelay).2
      · exact (Prod.mk.inj hdelay).2

theorem next_eq {effects : List Effect} {next : Int}
    (hr : .tick t effects next :: r <:+ tr) :
    next = if t.isIdle then l.growIdle^[streak (ticks r)] l.cfg.interval
      else l.cfg.busyInterval := by
  obtain ⟨s₀, s₁, h₀, hst⟩ := h.at_label hr
  cases hst with
  | tick _ hrun hnext =>
    have hdelay := nextDelay_runPacedTick (l := l) (t := t) s₀.idleDelay
    rw [hrun, hnext] at hdelay
    rw [← idleDelay_eq h₀]
    split_ifs at hdelay ⊢
    · exact (Prod.mk.inj hdelay).1
    · exact (Prod.mk.inj hdelay).1

/-- A loop runs until its context ends, whatever its ticks do, and returns the error of the
context. -/
theorem returns_untilEnd {err : Err} (hp : s.phase = .returned err) :
    Behaviour.untilEnd.Returns s.ctx (some err) := by
  revert hp
  refine h.invariant (I := fun _ s => s.phase = .returned err →
    Behaviour.untilEnd.Returns s.ctx (some err)) ?_ ?_
  · rintro s ⟨-, hwaiting⟩ hp
    rw [hwaiting] at hp
    cases hp
  · intro tr s lbl s' _ hst ih hp
    cases hst with
    | ended hnone =>
      obtain ⟨c, hc, -⟩ := ih hp
      rw [hnone] at hc
      cases hc
    | fired _ => cases hp
    | tick _ _ _ => cases hp
    | @done d c _ hc =>
      cases hp
      exact ⟨c, hc, rfl⟩

end Carried

section Growth

variable {l : Loop} {k : Nat}

theorem growIdle_eq {cur : Int} (hmax : l.cfg.interval < l.cfg.maxIdleInterval) (hcur : 0 ≤ cur)
    (hfits : cur < 2 ^ 62) : l.growIdle cur = min (cur * 2) l.cfg.maxIdleInterval := by
  have hwrap : wrap64 (cur * 2) = cur * 2 := wrap64_of_range (by omega) (by omega)
  rw [Loop.growIdle, if_neg (not_le.mpr hmax), hwrap]

theorem growIdle_neg {cur : Int} (hmax : l.cfg.interval < l.cfg.maxIdleInterval)
    (hcur : 2 ^ 62 ≤ cur) (hfits : cur < 2 ^ 63) : l.growIdle cur < 0 := by
  have hwrap : wrap64 (cur * 2) < 0 := by
    unfold wrap64
    omega
  rw [Loop.growIdle, if_neg (not_le.mpr hmax)]
  exact lt_of_le_of_lt (min_le_left _ _) hwrap

theorem iterate_growIdle_of_le (hmax : l.cfg.maxIdleInterval ≤ l.cfg.interval) (k : Nat) :
    l.growIdle^[k] l.cfg.interval = l.cfg.interval := by
  refine Function.iterate_fixed ?_ k
  rw [Loop.growIdle, if_pos hmax]

variable (hpos : 0 < l.cfg.interval)
include hpos

theorem iterate_growIdle (hmax : l.cfg.interval < l.cfg.maxIdleInterval)
    (hfits : ∀ j < k, min (l.cfg.interval * 2 ^ j) l.cfg.maxIdleInterval < 2 ^ 62) :
    l.growIdle^[k] l.cfg.interval = min (l.cfg.interval * 2 ^ k) l.cfg.maxIdleInterval := by
  induction k with
  | zero => rw [pow_zero, mul_one, min_eq_left hmax.le, Function.iterate_zero_apply]
  | succ k ih =>
    have hpow : 0 < l.cfg.interval * 2 ^ k := mul_pos hpos (pow_pos two_pos k)
    have hbelow := hfits k (Nat.lt_succ_self k)
    rw [Function.iterate_succ_apply', ih fun j hj => hfits j (Nat.lt_succ_of_lt hj),
      growIdle_eq hmax (by omega) hbelow, pow_succ, ← mul_assoc]
    omega

theorem doubled_le {j : Nat} (hj : j ≤ k) : l.cfg.interval * 2 ^ j ≤ l.cfg.interval * 2 ^ k :=
  mul_le_mul_of_nonneg_left (pow_le_pow_right₀ one_le_two hj) hpos.le

theorem iterate_growIdle_of_fits
    (hmax : l.cfg.interval < l.cfg.maxIdleInterval) (hk : l.cfg.interval * 2 ^ k < 2 ^ 63) :
    l.growIdle^[k] l.cfg.interval = min (l.cfg.interval * 2 ^ k) l.cfg.maxIdleInterval := by
  refine iterate_growIdle hpos hmax fun j hj => ?_
  have hle := doubled_le hpos (Nat.succ_le_of_lt hj)
  rw [pow_succ, ← mul_assoc] at hle
  exact lt_of_le_of_lt (min_le_left _ _) (by omega)

/-- Under a cap that is not reached in time the delay becomes negative. -/
theorem iterate_growIdle_neg
    (hmax : l.cfg.interval < l.cfg.maxIdleInterval) (hcap : 2 ^ 62 ≤ l.cfg.maxIdleInterval)
    (hk : l.cfg.interval * 2 ^ k < 2 ^ 63) (hk' : 2 ^ 63 ≤ l.cfg.interval * 2 ^ (k + 1)) :
    l.growIdle^[k + 1] l.cfg.interval < 0 := by
  rw [pow_succ _ k, ← mul_assoc] at hk'
  rw [Function.iterate_succ_apply', iterate_growIdle_of_fits hpos hmax hk]
  exact growIdle_neg hmax (le_min (by omega) hcap) (lt_of_le_of_lt (min_le_left _ _) hk)

end Growth

section Schedule

variable {tr r : List Label} {s : State} {t : TickOutcome} {ts : List TickOutcome} {k : Nat}
  {effects : List Effect}

theorem exists_streak (ht : t.isIdle = true) (hk : k ≤ streak ts) :
    ∃ t' ts', t' :: ts' <:+ t :: ts ∧ t'.isIdle = true ∧ streak ts' = k := by
  induction ts generalizing t with
  | nil => exact ⟨t, [], suffix_refl _, ht, (Nat.le_zero.mp hk).symm⟩
  | cons u ts ih =>
    rcases Nat.eq_or_lt_of_le hk with heq | hlt
    · exact ⟨t, u :: ts, suffix_refl _, ht, heq.symm⟩
    · rw [streak_cons] at hlt
      split_ifs at hlt with hu
      · obtain ⟨t', ts', hs, ht', hk'⟩ := ih hu (Nat.lt_succ_iff.mp hlt)
        exact ⟨t', ts', hs.trans (suffix_cons t _), ht', hk'⟩
      · exact absurd hlt (Nat.not_lt_zero k)

theorem exists_label (hs : t :: ts <:+ ticks tr) :
    ∃ effects next r, .tick t effects next :: r <:+ tr ∧ ticks r = ts := by
  obtain ⟨lbl, r, hlbl, hr, hts⟩ := exists_suffix_of_filterMap hs
  cases lbl with
  | tick t' effects next =>
    obtain rfl := Option.some.inj hlbl
    exact ⟨effects, next, r, hr, hts⟩
  | _ => cases hlbl

theorem suffix_ticks {next : Int}
    (hr : .tick t effects next :: r <:+ tr) : t :: ticks r <:+ ticks tr :=
  hr.filterMap Label.tick?

/-- A wait of a run is the one of the schedule if it has grown as the schedule has. -/
theorem next_eq_schedule {l : Loop} {next : Int}
    (h : Trace (adaptive l) tr s) (hr : .tick t effects next :: r <:+ tr)
    (hgrown : t.isIdle = true → l.cfg.interval < l.cfg.maxIdleInterval →
      l.growIdle^[streak (ticks r)] l.cfg.interval =
        min (l.cfg.interval * 2 ^ streak (ticks r)) l.cfg.maxIdleInterval) :
    next = l.cfg.schedule (ticks r) t := by
  rw [next_eq h hr, LoopConfig.schedule]
  split_ifs with ht hmax
  · exact iterate_growIdle_of_le hmax _
  · exact hgrown ht (not_le.mp hmax)
  · rfl

/-- A loop follows the schedule just if there is no backoff, if the cap is below `2 ^ 62`, or if
no streak of idle ticks is so long that the doubled interval does not fit into a duration. -/
theorem adaptive_follows_iff {l : Loop} (hpos : 0 < l.cfg.interval)
    (h : Trace (adaptive l) tr s) : FollowsSchedule l.cfg tr ↔
      l.cfg.maxIdleInterval ≤ l.cfg.interval ∨ l.cfg.maxIdleInterval < 2 ^ 62 ∨
        ∀ t ts, t :: ts <:+ ticks tr → t.isIdle = true →
          l.cfg.interval * 2 ^ streak ts < 2 ^ 63 := by
  constructor
  · intro hfollows
    by_contra hnot
    simp only [not_or, not_le, not_lt, not_forall] at hnot
    obtain ⟨hmax, hcap, t, ts, hs, ht, hlong⟩ := hnot
    -- the first streak at which the doubled interval does not fit
    have hfirst : ¬ 2 ^ 63 ≤ l.cfg.interval * 2 ^ 0 := by
      have hfits := (l.cfg.durations l.cfg.interval mem_cons_self).2
      rw [pow_zero, mul_one]
      exact not_le.mpr hfits
    obtain ⟨k, hk, hk'⟩ := Nat.exists_not_and_succ_of_not_zero_of_exists
      (p := fun k => 2 ^ 63 ≤ l.cfg.interval * 2 ^ k) hfirst ⟨_, hlong⟩
    have hle : k + 1 ≤ streak ts := by
      by_contra hgt
      exact hk (hlong.trans (doubled_le hpos (by omega)))
    obtain ⟨t', ts', hs', ht', hstreak⟩ := exists_streak ht hle
    obtain ⟨effects, next, r, hr, hticks⟩ := exists_label (hs'.trans hs)
    have hnext := next_eq h hr
    rw [if_pos ht', hticks, hstreak] at hnext
    have hneg := iterate_growIdle_neg hpos hmax hcap (not_le.mp hk) hk'
    have hsched := hfollows t' effects next r hr
    rw [LoopConfig.schedule, if_pos ht', if_neg (not_le.mpr hmax)] at hsched
    have hpow : 0 < l.cfg.interval * 2 ^ streak (ticks r) := mul_pos hpos (pow_pos two_pos _)
    omega
  · rintro hcond t effects next r hr
    refine next_eq_schedule h hr fun ht hmax => ?_
    rcases hcond with hle | hcap | hfits
    · exact absurd hle (not_le.mpr hmax)
    · exact iterate_growIdle hpos hmax fun j _ => lt_of_le_of_lt (min_le_right _ _) hcap
    · exact iterate_growIdle_of_fits hpos hmax (hfits t _ (suffix_ticks hr) ht)

theorem exists_trace (l : Loop) (ts : List TickOutcome) :
    ∃ tr s, Trace (adaptive l) tr s ∧ ticks tr = ts ∧ ∃ d, s.phase = .waiting d := by
  induction ts with
  | nil => exact ⟨[], ⟨none, l.cfg.interval, .waiting l.first⟩, .init ⟨rfl, rfl⟩, rfl, _, rfl⟩
  | cons t ts ih =>
    obtain ⟨tr, s, htr, hticks, d, hd⟩ := ih
    have hticking := htr.step (.fired hd)
    exact ⟨_, _, hticking.step (.tick (t := t) rfl rfl rfl), congrArg (t :: ·) hticks, _, rfl⟩

/-- All runs follow the schedule just if there is no backoff or the cap is below `2 ^ 62`. -/
theorem always_follows_iff {l : Loop} (hpos : 0 < l.cfg.interval) :
    (∀ tr s, Trace (adaptive l) tr s → FollowsSchedule l.cfg tr) ↔
      l.cfg.maxIdleInterval ≤ l.cfg.interval ∨ l.cfg.maxIdleInterval < 2 ^ 62 := by
  constructor
  · intro hall
    -- 64 idle ticks are too many for every interval
    obtain ⟨tr, s, htr, hticks, -⟩ := exists_trace l (List.replicate 64 (.returned .idle none))
    rcases (adaptive_follows_iff hpos htr).mp (hall tr s htr) with hle | hcap | hfits
    · exact .inl hle
    · exact .inr hcap
    · have hlast := hfits (.returned .idle none) (List.replicate 63 (.returned .idle none))
        (hticks ▸ suffix_refl _) rfl
      have hstreak : streak (List.replicate 63 (.returned .idle none)) = 63 := rfl
      rw [hstreak] at hlast
      omega
  · intro hcond tr s htr
    exact (adaptive_follows_iff hpos htr).mpr (hcond.imp_right .inl)

/-- The loop of `NewPacedLoop` follows the schedule of its configuration just if there is no
backoff, if the cap is below `2 ^ 62`, or if no streak of idle ticks is so long that the doubled
interval does not fit into a duration. -/
theorem paced_follows_iff {cfg : LoopConfig} (hpos : 0 < cfg.interval) (log onPanic : Bool)
    (h : Trace (adaptive (newPacedLoop log cfg onPanic)) tr s) : FollowsSchedule cfg tr ↔
      cfg.maxIdleInterval ≤ cfg.interval ∨ cfg.maxIdleInterval < 2 ^ 62 ∨
        ∀ t ts, t :: ts <:+ ticks tr → t.isIdle = true →
          cfg.interval * 2 ^ streak ts < 2 ^ 63 := by
  have hinterval : (newPacedLoop log cfg onPanic).cfg.interval = cfg.interval :=
    if_neg (not_le.mpr hpos)
  have hschedule : (newPacedLoop log cfg onPanic).cfg.schedule = cfg.schedule := by
    funext ts t
    rw [LoopConfig.schedule, hinterval]
    rfl
  have hiff := adaptive_follows_iff (hinterval ▸ hpos) h
  rw [FollowsSchedule, hschedule, hinterval] at hiff
  exact hiff

def sparse : LoopConfig where
  name := "sparse"
  interval := second
  immediateFirstTick := true
  busyInterval := 0
  maxIdleInterval := 5 * second
  durations := by decide

theorem sparse_always_follows : 0 < sparse.interval ∧
    ∀ tr s, Trace (adaptive ⟨sparse, false, false⟩) tr s → FollowsSchedule sparse tr :=
  ⟨by decide, (always_follows_iff (by decide)).mpr (.inr (by decide))⟩

/-- A tick that panicked and an idle one. -/
theorem sparse_follows : FollowsSchedule sparse [.tick (.returned .idle none) [.record .ok]
    (2 * second), .fired, .tick (.panicked "nil map") [.record .panic] second, .fired] := by
  have hstart : Trace (adaptive (newPacedLoop false sparse false)) []
      ⟨none, second, .waiting 0⟩ := .init ⟨rfl, rfl⟩
  have hfirst := (hstart.step (.fired rfl)).step (.tick (t := .panicked "nil map") rfl rfl
    (by decide : _ = (second, 2 * second)))
  have hsecond := (hfirst.step (.fired rfl)).step (.tick (t := .returned .idle none) rfl rfl
    (by decide : _ = (2 * second, 4 * second)))
  exact (paced_follows_iff (by decide) false false hsecond).mpr (.inr (.inl (by decide)))

def farCapped : LoopConfig where
  name := "far"
  interval := 2 ^ 61
  immediateFirstTick := true
  busyInterval := 0
  maxIdleInterval := 2 ^ 62
  durations := by decide

def farRun : List Label :=
  [.tick (.returned .idle none) [.record .ok] (-2 ^ 63), .fired,
    .tick (.returned .idle none) [.record .ok] (2 ^ 62), .fired,
    .tick (.returned .idle none) [.record .ok] (2 ^ 61), .fired]

/-- The wait after the third idle tick is negative. -/
theorem farCapped_wraps : (∃ s, Trace (adaptive (newPacedLoop false farCapped false)) farRun s) ∧
    ¬ FollowsSchedule farCapped farRun := by
  have hstart : Trace (adaptive (newPacedLoop false farCapped false)) []
      ⟨none, 2 ^ 61, .waiting 0⟩ := .init ⟨rfl, rfl⟩
  have hfirst := (hstart.step (.fired rfl)).step (.tick (t := .returned .idle none) rfl rfl
    (by decide : _ = ((2 : Int) ^ 61, (2 : Int) ^ 62)))
  have hsecond := (hfirst.step (.fired rfl)).step (.tick (t := .returned .idle none) rfl rfl
    (by decide : _ = ((2 : Int) ^ 62, -(2 : Int) ^ 63)))
  have hthird := (hsecond.step (.fired rfl)).step (.tick (t := .returned .idle none) rfl rfl
    (by decide : _ = (-(2 : Int) ^ 63, (0 : Int))))
  refine ⟨⟨_, hthird⟩, fun hfollows => ?_⟩
  have hlast := hfollows _ _ _ _ (suffix_refl _)
  revert hlast
  decide

end Schedule

end Skit.Worker.Paced
