import Skit.Basic
import Skit.Lib.Prog

/-!
# Retrying a call

`Do` calls a function until it succeeds, its error is terminal, the budget is spent or a wait is
cut short. The function, the observer, the clock and the context answer in any way.
-/
namespace Skit.Retry
open List

open Lib Prog

variable {ρ τ : Type}

/-- What `Do` calls: `err` is `ctx.Err`, `timer` is the wait for the timer or the end of the
context. -/
inductive Call
  | fn
  | onRetry (attempt : Nat) (err : Err)
  | rand
  | sleep (d : Int)
  | err
  | timer (d : Int)
  deriving DecidableEq

/-- A wait answers with an error when it is cut short. -/
abbrev Ans (ρ : Type) : Call → Type
  | .fn => Option Err
  | .onRetry _ _ => Unit
  | .rand => ρ
  | .sleep _ => Option Err
  | .err => Option Err
  | .timer _ => Option Err

/-- The hooks that are set. The default delay depends on a draw of `Rand`. -/
structure Config (ρ : Type) where
  maxAttempts : Int
  nextWithRand : Nat → ρ → Int
  strategy : Option (Nat → Int)
  isTerminal : Option (Err → Bool)
  onRetry : Bool
  sleep : Bool

namespace Config

variable (cfg : Config ρ)

def budget : Int := max cfg.maxAttempts 1

def terminal (err : Err) : Bool := cfg.isTerminal.any (· err)

def delay (attempt : Nat) : Prog Call (Ans ρ) Int :=
  match cfg.strategy with
  | some strategy => .ret (strategy attempt)
  | none => do
    let r ← ask (A := Ans ρ) .rand
    return cfg.nextWithRand attempt r

end Config

def sleepCtx (d : Int) : Prog Call (Ans ρ) (Option Err) :=
  if d ≤ 0 then ask (A := Ans ρ) .err else ask (A := Ans ρ) (.timer d)

def wait (cfg : Config ρ) (d : Int) : Prog Call (Ans ρ) (Option Err) :=
  if cfg.sleep then ask (A := Ans ρ) (.sleep d) else sleepCtx d

def observe (cfg : Config ρ) (attempt : Nat) (err : Err) : Prog Call (Ans ρ) Unit :=
  if cfg.onRetry then ask (A := Ans ρ) (.onRetry attempt err) else .ret ()

/-- An attempt; `again` is the rest of the loop, unless the budget is spent. -/
def turn (cfg : Config ρ) (attempt : Nat) (again : Option (Prog Call (Ans ρ) (Option Err))) :
    Prog Call (Ans ρ) (Option Err) := do
  match ← ask (A := Ans ρ) .fn with
  | none => return none
  | some err =>
    if cfg.terminal err then return some err
    else
      match again with
      | none => return some err
      | some rest =>
        observe cfg attempt err
        let d ← cfg.delay attempt
        match ← wait cfg d with
        | some _ => return some err
        | none => rest

/-- The loop, with the number of attempts that are left after this one. -/
def loop (cfg : Config ρ) : Nat → Nat → Prog Call (Ans ρ) (Option Err)
  | 0, attempt => turn cfg attempt none
  | left + 1, attempt => turn cfg attempt (some (loop cfg left (attempt + 1)))

/-- `Do`. -/
def run (cfg : Config ρ) : Prog Call (Ans ρ) (Option Err) := loop cfg (cfg.budget.toNat - 1) 1

section Histories

def result : Event τ Call (Ans ρ) → Option (Option Err)
  | ⟨_, .fn, res⟩ => some res
  | _ => none

/-- What the calls of the function returned, in their order. -/
def results (h : List (Event τ Call (Ans ρ))) : List (Option Err) := (h.filterMap result).reverse

def observation : Event τ Call (Ans ρ) → Option (Nat × Err)
  | ⟨_, .onRetry attempt err, _⟩ => some (attempt, err)
  | _ => none

/-- The calls of the observer, in their order. -/
def observed (h : List (Event τ Call (Ans ρ))) : List (Nat × Err) :=
  (h.filterMap observation).reverse

/-- The wait was cut short. -/
def Cut : Event τ Call (Ans ρ) → Prop
  | ⟨_, .sleep _, ans⟩ => ans.isSome = true
  | ⟨_, .err, ans⟩ => ans.isSome = true
  | ⟨_, .timer _, ans⟩ => ans.isSome = true
  | _ => False

/-- After a success, a terminal error or a wait that was cut short there is nothing to do. -/
def Final (cfg : Config ρ) : Event τ Call (Ans ρ) → Prop
  | ⟨_, .fn, none⟩ => True
  | ⟨_, .fn, some err⟩ => cfg.terminal err = true
  | ev => Cut ev

/-- The failed attempts with their numbers. -/
def failures (rs : List (Option Err)) : List (Nat × Err) :=
  (rs.zipIdx 1).filterMap fun p => p.1.map fun err => (p.2, err)

/-- What `Do` owes its caller and the observer. -/
structure Faithful (cfg : Config ρ) (r : Option Err) (h : List (Event τ Call (Ans ρ))) : Prop where
  calls : 1 ≤ (results h).length ∧ (results h).length ≤ cfg.budget
  returned : (results h).getLast? = some r
  stops : ∀ later ev earlier, h = later ++ ev :: earlier → Final cfg ev →
    ∀ e ∈ later, e.op ≠ .fn
  observer : cfg.onRetry = true → observed h = failures (results h).dropLast

end Histories

section Loop

variable {cfg : Config ρ} {h : List (Event τ Call (Ans ρ))} {n : Nat} {err : Err}
  {Q : Option Err → List (Event τ Call (Ans ρ)) → Prop} {ev : Event τ Call (Ans ρ)}

theorem failures_append (rs : List (Option Err)) (err : Err) :
    failures (rs ++ [some err]) = failures rs ++ [(rs.length + 1, err)] := by
  simp [failures, zipIdx_append, Nat.add_comm]

/-- The function has failed `n` times, and there is another attempt to make. -/
structure Before (cfg : Config ρ) (n : Nat) (h : List (Event τ Call (Ans ρ))) : Prop where
  goes : ∀ ev ∈ h, ¬ Final cfg ev
  count : (results h).length = n
  observer : cfg.onRetry = true → observed h = failures (results h)

/-- The event is neither a call of the function nor one of the observer, and does not end the
loop. -/
structure Quiet (cfg : Config ρ) (ev : Event τ Call (Ans ρ)) : Prop where
  result : result ev = none
  observation : observation ev = none
  goes : ¬ Final cfg ev

/-- The function has failed for the time after `n`, the observer knows it, and the loop is at its
wait. -/
structure Waiting (cfg : Config ρ) (n : Nat) (err : Err) (h : List (Event τ Call (Ans ρ))) :
    Prop where
  goes : ∀ ev ∈ h, ¬ Final cfg ev
  last : ∃ rs, rs.length = n ∧ results h = rs ++ [some err]
  observer : cfg.onRetry = true → observed h = failures (results h)

/-- How the loop has ended: right after a call of the function, or at a wait. -/
structure Ended (cfg : Config ρ) (r : Option Err) (h : List (Event τ Call (Ans ρ))) : Prop where
  calls : (results h).length ≤ cfg.budget
  returned : (results h).getLast? = some r
  last : ∃ ev h', h = ev :: h' ∧ (∀ e ∈ h', ¬ Final cfg e) ∧
    ((ev.op = .fn ∧ (cfg.onRetry = true → observed h = failures (results h).dropLast)) ∨
      (Cut ev ∧ r.isSome = true ∧ (cfg.onRetry = true → observed h = failures (results h))))

theorem Before.nil (cfg : Config ρ) : Before cfg 0 ([] : List (Event τ Call (Ans ρ))) :=
  ⟨nofun, rfl, fun _ => rfl⟩

theorem Quiet.results (hq : Quiet cfg ev) : Retry.results (ev :: h) = Retry.results h := by
  rw [Retry.results, filterMap_cons_none hq.result, Retry.results]

theorem Quiet.observed (hq : Quiet cfg ev) : Retry.observed (ev :: h) = Retry.observed h := by
  rw [Retry.observed, filterMap_cons_none hq.observation, Retry.observed]

theorem Waiting.quiet (hw : Waiting cfg n err h)
    (hq : Quiet cfg ev) : Waiting cfg n err (ev :: h) := by
  refine ⟨forall_mem_cons.mpr ⟨hq.goes, hw.goes⟩, ?_, ?_⟩
  · rw [hq.results]
    exact hw.last
  · rw [hq.results, hq.observed]
    exact hw.observer

theorem Waiting.before (hw : Waiting cfg n err h) : Before cfg (n + 1) h := by
  obtain ⟨rs, hn, hrs⟩ := hw.last
  refine ⟨hw.goes, ?_, hw.observer⟩
  rw [hrs, length_append, hn, length_singleton]

theorem Before.failed (hb : Before cfg n h) (t : τ) (hterm : cfg.terminal err = false) :
    wp (fun _ _ => True) (fun _ h' => Waiting cfg n err h') (observe cfg (n + 1) err)
      (⟨t, .fn, some err⟩ :: h) := by
  have hgoes : ∀ ev ∈ (⟨t, .fn, some err⟩ :: h : List (Event τ Call (Ans ρ))), ¬ Final cfg ev :=
    forall_mem_cons.mpr ⟨by simp [Final, hterm], hb.goes⟩
  have hresults : results (⟨t, .fn, some err⟩ :: h : List (Event τ Call (Ans ρ))) =
      results h ++ [some err] := by simp [results, result]
  unfold observe
  split_ifs with hon
  · refine ⟨trivial, fun t' _ => ⟨?_, ?_, ?_⟩⟩
    · exact forall_mem_cons.mpr ⟨by simp [Final, Cut], hgoes⟩
    · exact ⟨results h, hb.count, hresults⟩
    · intro _
      have hobserved : observed (⟨t', .onRetry (n + 1) err, ()⟩ :: ⟨t, .fn, some err⟩ :: h :
          List (Event τ Call (Ans ρ))) = observed h ++ [(n + 1, err)] := by
        simp only [observed, filterMap_cons, observation, reverse_cons]
      have hsame : results (⟨t', .onRetry (n + 1) err, ()⟩ :: ⟨t, .fn, some err⟩ :: h :
          List (Event τ Call (Ans ρ))) = results h ++ [some err] := hresults
      rw [hsame, failures_append, ← hb.observer hon, hb.count]
      exact hobserved
  · exact ⟨hgoes, ⟨results h, hb.count, hresults⟩, fun hon' => absurd hon' hon⟩

theorem Waiting.delay (hw : Waiting cfg n err h) (attempt : Nat) :
    wp (fun _ _ => True) (fun _ h' => Waiting cfg n err h') (cfg.delay attempt) h := by
  unfold Config.delay
  split
  · exact hw
  · exact ⟨trivial, fun t r => hw.quiet ⟨rfl, rfl, by simp [Final, Cut]⟩⟩

/-- The loop goes on after a wait, and returns the error of the attempt if it was cut short. -/
theorem Waiting.wait (hw : Waiting cfg n err h) (hn : n + 1 ≤ cfg.budget) (d : Int) :
    wp (fun _ _ => True) (fun ans h' => match ans with
      | none => Before cfg (n + 1) h'
      | some _ => Ended cfg (some err) h') (wait cfg d) h := by
  have hcut : ∀ ev : Event τ Call (Ans ρ), result ev = none → observation ev = none → Cut ev →
      Ended cfg (some err) (ev :: h) := by
    intro ev hres hobs hcut
    obtain ⟨rs, hlen, hrs⟩ := hw.last
    have hresults : results (ev :: h) = rs ++ [some err] := by
      rw [results, filterMap_cons_none hres, ← hrs, results]
    have hobserved : observed (ev :: h) = observed h := by
      rw [observed, filterMap_cons_none hobs, observed]
    refine ⟨?_, ?_, ev, h, rfl, hw.goes, .inr ⟨hcut, rfl, fun hon => ?_⟩⟩
    · rw [hresults, length_append, hlen, length_singleton]
      exact hn
    · rw [hresults, getLast?_concat]
    · rw [hobserved, hresults, hw.observer hon, hrs]
  have hnone : ∀ ev : Event τ Call (Ans ρ), Quiet cfg ev → Before cfg (n + 1) (ev :: h) :=
    fun ev hq => (hw.quiet hq).before
  unfold Retry.wait sleepCtx
  -- the configured sleep, the context's own error and the timer answer alike
  split_ifs
  all_goals
    refine ⟨trivial, fun t ans => ?_⟩
    cases ans with
    | none => exact hnone _ ⟨rfl, rfl, by simp [Final, Cut]⟩
    | some err => exact hcut _ rfl rfl rfl

theorem Before.ended (hb : Before cfg n h) (hn : n + 1 ≤ cfg.budget) (t : τ) (r : Option Err) :
    Ended cfg r (⟨t, .fn, r⟩ :: h) := by
  have hresults : results (⟨t, .fn, r⟩ :: h : List (Event τ Call (Ans ρ))) = results h ++ [r] := by
    simp [results, result]
  have hobserved : observed (⟨t, .fn, r⟩ :: h : List (Event τ Call (Ans ρ))) = observed h := rfl
  refine ⟨?_, ?_, _, h, rfl, hb.goes, .inl ⟨rfl, fun hon => ?_⟩⟩
  · rw [hresults, length_append, hb.count, length_singleton]
    exact hn
  · rw [hresults, getLast?_concat]
  · rw [hobserved, hresults, dropLast_concat, hb.observer hon]

theorem Before.turn (hb : Before cfg n h) (hn : n + 1 ≤ cfg.budget)
    {again : Option (Prog Call (Ans ρ) (Option Err))}
    (hagain : ∀ rest ∈ again, ∀ h' : List (Event τ Call (Ans ρ)), Before cfg (n + 1) h' →
      wp (fun _ _ => True) (Ended cfg) rest h') :
    wp (fun _ _ => True) (Ended cfg) (turn cfg (n + 1) again) h := by
  rw [Retry.turn, ask_bind]
  refine ⟨trivial, fun t r => ?_⟩
  cases r with
  | none => exact hb.ended hn t none
  | some err =>
    dsimp only
    split_ifs with hterm
    · exact hb.ended hn t (some err)
    · cases again with
      | none => exact hb.ended hn t (some err)
      | some rest =>
        refine wp_seq (hb.failed t (Bool.eq_false_iff.mpr hterm)) fun _ h₁ hw₁ => ?_
        refine wp_seq (hw₁.delay (n + 1)) fun d h₂ hw₂ => ?_
        refine wp_seq (hw₂.wait hn d) fun ans h₃ hend => ?_
        cases ans with
        | none => exact hagain rest rfl h₃ hend
        | some _ => exact hend

theorem Before.loop (hb : Before cfg n h) {left : Nat} (hn : n + 1 + left ≤ cfg.budget) :
    wp (fun _ _ => True) (Ended cfg) (loop cfg left (n + 1)) h := by
  induction left generalizing n h with
  | zero => exact hb.turn (by omega) nofun
  | succ left ih =>
    refine hb.turn (by omega) ?_
    rintro rest hrest h' hb'
    cases hrest
    exact ih hb' (by omega)

/-- A run of `Do` ends right after a call of the function, or at a wait that was cut short. -/
theorem ended {r : Option Err} (hx : Exec (run cfg) h (.ret r)) : Ended cfg r h := by
  have hpos : 1 ≤ cfg.budget := le_max_right _ _
  have hwp : wp (fun _ _ => True) (Ended cfg) (run cfg) ([] : List (Event τ Call (Ans ρ))) :=
    (Before.nil cfg).loop (by omega)
  exact hx.wp hwp

theorem final_of_cut (hc : Cut ev) : Final cfg ev := by
  obtain ⟨t, op, ans⟩ := ev
  cases op with
  | fn => cases hc
  | _ => exact hc

theorem not_cut_of_fn (hop : ev.op = .fn) : ¬ Cut ev := by
  obtain ⟨t, op, ans⟩ := ev
  cases hop
  exact id

/-- `Do` is faithful to its caller and to the observer just when no wait was cut short. What it
owes to the caller it does in any case. -/
theorem faithful_iff {r : Option Err} (hx : Exec (run cfg) h (.ret r)) :
    Faithful cfg r h ↔ (cfg.onRetry = true → ∀ ev ∈ h, ¬ Cut ev) := by
  obtain ⟨hcalls, hreturned, ev, h', rfl, hgoes, hlast⟩ := ended hx
  have hcut : ∀ e ∈ h', ¬ Cut e := fun e he hc => hgoes e he (final_of_cut hc)
  have hpos : 1 ≤ (results (ev :: h')).length :=
    length_pos_of_mem (mem_of_getLast? hreturned)
  have hstops : ∀ later ev' earlier, ev :: h' = later ++ ev' :: earlier → Final cfg ev' →
      ∀ e ∈ later, e.op ≠ .fn := by
    intro later ev' earlier heq hfinal e he
    cases later with
    | nil => cases he
    | cons a later =>
      have hmem : ev' ∈ h' := by
        rw [(List.cons.inj heq).2]
        exact mem_append_right later mem_cons_self
      exact absurd hfinal (hgoes ev' hmem)
  rcases hlast with ⟨hop, hobserved⟩ | ⟨hend, hsome, hobserved⟩
  · refine iff_of_true ⟨⟨hpos, hcalls⟩, hreturned, hstops, hobserved⟩ fun _ => ?_
    exact forall_mem_cons.mpr ⟨not_cut_of_fn hop, hcut⟩
  · constructor
    · intro hf hon
      -- the observer was called for the last attempt, which nothing follows
      obtain ⟨err, rfl⟩ := Option.isSome_iff_exists.mp hsome
      have hsplit := dropLast_append_getLast? (some err) hreturned
      have heq := (hf.observer hon).symm.trans (hobserved hon)
      rw [← hsplit, failures_append, dropLast_concat] at heq
      exact absurd heq (by simp)
    · intro hnone
      refine ⟨⟨hpos, hcalls⟩, hreturned, hstops, fun hon => ?_⟩
      exact absurd hend (hnone hon ev mem_cons_self)

/-- Two attempts with an observer and a `Sleep` of its own. -/
def twice : Config Unit := ⟨2, fun _ _ => 0, some fun _ => 1, none, true, true⟩

/-- The first attempt fails, and the wait is cut short. -/
def cutShort : List (Event Nat Call (Ans Unit)) :=
  [⟨2, .sleep 1, some (.sentinel "context canceled")⟩, ⟨1, .onRetry 1 (.text "refused"), ()⟩,
    ⟨0, .fn, some (.text "refused")⟩]

/-- The observer hears of a retry that never happens. -/
theorem cutShort_observed :
    Exec (run twice) cutShort (.ret (some (.text "refused"))) ∧
      observed cutShort = [(1, .text "refused")] ∧ results cutShort = [some (.text "refused")] ∧
      ¬ Faithful twice (some (.text "refused")) cutShort := by
  have hx : Exec (run twice) cutShort (.ret (some (.text "refused"))) :=
    Exec.start.of_play cutShort.reverse rfl
  refine ⟨hx, rfl, rfl, fun hf => ?_⟩
  cases hf.observer rfl

/-- The second attempt succeeds. -/
def recovered : List (Event Nat Call (Ans Unit)) :=
  [⟨3, .fn, none⟩, ⟨2, .sleep 1, none⟩, ⟨1, .onRetry 1 (.text "refused"), ()⟩,
    ⟨0, .fn, some (.text "refused")⟩]

theorem recovered_faithful :
    Exec (run twice) recovered (.ret none) ∧ Faithful twice none recovered := by
  have hx : Exec (run twice) recovered (.ret none) := Exec.start.of_play recovered.reverse rfl
  refine ⟨hx, (faithful_iff hx).mpr fun _ => ?_⟩
  simp [recovered, Cut]

end Loop

end Skit.Retry
