import Skit.Dedup.Memory
import Skit.Dedup.Redis
import Skit.Lib.Run

/-!
# Calls of a keeper

`Do` is a program over the operations of a store, the deadline it gives to `fn` and the
two ends of the call of `fn`. A run interleaves any number of calls over one store. An
operation takes effect at the time of its event and may have been called any time before
and return any time after it. A call of a store that can fail may have no effect, or have
its effect and lose the reply; both return an error.
-/
namespace Skit.Dedup
open Lib

def defaultTTL : Int := 24 * 3600 * second

def defaultLease : Int := 60 * second

def errInProgress : Err := .sentinel "dedup: in progress"

def errUnavailable : Err := .sentinel "dedup: store unavailable"

def errEmptyKey : Err := .sentinel "dedup: empty key"

/-- The durations of a `Keeper`. -/
structure Keeper where
  ttl : Int
  lease : Int
  ttl_pos : 0 < ttl
  lease_pos : 0 < lease

theorem cmpOr_max_pos {d : Int} (x : Int) (hd : 0 < d) : 0 < cmpOr (max x 0) d := by
  unfold cmpOr
  split_ifs <;> omega

/-- `newKeeper` with the durations of its options, zero where none is given. -/
def newKeeper (ttl lease : Int) : Keeper where
  ttl := cmpOr (max ttl 0) defaultTTL
  lease := cmpOr (max lease 0) defaultLease
  ttl_pos := cmpOr_max_pos ttl (by decide)
  lease_pos := cmpOr_max_pos lease (by decide)

/-- How a call of `fn`, or of `Do`, ends. -/
inductive Result (T : Type)
  | returned (v : T) (err : Option Err)
  | panicked (value : String)

/-- The calls that `Do` makes. `enter` and `exit` are the two ends of the call of `fn`. -/
inductive Op
  | acquire (key token : Text) (lease : Int)
  | withTimeout (d : Int)
  | enter
  | exit
  | complete (key token value : Text) (ttl : Int)
  | release (key token : Text)
  deriving DecidableEq

/-- The answers; `withTimeout` answers the deadline of the new context. -/
abbrev Ans (T : Type) : Op → Type
  | .acquire _ _ _ => Except Err Found
  | .withTimeout _ => Int
  | .enter => Unit
  | .exit => Result T
  | .complete _ _ _ _ => Except Err Bool
  | .release _ _ => Option Err

/-- One call of `Do`, with the token it draws, the deadline of its context and the JSON
encoding of its `T`. -/
structure Request (T : Type) where
  keeper : Keeper
  key : Text
  token : Text
  token_ne : token ≠ []
  deadline : Option Int
  zero : T
  marshal : T → Except Err Text
  unmarshal : Text → Except Err T

namespace Request

variable {T : Type} (q : Request T)

abbrev ask (o : Op) : Prog Op (Ans T) (Ans T o) := Prog.ask o

def quoted : String := (String.ofList q.key).quote

/-- `decode`. -/
def decode (stored : Text) : Result T :=
  match q.unmarshal stored with
  | .error err => .returned q.zero
      (some (.wrap ("dedup: decode " ++ q.quoted ++ ": " ++ err.error) err))
  | .ok v => .returned v none

/-- A failure of `complete` is logged, not returned. -/
def complete (value : Text) : Prog Op (Ans T) Unit := do
  let _ ← ask (Op.complete q.key q.token value q.keeper.ttl)
  return ()

/-- A failure of `release` is logged, not returned. -/
def release : Prog Op (Ans T) Unit := do
  let _ ← ask (Op.release q.key q.token)
  return ()

/-- `Do` once the key is held. The deferred release runs unless the result was kept. -/
def runFn : Prog Op (Ans T) (Result T) := do
  let _ ← ask (Op.withTimeout q.keeper.lease)
  let _ ← ask Op.enter
  match ← ask Op.exit with
  | Result.panicked value =>
    q.release
    return .panicked value
  | Result.returned v (some err) =>
    q.release
    return .returned v (some err)
  | Result.returned v none =>
    match q.marshal v with
    | .error err =>
      q.release
      return .returned q.zero
        (some (.wrap ("dedup: encode " ++ q.quoted ++ ": " ++ err.error) err))
    | .ok b =>
      q.complete b
      return .returned v none

def unavailable (err : Err) : Result T :=
  .returned q.zero (some (.join (errUnavailable.error ++ ": " ++ err.error) errUnavailable err))

/-- `Keeper.Do`. -/
def runDo : Prog Op (Ans T) (Result T) :=
  if q.key = [] then return .returned q.zero (some errEmptyKey)
  else do
    match ← ask (Op.acquire q.key q.token q.keeper.lease) with
    | Except.error err => return q.unavailable err
    | Except.ok Found.running => return .returned q.zero (some errInProgress)
    | Except.ok (Found.done stored) => return q.decode stored
    | Except.ok Found.acquired => q.runFn

end Request

section Semantics

variable {T : Type}

/-- An operation of the store on its state, for a record that lives `extra` longer. -/
def Store.exec (B : Store) (s : B.State) (now extra : Int) : (o : Op) → Option (Ans T o × B.State)
  | .acquire key token lease => some (B.acquire s now extra key token lease)
  | .complete key token value ttl => some (B.complete s now extra key token value ttl)
  | .release key token => some (B.release s now key token)
  | _ => none

def isError : (o : Op) → Ans T o → Bool
  | .acquire _ _ _, .error _ => true
  | .complete _ _ _ _, .error _ => true
  | .release _ _, some _ => true
  | _, _ => false

/-- `context.WithTimeout` keeps an earlier deadline of its parent. -/
def earlier (parent : Option Int) (deadline : Int) : Int :=
  match parent with
  | none => deadline
  | some d => min d deadline

/-- What a call does. -/
inductive Sem (B : Store) (q : Request T) (s : B.State) : Event Int Op (Ans T) → B.State → Prop
  | replied {ev : Event Int Op (Ans T)} {s' : B.State} {extra : Int} : 0 ≤ extra →
      extra ≤ B.late → B.exec s ev.time extra ev.op = some (ev.ans, s') → Sem B q s ev s'
  | lost {ev : Event Int Op (Ans T)} {a : Ans T ev.op} {s' : B.State} {extra : Int} :
      B.fallible = true → 0 ≤ extra → extra ≤ B.late → B.exec s ev.time extra ev.op = some (a, s') →
      isError ev.op ev.ans = true → Sem B q s ev s'
  | failed {ev : Event Int Op (Ans T)} : B.fallible = true → isError ev.op ev.ans = true →
      Sem B q s ev s
  | withTimeout {t d : Int} : Sem B q s ⟨t, .withTimeout d, earlier q.deadline (t + d)⟩ s
  | enter {t : Int} : Sem B q s ⟨t, .enter, ()⟩ s
  | exit {t : Int} {out : Result T} : Sem B q s ⟨t, .exit, out⟩ s

/-- Calls with tokens of their own. -/
structure Calls (ι T : Type) where
  req : ι → Request T
  unique : Function.Injective fun i => (req i).token

/-- The calls of `Do` over one store. -/
def calls {ι : Type} (B : Store) (qs : Calls ι T) :
    System ι Int Op (Ans T) Empty B.State (Result T) where
  prog i := (qs.req i).runDo
  init s := s = B.empty
  sem i := Sem B (qs.req i)
  env _ _ _ _ := False

end Semantics

section Histories

variable {T : Type} (q : Request T)

abbrev History (T : Type) := List (Event Int Op (Ans T))

/-- The key was acquired at `ta`. -/
def held (ta : Int) : History T :=
  [⟨ta, .acquire q.key q.token q.keeper.lease, .ok .acquired⟩]

/-- `fn` was called at `te`, with the deadline `d` set at `td`. -/
def entered (ta td d te : Int) : History T :=
  ⟨te, .enter, ()⟩ :: ⟨td, .withTimeout q.keeper.lease, d⟩ :: held q ta

/-- `fn` failed, or its value does not encode. -/
def Failed : Result T → Prop
  | .panicked _ => True
  | .returned v err => err ≠ none ∨ ∃ e, q.marshal v = .error e

/-- The histories at which `Do` makes each call. -/
def Admits (h : History T) : Op → Prop
  | .acquire key token lease => key = q.key ∧ token = q.token ∧ lease = q.keeper.lease ∧ h = []
  | .withTimeout d => d = q.keeper.lease ∧ ∃ ta, h = held q ta
  | .enter => ∃ ta td d, h = ⟨td, .withTimeout q.keeper.lease, d⟩ :: held q ta
  | .exit => ∃ ta td d te, h = entered q ta td d te
  | .complete key token value ttl => key = q.key ∧ token = q.token ∧ ttl = q.keeper.ttl ∧
      ∃ ta td d te tx v, q.marshal v = .ok value ∧
        h = ⟨tx, .exit, .returned v none⟩ :: entered q ta td d te
  | .release key token => key = q.key ∧ token = q.token ∧
      ∃ ta td d te tx out, Failed q out ∧ h = ⟨tx, .exit, out⟩ :: entered q ta td d te

/-- After its first call `Do` goes on only with the key. -/
theorem Admits.held {q : Request T} {h : History T} {o : Op} (ha : Admits q h o) (hne : h ≠ []) :
    ∃ ta, Dedup.held q ta <:+ h := by
  cases o with
  | acquire key token lease => exact absurd ha.2.2.2 hne
  | withTimeout d =>
    obtain ⟨-, ta, rfl⟩ := ha
    exact ⟨ta, List.suffix_refl _⟩
  | enter =>
    obtain ⟨ta, td, d, rfl⟩ := ha
    exact ⟨ta, List.suffix_cons _ _⟩
  | exit =>
    obtain ⟨ta, td, d, te, rfl⟩ := ha
    exact ⟨ta, ⟨[_, _], rfl⟩⟩
  | complete key token value ttl =>
    obtain ⟨-, -, -, ta, td, d, te, tx, v, -, rfl⟩ := ha
    exact ⟨ta, ⟨[_, _, _], rfl⟩⟩
  | release key token =>
    obtain ⟨-, -, ta, td, d, te, tx, out, -, rfl⟩ := ha
    exact ⟨ta, ⟨[_, _, _], rfl⟩⟩

/-- What `Do` returns when the key was not free. -/
def Returned (out : Result T) (h : History T) : Prop :=
  (∀ t key token lease b, h = [⟨t, .acquire key token lease, .ok (.done b)⟩] → out = q.decode b) ∧
  (∀ t key token lease err, h = [⟨t, .acquire key token lease, .error err⟩] →
    out = q.unavailable err)

variable {q}

theorem returned_of_two (out : Result T) (a b : Event Int Op (Ans T)) (h : History T) :
    Returned q out (a :: b :: h) := by
  constructor <;> intros <;> simp_all

theorem wp_release {ta td d te tx : Int} {out r : Result T} (hf : Failed q out) :
    wp (Admits q) (Returned q) (do q.release; return r)
      (⟨tx, .exit, out⟩ :: entered q ta td d te) :=
  ⟨⟨rfl, rfl, ta, td, d, te, tx, out, hf, rfl⟩, fun _ _ => returned_of_two _ _ _ _⟩

theorem wp_runFn (ta : Int) : wp (Admits q) (Returned q) q.runFn (held q ta) := by
  refine ⟨⟨rfl, ta, rfl⟩, fun td d => ⟨⟨ta, td, d, rfl⟩, fun te _ =>
    ⟨⟨ta, td, d, te, rfl⟩, fun tx out => ?_⟩⟩⟩
  cases out with
  | panicked value => exact wp_release trivial
  | returned v err =>
    cases err with
    | some err => exact wp_release (.inl (by simp))
    | none =>
      change wp _ _ (match q.marshal v with
        | .error err => _
        | .ok b => _) _
      cases hm : q.marshal v with
      | error err => exact wp_release (.inr ⟨err, hm⟩)
      | ok b =>
        exact ⟨⟨rfl, rfl, rfl, ta, td, d, te, tx, v, hm, rfl⟩, fun _ _ => returned_of_two _ _ _ _⟩

/-- `Do` makes its calls as `Admits` says, whatever they answer. -/
theorem wp_runDo (q : Request T) : wp (Admits q) (Returned q) q.runDo [] := by
  unfold Request.runDo
  split_ifs with hk
  · constructor <;> intros <;> simp_all
  · refine ⟨⟨rfl, rfl, rfl, rfl⟩, fun ta found => ?_⟩
    cases found with
    | error err => constructor <;> intros <;> simp_all
    | ok found =>
      cases found with
      | acquired => exact wp_runFn ta
      | running => constructor <;> intros <;> simp_all
      | done stored => constructor <;> intros <;> simp_all

end Histories

end Skit.Dedup
