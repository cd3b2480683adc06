import Skit.Basic
import Skit.Lib.Expiring
import Skit.Lib.Trace

/-!
# Locks of a Redis server

`TryLock` draws a token and sets the key to it if there is none; its `Release` runs a script that
deletes the key if it still has the token. Any number of calls are interleaved without restriction,
and one that makes no further step has crashed. A call of the server may fail, or take effect and
lose its reply; both are errors. `SetNX` sends `ex` for whole seconds and `px` otherwise, so a key
is kept for `millis ttl` milliseconds, and at most one longer.
-/
namespace Skit.Lock
open Lib Expiring Function

/-- Keys and tokens. -/
abbrev Text := List Char

/-- The keys of a server. -/
abbrev Items := Expiring.Items Text Text

/-- The calls of `TryLock`, with the random tokens that they draw. -/
structure Calls (ι : Type) where
  key : ι → Text
  ttl : ι → Int
  token : ι → Text
  distinct : Function.Injective token

/-- Where a call is, and then its `Release`. -/
inductive Call
  | drawing
  | setting (token : Text)
  | held (token : Text) (since : Int)
  | released
  | returned (r : Except Err Bool)

/-- `durationString` is `time.Duration.String`. -/
def tryLock (durationString : Int → String) (ttl : Int) : Call :=
  if ttl ≤ 0 then
    .returned (.error (.text ("lock: redis requires ttl > 0, got " ++ durationString ttl)))
  else .drawing

def Call.newToken : Except Err Text → Call
  | .error err => .returned (.error (.wrap ("lock: generate token: " ++ err.error) err))
  | .ok token => .setting token

/-- The reply to a `SetNX` at `t`. -/
def Call.setNX (token : Text) (t : Int) : Except Err Bool → Call
  | .error err => .returned (.error (.wrap ("lock: redis SET NX: " ++ err.error) err))
  | .ok false => .returned (.ok false)
  | .ok true => .held token t

/-- `SET` with `NX`. -/
def setNX (items : Items) (now extra : Int) (key token : Text) (ttl : Int) : Bool × Items :=
  if (items.get now key).isSome then (false, items)
  else (true, items.set now extra key token (millis ttl))

def releaseScript (items : Items) (now : Int) (key token : Text) : Int × Items :=
  items.deleteIf now key token

structure State (ι : Type) where
  items : Items
  now : Int
  calls : ι → Call

section Machine

variable {ι : Type} [DecidableEq ι] {c : Calls ι} {s : State ι} {t : Int} {i j : ι}
  {items items' : Items} {durationString : Int → String} {tr : List (Int × ι)}

def State.set (s : State ι) (t : Int) (items : Items) (i : ι) (c : Call) : State ι :=
  ⟨items, t, Function.update s.calls i c⟩

/-- A step of a call at some time. An error of the release script is only logged. -/
inductive Step (c : Calls ι) (s : State ι) : Int × ι → State ι → Prop
  | newToken {t : Int} {i : ι} (r : Except Err Text) : s.now ≤ t → s.calls i = .drawing →
      (∀ token, r = .ok token → token = c.token i) →
      Step c s (t, i) (s.set t s.items i (.newToken r))
  | setNX {t extra : Int} {i : ι} {token : Text} (r : Except Err Bool) : s.now ≤ t →
      s.calls i = .setting token → 0 ≤ extra → extra ≤ millisecond →
      (∀ b, r = .ok b → b = (Lock.setNX s.items t extra (c.key i) token (c.ttl i)).1) →
      Step c s (t, i) (s.set t (Lock.setNX s.items t extra (c.key i) token (c.ttl i)).2 i
        (.setNX token t r))
  | notSet {t : Int} {i : ι} {token : Text} (err : Err) : s.now ≤ t → s.calls i = .setting token →
      Step c s (t, i) (s.set t s.items i (.setNX token t (.error err)))
  | release {t since : Int} {i : ι} {token : Text} : s.now ≤ t → s.calls i = .held token since →
      Step c s (t, i) (s.set t (releaseScript s.items t (c.key i) token).2 i .released)
  | notReleased {t since : Int} {i : ι} {token : Text} : s.now ≤ t →
      s.calls i = .held token since → Step c s (t, i) (s.set t s.items i .released)

def locks (c : Calls ι) (durationString : Int → String) : Machine (State ι) (Int × ι) where
  init s := s.items = (fun _ => none) ∧ ∀ i, s.calls i = tryLock durationString (c.ttl i)
  step := Step c

/-- The call has the lock: it set the key less than its time to live ago, which the server counts
in whole milliseconds. -/
def Holds (c : Calls ι) (s : State ι) (now : Int) (i : ι) : Prop :=
  ∃ token since, s.calls i = .held token since ∧ now < since + millis (c.ttl i) * millisecond

/-- What the server and a call know of each other. -/
def Kept (c : Calls ι) (i : ι) (items : Items) (now : Int) : Call → Prop
  | .setting token => token = c.token i
  | .held token since => token = c.token i ∧ ∃ x, since + millis (c.ttl i) * millisecond ≤ x ∧
      (items (c.key i) = some ⟨token, x⟩ ∨ x ≤ now)
  | _ => True

/-- A key that has not expired is not set. -/
theorem setNX_kept {k k' v token : Text} {x extra ttl : Int} (hi : items k = some ⟨v, x⟩)
    (hlive : t < x) : (setNX items t extra k' token ttl).2 k = some ⟨v, x⟩ := by
  unfold setNX
  split_ifs with hget
  · exact hi
  · have hne : k ≠ k' := by
      rintro rfl
      exact hget (by rw [Items.get_of_live hi hlive]; rfl)
    exact (update_of_ne hne _ _).trans hi

/-- A step of one call, and what it leaves of the others. -/
theorem kept_set {call : Call} (h : ∀ j, Kept c j s.items s.now (s.calls j)) (hnow : s.now ≤ t)
    (hi : Kept c i items t call) (hitems : ∀ j x, j ≠ i → s.items (c.key j) = some ⟨c.token j, x⟩ →
      t < x → items (c.key j) = some ⟨c.token j, x⟩) (j : ι) :
    Kept c j items t ((s.set t items i call).calls j) := by
  change Kept c j items t (Function.update s.calls i call j)
  by_cases hji : j = i
  · subst hji
    rwa [update_self]
  · have hj := h j
    rw [update_of_ne hji]
    cases hcall : s.calls j with
    | setting token => rwa [hcall] at hj
    | held token since =>
      rw [hcall] at hj
      obtain ⟨rfl, x, hx, hkept⟩ := hj
      refine ⟨rfl, x, hx, ?_⟩
      rcases lt_or_ge t x with hlive | hpast
      · exact .inl (hitems j x hji (hkept.resolve_right (by omega)) hlive)
      · exact .inr hpast
    | _ => trivial

theorem kept_step {s' : State ι} {l : Int × ι} (h : ∀ j, Kept c j s.items s.now (s.calls j))
    (hst : Step c s l s') (j : ι) : Kept c j s'.items s'.now (s'.calls j) := by
  cases hst with
  | @newToken t i r hnow _ hr =>
    refine kept_set h hnow ?_ (fun _ _ _ hi _ => hi) j
    cases r with
    | error err => trivial
    | ok token => exact hr token rfl
  | @setNX t extra i token r hnow hcall hextra _ hr =>
    have htoken := h i
    rw [hcall] at htoken
    refine kept_set h hnow ?_ (fun _ _ _ hi hlive => setNX_kept hi hlive) j
    match r with
    | .error err => trivial
    | .ok false => trivial
    | .ok true =>
      have hwon := hr true rfl
      unfold setNX at hwon ⊢
      split_ifs at hwon ⊢
      exact ⟨htoken, _, le_add_of_nonneg_right hextra, .inl (update_self ..)⟩
  | notSet err hnow _ => exact kept_set h hnow (by trivial) (fun _ _ _ hi _ => hi) j
  | @release t since i token hnow hcall =>
    have htoken := h i
    rw [hcall] at htoken
    refine kept_set h hnow (by trivial) (fun j x hji hi hlive => ?_) j
    exact Items.deleteIf_kept hi hlive fun heq => hji (c.distinct (heq.trans htoken.1))
  | notReleased hnow _ => exact kept_set h hnow (by trivial) (fun _ _ _ hi _ => hi) j

theorem kept (h : Trace (locks c durationString) tr s) (i : ι) :
    Kept c i s.items s.now (s.calls i) := by
  refine h.invariant (I := fun _ s => ∀ i, Kept c i s.items s.now (s.calls i)) ?_
    (fun _ _ _ _ _ hst hs => kept_step hs hst) i
  rintro s ⟨-, hcalls⟩ i
  rw [hcalls, tryLock]
  split_ifs <;> trivial

/-- At every instant of every run a key has at most one holder, and the server has its token. -/
theorem single_holder (h : Trace (locks c durationString) tr s) {now : Int} (hnow : s.now ≤ now) :
    (∀ i, Holds c s now i → s.items.get now (c.key i) = some (c.token i)) ∧
    ∀ i j, Holds c s now i → Holds c s now j → c.key i = c.key j → i = j := by
  have hget : ∀ i, Holds c s now i → s.items.get now (c.key i) = some (c.token i) := by
    rintro i ⟨token, since, hi, hlt⟩
    have hkept := kept h i
    rw [hi] at hkept
    obtain ⟨rfl, x, hx, hkept⟩ := hkept
    exact Items.get_of_live (hkept.resolve_right (by omega)) (hlt.trans_le hx)
  refine ⟨hget, fun i j hi hj hkey => c.distinct (Option.some.inj ?_)⟩
  rw [← hget i hi, ← hget j hj, hkey]

def twoCalls : Calls Bool where
  key _ := ['k']
  ttl _ := 10 * second
  token b := if b then ['b'] else ['a']
  distinct b b' h := by cases b <;> cases b' <;> simp_all

/-- The first call wins the key at 0, and the second is refused at 1. -/
theorem single_holder_twoCalls : ∃ tr s, Trace (locks twoCalls toString) tr s ∧
    s.calls true = .returned (.ok false) ∧ Holds twoCalls s 1 false ∧
      s.items.get 1 ['k'] = some ['a'] := by
  have h₀ : Trace (locks twoCalls toString) [] ⟨fun _ => none, 0, fun _ => .drawing⟩ :=
    .init ⟨rfl, fun _ => rfl⟩
  have h₁ := h₀.step (.newToken (t := 0) (i := false) (.ok ['a']) le_rfl rfl (by simp [twoCalls]))
  have h₂ := h₁.step (.setNX (t := 0) (i := false) (.ok true) le_rfl rfl le_rfl (by decide)
    (by rintro b ⟨⟩; rfl))
  have h₃ := h₂.step (.newToken (t := 1) (i := true) (.ok ['b']) (by decide) rfl
    (by simp [twoCalls]))
  have h₄ := h₃.step (.setNX (t := 1) (i := true) (.ok false) le_rfl rfl le_rfl (by decide)
    (by rintro b ⟨⟩; rfl))
  refine ⟨_, _, h₄, rfl, ⟨['a'], 0, rfl, by decide⟩, ?_⟩
  exact (single_holder h₄ le_rfl).1 false ⟨['a'], 0, rfl, by decide⟩

end Machine

end Skit.Lock
