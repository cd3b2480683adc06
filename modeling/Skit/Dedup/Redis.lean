import Skit.Dedup.Store
import Skit.Lib.Expiring

/-!
# The Redis store

A record is a string under a prefixed key, with a mark in front that tells a running
record from a done one; the server drops it when it expires. Each operation is one
script, which runs atomically.
-/
namespace Skit.Dedup
open Lib Expiring

def redisPrefix : Text := ['d', 'e', 'd', 'u', 'p', ':']

def runningMark : Text := ['p', ':']

def doneMark : Text := ['d', ':']

/-- `strings.CutPrefix`. -/
def cutPrefix (v mark : Text) : Option Text :=
  if mark.isPrefixOf v then some (v.drop mark.length) else none

section Scripts

variable (items : Items Text Text) (now extra : Int)

def acquireScript (key arg : Text) (px : Int) : Option Text × Items Text Text :=
  match items.get now key with
  | some v => (some v, items)
  | none => (none, items.set now extra key arg px)

def completeScript (key arg value : Text) (px : Int) : Int × Items Text Text :=
  if items.get now key = some arg then (1, items.set now extra key value px) else (0, items)

def releaseScript (key arg : Text) : Int × Items Text Text := items.deleteIf now key arg

/-- The keys under the prefix hold records. -/
def Records : Prop :=
  ∀ key item, items (redisPrefix ++ key) = some item →
    runningMark <+: item.value ∨ doneMark <+: item.value

variable {items} (hr : Records items)
include hr

theorem Records.set {key value : Text} {px : Int}
    (hv : runningMark <+: value ∨ doneMark <+: value) :
    Records (items.set now extra (redisPrefix ++ key) value px) := by
  intro k item hk
  by_cases heq : k = key
  · subst heq
    simp only [Items.set, Function.update_self, Option.some.injEq] at hk
    rw [← hk]
    exact hv
  · simp only [Items.set, ne_eq, List.append_cancel_left_eq, heq, not_false_eq_true,
      Function.update_of_ne] at hk
    exact hr k item hk

theorem Records.acquireScript (key token : Text) (px : Int) :
    Records (Dedup.acquireScript items now extra (redisPrefix ++ key)
      (runningMark ++ token) px).2 := by
  unfold Dedup.acquireScript
  split
  · exact hr
  · exact hr.set now extra (.inl (List.prefix_append _ _))

theorem Records.completeScript (key token value : Text) (px : Int) :
    Records (Dedup.completeScript items now extra (redisPrefix ++ key) (runningMark ++ token)
      (doneMark ++ value) px).2 := by
  unfold Dedup.completeScript
  split_ifs
  · exact hr.set now extra (.inr (List.prefix_append _ _))
  · exact hr

theorem Records.releaseScript (key token : Text) :
    Records (Dedup.releaseScript items now (redisPrefix ++ key) (runningMark ++ token)).2 := by
  unfold Dedup.releaseScript Items.deleteIf
  split_ifs
  · intro k item hk
    by_cases heq : k = key
    · subst heq
      simp at hk
    · exact hr k item (by simpa [heq] using hk)
  · exact hr

end Scripts

/-- A server whose keys under the prefix are those of the package. -/
structure Redis where
  items : Items Text Text
  records : Records items

namespace Redis

variable {item : Item Text} (s : Redis) (now extra : Int) (key token value : Text)

/-- What the value of a key says. -/
def found (v : Text) : Except Err Found :=
  if runningMark.isPrefixOf v then .ok .running
  else match cutPrefix v doneMark with
    | some value => .ok (.done value)
    | none => .error (.text
        ("redis acquire: key " ++ (String.ofList key).quote ++ " is not a dedup record"))

def acquire (lease : Int) : Except Err Found × Redis :=
  let r := acquireScript s.items now extra (redisPrefix ++ key) (runningMark ++ token)
    (millis lease)
  (match r.1 with
    | none => .ok .acquired
    | some v => found key v,
    ⟨r.2, s.records.acquireScript now extra key token _⟩)

def complete (ttl : Int) : Bool × Redis :=
  let r := completeScript s.items now extra (redisPrefix ++ key) (runningMark ++ token)
    (doneMark ++ value) (millis ttl)
  (r.1 = 1, ⟨r.2, s.records.completeScript now extra key token value _⟩)

def release : Redis :=
  ⟨(releaseScript s.items now (redisPrefix ++ key) (runningMark ++ token)).2,
    s.records.releaseScript now key token⟩

def record (item : Item Text) : Record :=
  if runningMark.isPrefixOf item.value then .running (item.value.drop 2) item.expires
  else .done (item.value.drop 2) item.expires

def view : View := fun key => ((s.items (redisPrefix ++ key)).filter (now < ·.expires)).map record

theorem record_running (token : Text) (x : Int) :
    record ⟨runningMark ++ token, x⟩ = .running token x := by
  simp [record, runningMark]

theorem record_done (value : Text) (x : Int) : record ⟨doneMark ++ value, x⟩ = .done value x := by
  simp [record, runningMark, doneMark]

theorem record_cases (h : runningMark <+: item.value ∨ doneMark <+: item.value) :
    (∃ token, item.value = runningMark ++ token ∧ record item = .running token item.expires) ∨
    (∃ value, item.value = doneMark ++ value ∧ record item = .done value item.expires) := by
  rcases h with ⟨token, ht⟩ | ⟨value, hv⟩
  · exact .inl ⟨token, ht.symm, by rw [← record_running, ht]⟩
  · exact .inr ⟨value, hv.symm, by rw [← record_done, hv]⟩

variable {s}

theorem view_some (hi : s.items (redisPrefix ++ key) = some item) :
    s.view now key = if now < item.expires then some (record item) else none := by
  simp only [view, hi, Option.filter_some, decide_eq_true_eq]
  split_ifs <;> rfl

theorem holds_view : (s.view now).holds key token = true ↔
    s.items.get now (redisPrefix ++ key) = some (runningMark ++ token) := by
  cases hi : s.items (redisPrefix ++ key) with
  | none => simp [View.holds, view, Items.get, hi]
  | some item =>
    rw [Items.get_some hi, View.holds, view_some now key hi]
    by_cases hlive : now < item.expires
    · rcases record_cases (s.records key item hi) with ⟨token', hv, hrec⟩ | ⟨value, hv, hrec⟩
      · simp [hlive, hv, hrec]
      · simp [hlive, hv, hrec, doneMark, runningMark]
    · simp [hlive]

theorem view_congr {s s' : Redis} (h : s'.items = s.items) : s'.view now = s.view now := by
  unfold view
  rw [h]

theorem view_set {s s' : Redis} {px : Int} {v : Text} (hp : 0 < px) (he : 0 ≤ extra)
    (hs : s'.items = s.items.set now extra (redisPrefix ++ key) v px) :
    s'.view now = Function.update (s.view now) key
      (some (record ⟨v, now + px * millisecond + extra⟩)) := by
  have hlive : now < now + px * millisecond + extra := by
    unfold millisecond
    omega
  funext k
  by_cases hk : k = key
  · subst hk
    simp [view, hs, Items.set, hlive]
  · simp [view, hs, Items.set, hk]

theorem view_later {now now' : Int} (h : now ≤ now') (key : Text) :
    s.view now' key = (s.view now key).filter (now' < ·.expires) := by
  cases hi : s.items (redisPrefix ++ key) with
  | none => simp [view, hi]
  | some item =>
    have hx : (record item).expires = item.expires := by
      unfold record
      split_ifs <;> rfl
    rw [view_some now key hi, view_some now' key hi]
    by_cases hlive : now' < item.expires
    · simp [Option.filter_some, hlive, lt_of_le_of_lt h hlive, hx]
    · by_cases hold : now < item.expires <;> simp [Option.filter_some, hlive, hold, hx]

theorem millis_pos (d : Int) : 0 < millis d := lt_of_lt_of_le zero_lt_one (le_max_right _ _)

theorem acquire_view (lease : Int) (he : 0 ≤ extra) :
    (s.acquire now extra key token lease).1 = .ok ((s.view now).acquire key token
      (now + millis lease * millisecond + extra)).1 ∧
    (s.acquire now extra key token lease).2.view now = ((s.view now).acquire key token
      (now + millis lease * millisecond + extra)).2 := by
  cases hget : s.items.get now (redisPrefix ++ key) with
  | none =>
    have hnone : s.view now key = none := by
      simpa [Items.get, view] using hget
    have hset : (s.acquire now extra key token lease).2.items =
        s.items.set now extra (redisPrefix ++ key) (runningMark ++ token) (millis lease) := by
      simp [acquire, acquireScript, hget]
    rw [view_set now extra key (millis_pos lease) he hset, record_running]
    simp [acquire, acquireScript, hget, View.acquire, hnone]
  | some v =>
    have hsame : (s.acquire now extra key token lease).2.items = s.items := by
      simp [acquire, acquireScript, hget]
    have hfound : (s.acquire now extra key token lease).1 = found key v := by
      simp [acquire, acquireScript, hget]
    rw [view_congr now hsame, hfound]
    cases hi : s.items (redisPrefix ++ key) with
    | none => simp [Items.get, hi] at hget
    | some item =>
      have hlive : now < item.expires := by
        by_contra hlive
        simp [Items.get_some hi, hlive] at hget
      obtain rfl : item.value = v := by simpa [Items.get_some hi, hlive] using hget
      have hview : s.view now key = some (record item) := by simp [view_some now key hi, hlive]
      rcases record_cases (s.records key item hi) with ⟨token', hv, hrec⟩ | ⟨value, hv, hrec⟩
      · simp [View.acquire, hview, hrec, found, hv, runningMark]
      · simp [View.acquire, hview, hrec, found, hv, cutPrefix, runningMark, doneMark]

theorem complete_view (ttl : Int) (he : 0 ≤ extra) :
    (s.complete now extra key token value ttl).1 = ((s.view now).complete key token value
      (now + millis ttl * millisecond + extra)).1 ∧
    (s.complete now extra key token value ttl).2.view now = ((s.view now).complete key token value
      (now + millis ttl * millisecond + extra)).2 := by
  by_cases hget : s.items.get now (redisPrefix ++ key) = some (runningMark ++ token)
  · have hholds := (holds_view now key token).mpr hget
    have hset : (s.complete now extra key token value ttl).2.items =
        s.items.set now extra (redisPrefix ++ key) (doneMark ++ value) (millis ttl) := by
      simp [complete, completeScript, hget]
    rw [view_set now extra key (millis_pos ttl) he hset, record_done]
    simp [complete, completeScript, hget, View.complete, hholds]
  · have hholds : (s.view now).holds key token = false := by
      rw [← Bool.not_eq_true, holds_view]
      exact hget
    have hsame : (s.complete now extra key token value ttl).2.items = s.items := by
      simp [complete, completeScript, hget]
    rw [view_congr now hsame]
    simp [complete, completeScript, hget, View.complete, hholds]

theorem release_view : (s.release now key token).view now = (s.view now).release key token := by
  by_cases hget : s.items.get now (redisPrefix ++ key) = some (runningMark ++ token)
  · have hholds := (holds_view now key token).mpr hget
    funext k
    by_cases hk : k = key
    · subst hk
      simp [View.release, hholds, view, release, releaseScript, Items.deleteIf, hget]
    · simp [View.release, hholds, view, release, releaseScript, Items.deleteIf, hget, hk]
  · have hholds : (s.view now).holds key token = false := by
      rw [← Bool.not_eq_true, holds_view]
      exact hget
    have hsame : (s.release now key token).items = s.items := by
      simp [release, releaseScript, Items.deleteIf, hget]
    rw [view_congr now hsame]
    simp [View.release, hholds]

end Redis

/-- The Redis store keeps a record for whole milliseconds, and a call of it may fail. -/
def redis : Store where
  State := Redis
  empty := ⟨fun _ => none, fun _ _ h => by cases h⟩
  life d := millis d * millisecond
  late := millisecond
  fallible := true
  acquire s now extra key token lease := s.acquire now extra key token lease
  complete s now extra key token value ttl :=
    let (ok, s) := s.complete now extra key token value ttl
    (.ok ok, s)
  release s now key token := (none, s.release now key token)
  view := Redis.view
  late_nonneg := by decide
  life_pos d _ := mul_pos (Redis.millis_pos d) (by decide)
  view_empty _ _ := rfl
  view_later _ _ _ key h := Redis.view_later h key
  acquire_view s now extra key token lease _ _ he _ :=
    Redis.acquire_view now extra key token lease he
  complete_view s now extra key token value ttl _ _ he _ := by
    obtain ⟨hf, hv⟩ := Redis.complete_view (s := s) now extra key token value ttl he
    exact ⟨congrArg Except.ok hf, hv⟩
  release_view s now key token _ := Redis.release_view now key token

end Skit.Dedup
