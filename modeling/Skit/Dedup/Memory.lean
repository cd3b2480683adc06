import Skit.Dedup.Store
import Mathlib.Tactic.SplitIfs

/-!
# The memory store

The records live in a map of the process. A record expires when it is touched or when
a sweep drops it, so the map also holds records that are no longer in the view.
-/
namespace Skit.Dedup
open Option

/-- `sweepEvery` is how often `acquire` drops every expired record. -/
def sweepEvery : Int := 60 * second

/-- A running entry holds the token of its call, a done one the stored value and no
token. -/
structure Entry where
  token : Text
  value : Text
  expires : Int

/-- `swept` is none before the first sweep, for the zero time. -/
structure Memory where
  entries : Text → Option Entry
  swept : Option Int

namespace Memory

def new : Memory := ⟨fun _ => none, none⟩

variable {token : Text} (m : Memory)

def sweep (now : Int) : Memory :=
  if m.swept.any (now - · < sweepEvery) then m
  else ⟨fun key => (m.entries key).filter (now < ·.expires), some now⟩

def put (key : Text) (e : Entry) : Memory :=
  { m with entries := Function.update m.entries key (some e) }

def acquire (now : Int) (key token : Text) (lease : Int) : Found × Memory :=
  let m := m.sweep now
  match (m.entries key).filter (now < ·.expires) with
  | some e => if e.token ≠ [] then (.running, m) else (.done e.value, m)
  | none => (.acquired, m.put key ⟨token, [], now + lease⟩)

def complete (now : Int) (key token value : Text) (ttl : Int) : Bool × Memory :=
  match m.entries key with
  | none => (false, m)
  | some e =>
    if e.token ≠ token ∨ ¬ now < e.expires then (false, m)
    else (true, m.put key ⟨[], value, now + ttl⟩)

def release (key token : Text) : Memory :=
  if ((m.entries key).map (·.token)).getD [] = token then
    { m with entries := Function.update m.entries key none }
  else m

def record (e : Entry) : Record :=
  if e.token ≠ [] then .running e.token e.expires else .done e.value e.expires

def view (now : Int) : View := fun key => ((m.entries key).filter (now < ·.expires)).map record

variable {m}

theorem view_sweep (now : Int) : (m.sweep now).view now = m.view now := by
  unfold sweep
  split_ifs
  · rfl
  · funext key
    simp [view, filter_filter]

theorem view_put {now : Int} {key : Text} {e : Entry} (hlive : now < e.expires) :
    (m.put key e).view now = Function.update (m.view now) key (some (record e)) := by
  funext k
  by_cases hk : k = key
  · subst hk
    simp [view, put, hlive]
  · simp [view, put, hk]

theorem acquire_view (now : Int) (key : Text) {lease : Int} (ht : token ≠ [])
    (hl : 0 < lease) : (m.acquire now key token lease).1 =
      ((m.view now).acquire key token (now + lease)).1 ∧
    (m.acquire now key token lease).2.view now =
      ((m.view now).acquire key token (now + lease)).2 := by
  have hv := view_sweep (m := m) now
  rw [← hv]
  unfold acquire View.acquire
  cases he : ((m.sweep now).entries key).filter (now < ·.expires) with
  | none =>
    have hnone : (m.sweep now).view now key = none := by simp [view, he]
    have hlive : now < (⟨token, [], now + lease⟩ : Entry).expires := by
      show now < now + lease
      omega
    simp [hnone, he, view_put hlive, record, ht]
  | some e =>
    have hsome : (m.sweep now).view now key = some (record e) := by simp [view, he]
    by_cases htok : e.token = []
    · simp [he, hsome, htok, record]
    · simp [he, hsome, htok, record]

theorem view_some (now : Int) {key : Text} {e : Entry} (he : m.entries key = some e) :
    m.view now key = if now < e.expires then some (record e) else none := by
  simp only [view, he, filter_some, decide_eq_true_eq]
  split_ifs <;> rfl

theorem holds_view (now : Int) (key : Text) (ht : token ≠ []) :
    (m.view now).holds key token = true ↔
      ∃ e, m.entries key = some e ∧ e.token = token ∧ now < e.expires := by
  cases he : m.entries key with
  | none => simp [View.holds, view, he]
  | some e =>
    by_cases hlive : now < e.expires
    · by_cases htok : e.token = []
      · simp [View.holds, view_some now he, hlive, record, htok, ht.symm]
      · simp [View.holds, view_some now he, hlive, record, htok]
    · simp [View.holds, view_some now he, hlive]

theorem complete_view (now : Int) (key : Text) (value : Text) {ttl : Int}
    (ht : token ≠ []) (hl : 0 < ttl) : (m.complete now key token value ttl).1 =
      ((m.view now).complete key token value (now + ttl)).1 ∧
    (m.complete now key token value ttl).2.view now =
      ((m.view now).complete key token value (now + ttl)).2 := by
  have hiff := holds_view (m := m) now key ht
  unfold complete View.complete
  cases he : m.entries key with
  | none => simp_all
  | some e =>
    by_cases hh : e.token = token ∧ now < e.expires
    · have hlive : now < (⟨[], value, now + ttl⟩ : Entry).expires := by
        show now < now + ttl
        omega
      simp_all [view_put hlive, record]
    · have : e.token ≠ token ∨ ¬ now < e.expires := by tauto
      simp_all

theorem view_delete (now : Int) (key : Text) :
    (⟨Function.update m.entries key none, m.swept⟩ : Memory).view now =
      Function.update (m.view now) key none := by
  funext k
  by_cases hk : k = key
  · subst hk
    simp [view]
  · simp [view, hk]

/-- The release looks at no expiry, but an expired entry is not in the view. -/
theorem release_view (now : Int) (key : Text) (ht : token ≠ []) :
    (m.release key token).view now = (m.view now).release key token := by
  have hiff := holds_view (m := m) now key ht
  unfold release View.release
  cases he : m.entries key with
  | none => simp_all [ht.symm]
  | some e =>
    by_cases htok : e.token = token
    · by_cases hlive : now < e.expires
      · simp_all [view_delete]
      · have hnone : m.view now key = none := by simp [view_some now he, hlive]
        simp_all [view_delete]
    · simp_all

theorem view_later {now now' : Int} (h : now ≤ now') (key : Text) :
    m.view now' key = (m.view now key).filter (now' < ·.expires) := by
  cases he : m.entries key with
  | none => simp [view, he]
  | some e =>
    have hx : (record e).expires = e.expires := by
      unfold record
      split_ifs <;> rfl
    rw [view_some now he, view_some now' he]
    by_cases hlive : now' < e.expires
    · simp [filter_some, hlive, lt_of_le_of_lt h hlive, hx]
    · by_cases hold : now < e.expires <;> simp [filter_some, hlive, hold, hx]

end Memory

/-- The memory store keeps a record for the duration it is given, and never fails. -/
def memory : Store where
  State := Memory
  empty := .new
  life d := d
  late := 0
  fallible := false
  acquire m now _ key token lease :=
    let (found, m) := m.acquire now key token lease
    (.ok found, m)
  complete m now _ key token value ttl :=
    let (ok, m) := m.complete now key token value ttl
    (.ok ok, m)
  release m _ key token := (none, m.release key token)
  view := Memory.view
  late_nonneg := le_refl 0
  life_pos _ hd := hd
  view_empty _ _ := rfl
  view_later _ _ _ key h := Memory.view_later h key
  acquire_view m now extra key token lease ht hl h₀ h₁ := by
    obtain rfl : extra = 0 := le_antisymm h₁ h₀
    obtain ⟨hf, hv⟩ := Memory.acquire_view (m := m) now key ht hl
    rw [add_zero]
    exact ⟨congrArg Except.ok hf, hv⟩
  complete_view m now extra key token value ttl ht hl h₀ h₁ := by
    obtain rfl : extra = 0 := le_antisymm h₁ h₀
    obtain ⟨hf, hv⟩ := Memory.complete_view (m := m) now key value ht hl
    rw [add_zero]
    exact ⟨congrArg Except.ok hf, hv⟩
  release_view m now key token ht := Memory.release_view now key ht

end Skit.Dedup
