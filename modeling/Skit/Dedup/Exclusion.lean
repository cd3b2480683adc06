import Skit.Dedup.Changes

/-!
# Mutual exclusion

The running record of a call keeps the others out of the key for as long as it lives.
`fn` is bounded by a deadline that starts when the call goes on after `acquire`, the
record by an expiry that starts when `acquire` takes effect. No two calls are inside
`fn` at one instant when no deadline is later than the expiry; with a late return of
`acquire` it is, and they are.
-/
namespace Skit.Dedup
open Lib List

section Exclusion

variable {ι T : Type} [DecidableEq ι] {B : Store} {qs : Calls ι T} {tr : Trace ι T B}
  {c : Config ι Op (Ans T) B.State (Result T)} {i j : ι} {ret : ι → Int}

/-- `ret i` is when the `fn` of call `i` returns, which is no later than the deadline of
the context it is given. -/
structure Returns (ret : ι → Int) (tr : Trace ι T B) : Prop where
  exited : ∀ i t out, ⟨t, .exit, out⟩ ∈ hist i tr → t = ret i
  pending : ∀ i t, ⟨t, .enter, ()⟩ ∈ hist i tr → (∀ t out, ⟨t, .exit, out⟩ ∉ hist i tr) →
    ∀ e ∈ tr, e.act.time ≤ ret i
  inTime : ∀ i t td l d, ⟨t, .enter, ()⟩ ∈ hist i tr → ⟨td, .withTimeout l, d⟩ ∈ hist i tr →
    ret i ≤ d

/-- The call is inside `fn` at the instant `t`. -/
def Inside (ret : ι → Int) (tr : Trace ι T B) (i : ι) (t : Int) : Prop :=
  ∃ te, ⟨te, .enter, ()⟩ ∈ hist i tr ∧ te ≤ t ∧ t < ret i

/-- No deadline of `fn` is later than the expiry of the record that `acquire` set. -/
def Nested (qs : Calls ι T) (tr : Trace ι T B) : Prop :=
  ∀ i ta td key token lease l d, ⟨ta, .acquire key token lease, .ok .acquired⟩ ∈ hist i tr →
    ⟨td, .withTimeout l, d⟩ ∈ hist i tr → d ≤ ta + B.life (qs.req i).keeper.lease

/-- The entry `e` acquired the key of call `i` for it, until `x`. -/
structure Acquires (qs : Calls ι T) (i : ι) (x : Int)
    (e : Lib.Entry ι Int Op (Ans T) Empty B.State) : Prop where
  act : e.act = .proc i ⟨e.act.time, .acquire (qs.req i).key (qs.req i).token
    (qs.req i).keeper.lease, .ok .acquired⟩
  free : B.view e.pre e.act.time (qs.req i).key = none
  set : B.view e.post e.act.time (qs.req i).key = some (.running (qs.req i).token x)
  lives : e.act.time + B.life (qs.req i).keeper.lease ≤ x

section

variable (h : Run (calls B qs) tr c)
include h

variable {e : Lib.Entry ι Int Op (Ans T) Empty B.State} {r : Trace ι T B}

theorem acquires_of_act {t : Int} (he : e :: r <:+ tr)
    (ha : e.act = .proc i ⟨t, .acquire (qs.req i).key (qs.req i).token (qs.req i).keeper.lease,
      .ok .acquired⟩) : ∃ x, Acquires qs i x e := by
  have htime : e.act.time = t := by rw [ha]; rfl
  obtain ⟨x, hx, hfound, hpost⟩ := (entry_sem h he ha).acquire
  have hfree : B.view e.pre t (qs.req i).key = none := by
    unfold View.acquire at hfound
    cases hv : B.view e.pre t (qs.req i).key with
    | none => rfl
    | some rec => cases rec <;> simp [hv] at hfound
  refine ⟨x, by rw [htime]; exact ha, by rw [htime]; exact hfree, ?_, by rw [htime]; exact hx⟩
  rw [htime, hpost]
  simp [View.acquire, hfree]

theorem acquired_of_entered {te : Int}
    (hm : ⟨te, .enter, ()⟩ ∈ hist i tr) : ∃ e r x td d, e :: r <:+ tr ∧ Acquires qs i x e ∧
      e.act.time ≤ te ∧ ⟨td, .withTimeout (qs.req i).keeper.lease, d⟩ ∈ hist i tr := by
  obtain ⟨e₁, r₁, he₁, ha₁⟩ := exists_entry hm
  obtain ⟨ta, td, d, hh⟩ := admits h he₁ ha₁
  have hsuf : held (qs.req i) ta <:+ hist i r₁ := by
    rw [hh]
    exact suffix_cons _ _
  obtain ⟨e, r, he, ha, -⟩ := exists_suffix_of_hist hsuf
  have hetr : e :: r <:+ tr := he.trans ((suffix_cons _ _).trans he₁)
  obtain ⟨x, hacq⟩ := acquires_of_act h hetr ha
  refine ⟨e, r, x, td, d, hetr, hacq, ?_, ?_⟩
  · have := h.time_le he₁ (he.mem mem_cons_self)
    rwa [ha₁] at this
  · refine (hist_suffix ((suffix_cons _ _).trans he₁)).mem ?_
    rw [hh]
    exact mem_cons_self

theorem exited_of_settled {ev : Event Int Op (Ans T)} (he : e :: r <:+ tr)
    (hev : ev ∈ hist i r) (hs : ev.op.settles = true) :
    ∃ tx out, ⟨tx, .exit, out⟩ ∈ hist i r ∧ tx ≤ e.act.time := by
  obtain ⟨e₁, r₁, he₁, ha₁⟩ := exists_entry hev
  have hadm := admits h (he₁.trans ((suffix_cons _ _).trans he)) ha₁
  have hexit : ∃ tx out, ⟨tx, .exit, out⟩ ∈ hist i r₁ := by
    obtain ⟨t, o, a⟩ := ev
    cases o with
    | complete key token value ttl =>
      obtain ⟨-, -, -, _, _, _, _, tx, v, -, hh⟩ := hadm
      exact ⟨tx, _, by rw [hh]; exact mem_cons_self⟩
    | release key token =>
      obtain ⟨-, -, _, _, _, _, tx, out, -, hh⟩ := hadm
      exact ⟨tx, out, by rw [hh]; exact mem_cons_self⟩
    | _ => cases hs
  obtain ⟨tx, out, hm⟩ := hexit
  have hm := (hist_suffix ((suffix_cons _ _).trans he₁)).mem hm
  exact ⟨tx, out, hm, h.event_time_le he hm⟩

/-- While a call is inside `fn` within the life of its record, no other call acquires
its key. -/
theorem not_acquired {e₁ e₂ : Lib.Entry ι Int Op (Ans T) Empty B.State} {r₁ r₂ : Trace ι T B}
    {x y : Int} (hret : Returns ret tr) (he₁ : e₁ :: r₁ <:+ r₂)
    (he₂ : e₂ :: r₂ <:+ tr) (h₁ : Acquires qs i x e₁) (h₂ : Acquires qs j y e₂)
    (hkey : (qs.req i).key = (qs.req j).key) (hlive : e₂.act.time < x) :
    ret i ≤ e₂.act.time := by
  rcases record_kept h he₁ he₂ h₁.set hlive with hv | ⟨k, ev, z, hm, hs, hrec⟩
  · rw [hkey, h₂.free] at hv
    cases hv
  · obtain rfl : i = k := qs.unique (Record.running.inj hrec).1
    obtain ⟨tx, out, hexit, hle⟩ := exited_of_settled h he₂ hm hs
    rw [← hret.exited i tx out ((hist_suffix ((suffix_cons _ _).trans he₂)).mem hexit)]
    exact hle

end

/-- No two calls are inside `fn` for one key at one instant. -/
theorem mutual_exclusion (h : Run (calls B qs) tr c) (hret : Returns ret tr) (hnest : Nested qs tr)
    (hij : i ≠ j) (hkey : (qs.req i).key = (qs.req j).key) (t : Int) :
    ¬ (Inside ret tr i t ∧ Inside ret tr j t) := by
  rintro ⟨⟨te, hm, hte, hti⟩, te', hm', hte', htj⟩
  obtain ⟨e, r, x, td, d, he, hacq, hle, hd⟩ := acquired_of_entered h hm
  obtain ⟨e', r', x', td', d', he', hacq', hle', hd'⟩ := acquired_of_entered h hm'
  have hbound : ret i ≤ x := by
    have h₁ := hret.inTime i te td _ d hm hd
    have h₂ := hnest i _ td _ _ _ _ d (mem_hist.mpr ⟨e, he.mem mem_cons_self, hacq.act⟩) hd
    have h₃ := hacq.lives
    omega
  have hbound' : ret j ≤ x' := by
    have h₁ := hret.inTime j te' td' _ d' hm' hd'
    have h₂ := hnest j _ td' _ _ _ _ d'
      (mem_hist.mpr ⟨e', he'.mem mem_cons_self, hacq'.act⟩) hd'
    have h₃ := hacq'.lives
    omega
  rcases suffix_trichotomy he he' with heq | hs | hs
  · obtain ⟨rfl, rfl⟩ := List.cons.inj heq
    exact hij (Act.proc.inj (hacq.act.symm.trans hacq'.act)).1
  · have := not_acquired h hret hs he' hacq hacq' hkey (by omega)
    omega
  · have := not_acquired h hret hs he hacq' hacq hkey.symm (by omega)
    omega

end Exclusion

section Late

/-- A call with a lease and a TTL of 10. -/
def shortRequest (token : Char) : Request Unit where
  keeper := ⟨10, 10, by decide, by decide⟩
  key := ['k']
  token := [token]
  token_ne := singleton_ne_nil token
  deadline := none
  zero := ()
  marshal _ := .ok []
  unmarshal _ := .ok ()

def twoCalls : Calls Bool Unit where
  req i := shortRequest (if i then 'b' else 'a')
  unique i j h := by cases i <;> cases j <;> first | rfl | cases h

/-- The first call acquires the key at 0 and goes on at `resumed`; the second acquires
it at 10, when the record of the first has expired. -/
def lateScript (resumed : Int) : Script Bool Int Op (Ans Unit) Empty memory.State :=
  [(.proc false ⟨0, .acquire ['k'] ['a'] 10, .ok .acquired⟩,
      fun s => (memory.acquire s 0 0 ['k'] ['a'] 10).2),
    (.proc false ⟨resumed, .withTimeout 10, resumed + 10⟩, id),
    (.proc false ⟨resumed, .enter, ()⟩, id),
    (.proc true ⟨10, .acquire ['k'] ['b'] 10, .ok .acquired⟩,
      fun s => (memory.acquire s 10 0 ['k'] ['b'] 10).2),
    (.proc true ⟨10, .withTimeout 10, 20⟩, id),
    (.proc true ⟨10, .enter, ()⟩, id)]

def lateRun (resumed : Int) : Trace Bool Unit memory := (lateScript resumed).record memory.empty []

theorem lateRun_runs (resumed : Int) (h₀ : 0 ≤ resumed) (h₁ : resumed ≤ 10) :
    ∃ c, Run (calls memory twoCalls) (lateRun resumed) c := by
  have hfits : (lateScript resumed).Fits (calls memory twoCalls) memory.empty :=
    ⟨.replied (le_refl 0) (le_refl 0) rfl, .withTimeout, .enter,
      .replied (le_refl 0) (le_refl 0) rfl, .withTimeout, .enter, trivial⟩
  refine (Run.init rfl).extend rfl hfits ?_ (by simp)
  simp [lateScript, Act.time]
  omega

/-- When each call returns: at its deadline. -/
def lateReturn (resumed : Int) (second : Bool) : Int := if second then 20 else resumed + 10

theorem lateRun_returns {resumed : Int} (h₀ : 0 ≤ resumed) (h₁ : resumed ≤ 10) :
    Returns (lateReturn resumed) (lateRun resumed) := by
  have hexit : ∀ i t out, ⟨t, .exit, out⟩ ∉ hist i (lateRun resumed) := by
    intro i t out
    simp [mem_hist, lateRun, lateScript, Script.record]
  refine ⟨fun i t out hm => absurd hm (hexit i t out), ?_, ?_⟩
  · intro i t _ _
    simp [lateRun, lateScript, Script.record, Act.time, lateReturn]
    split_ifs <;> omega
  · intro i t td l d _ hm
    simp [mem_hist, lateRun, lateScript, Script.record, lateReturn] at hm ⊢
    rcases hm with ⟨rfl, -, -, rfl⟩ | ⟨rfl, -, -, rfl⟩ <;> simp

/-- The record of the first call expires at 10 and its deadline is 15: from 10 on both
calls are inside `fn`. -/
theorem both_inside : ∃ (qs : Calls Bool Unit) (tr : Trace Bool Unit memory)
    (c : Config Bool Op (Ans Unit) memory.State (Result Unit)) (ret : Bool → Int),
    Run (calls memory qs) tr c ∧ Returns ret tr ∧ (qs.req false).key = (qs.req true).key ∧
    ∃ t, Inside ret tr false t ∧ Inside ret tr true t := by
  obtain ⟨c, h⟩ := lateRun_runs 5 (by decide) (by decide)
  refine ⟨_, _, c, lateReturn 5, h, lateRun_returns (by decide) (by decide), rfl, 12, ?_, ?_⟩
  · exact ⟨5, by simp [mem_hist, lateRun, lateScript, Script.record], by decide, by decide⟩
  · exact ⟨10, by simp [mem_hist, lateRun, lateScript, Script.record], by decide, by decide⟩

/-- The first call goes on at once, so its deadline is the expiry of its record: when
the second enters, it is past. -/
theorem mutual_exclusion_at_once : Inside (lateReturn 0) (lateRun 0) true 12 ∧
    ¬ Inside (lateReturn 0) (lateRun 0) false 12 := by
  obtain ⟨c, h⟩ := lateRun_runs 0 (by decide) (by decide)
  have hin : Inside (lateReturn 0) (lateRun 0) true 12 :=
    ⟨10, by simp [mem_hist, lateRun, lateScript, Script.record], by decide, by decide⟩
  have hnest : Nested twoCalls (lateRun 0) := by
    intro i ta td key token lease l d hacq hd
    simp [mem_hist, lateRun, lateScript, Script.record] at hacq hd
    rcases hacq with ⟨rfl, rfl, -⟩ | ⟨rfl, rfl, -⟩
    all_goals
      simp at hd
      obtain ⟨-, -, rfl⟩ := hd
      decide
  refine ⟨hin, fun hf => ?_⟩
  exact mutual_exclusion h (lateRun_returns (by decide) (by decide)) hnest Bool.false_ne_true rfl 12
    ⟨hf, hin⟩

end Late

end Skit.Dedup
