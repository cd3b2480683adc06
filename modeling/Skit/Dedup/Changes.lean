import Skit.Dedup.Keeper

/-!
# What the calls change

An entry of a run changes the view of the store in one of three ways, all at the key of
its call: it sets the running record of its token at a free key, replaces that record by
the stored success, or removes it. So a record stays in view until it expires, unless it
is running and its own call settles it.
-/
namespace Skit.Dedup
open Lib

section Changes

variable {T : Type} {B : Store} {q : Request T} {v : View} {t : Int} {s s' : B.State}
  {h : History T}

/-- How an operation of the call `q` at `t` changes the view at `t`. -/
inductive Change (B : Store) (q : Request T) (t : Int) : Op → View → View → Prop
  | same {o : Op} {v : View} : Change B q t o v v
  | acquired {v : View} {x : Int} : v q.key = none → t + B.life q.keeper.lease ≤ x →
      Change B q t (.acquire q.key q.token q.keeper.lease) v
        (Function.update v q.key (some (.running q.token x)))
  | completed {v : View} {value : Text} {x : Int} : v.holds q.key q.token = true →
      t + B.life q.keeper.ttl ≤ x →
      Change B q t (.complete q.key q.token value q.keeper.ttl) v
        (Function.update v q.key (some (.done value x)))
  | released {v : View} : v.holds q.key q.token = true →
      Change B q t (.release q.key q.token) v (Function.update v q.key none)

theorem View.acquire_change {t x : Int} (hx : t + B.life q.keeper.lease ≤ x) :
    Change B q t (.acquire q.key q.token q.keeper.lease) v (v.acquire q.key q.token x).2 := by
  unfold View.acquire
  cases hv : v q.key with
  | none => exact .acquired hv hx
  | some r => cases r <;> exact .same

theorem View.complete_change {t x : Int} {value : Text} (hx : t + B.life q.keeper.ttl ≤ x) :
    Change B q t (.complete q.key q.token value q.keeper.ttl) v
      (v.complete q.key q.token value x).2 := by
  unfold View.complete
  split_ifs with hh
  · exact .completed hh hx
  · exact .same

theorem View.release_change :
    Change B q t (.release q.key q.token) v (v.release q.key q.token) := by
  unfold View.release
  split_ifs with hh
  · exact .released hh
  · exact .same

theorem exec_change {t extra : Int} {o : Op} {a : Ans T o}
    (ha : Admits q h o) (h₀ : 0 ≤ extra) (h₁ : extra ≤ B.late)
    (hx : B.exec s t extra o = some (a, s')) : Change B q t o (B.view s t) (B.view s' t) := by
  cases o with
  | acquire key token lease =>
    obtain ⟨rfl, rfl, rfl, -⟩ := ha
    have hs' : (B.acquire s t extra q.key q.token q.keeper.lease).2 = s' :=
      congrArg Prod.snd (Option.some.inj hx)
    rw [← hs', (B.acquire_view s t extra _ _ _ q.token_ne q.keeper.lease_pos h₀ h₁).2]
    exact View.acquire_change (by omega)
  | complete key token value ttl =>
    obtain ⟨rfl, rfl, rfl, -⟩ := ha
    have hs' : (B.complete s t extra q.key q.token value q.keeper.ttl).2 = s' :=
      congrArg Prod.snd (Option.some.inj hx)
    rw [← hs', (B.complete_view s t extra _ _ _ _ q.token_ne q.keeper.ttl_pos h₀ h₁).2]
    exact View.complete_change (by omega)
  | release key token =>
    obtain ⟨rfl, rfl, -⟩ := ha
    have hs' : (B.release s t q.key q.token).2 = s' := congrArg Prod.snd (Option.some.inj hx)
    rw [← hs', B.release_view s t _ _ q.token_ne]
    exact View.release_change
  | withTimeout d => cases hx
  | enter => cases hx
  | exit => cases hx

theorem Sem.change {ev : Event Int Op (Ans T)} (ha : Admits q h ev.op) (hs : Sem B q s ev s') :
    Change B q ev.time ev.op (B.view s ev.time) (B.view s' ev.time) := by
  cases hs with
  | replied h₀ h₁ hx => exact exec_change ha h₀ h₁ hx
  | lost _ h₀ h₁ hx _ => exact exec_change ha h₀ h₁ hx
  | failed _ _ => exact .same
  | withTimeout => exact .same
  | enter => exact .same
  | exit => exact .same

theorem Sem.acquire {found : Found}
    (hs : Sem B q s ⟨t, .acquire q.key q.token q.keeper.lease, .ok found⟩ s') :
    ∃ x, t + B.life q.keeper.lease ≤ x ∧
      found = ((B.view s t).acquire q.key q.token x).1 ∧
      B.view s' t = ((B.view s t).acquire q.key q.token x).2 := by
  cases hs with
  | replied h₀ h₁ hx =>
    rename_i extra
    obtain ⟨hf, hv⟩ := B.acquire_view s t extra q.key _ _ q.token_ne q.keeper.lease_pos h₀ h₁
    have hpair : B.acquire s t extra q.key q.token q.keeper.lease = (.ok found, s') :=
      Option.some.inj hx
    rw [hpair] at hf hv
    exact ⟨_, by omega, Except.ok.inj hf, hv⟩
  | lost _ _ _ _ he => cases he
  | failed _ he => cases he

theorem Sem.acquire_error {err : Err}
    (hs : Sem B q s ⟨t, .acquire q.key q.token q.keeper.lease, .error err⟩ s') :
    B.fallible = true := by
  cases hs with
  | replied h₀ h₁ hx =>
    rename_i extra
    obtain ⟨hf, -⟩ := B.acquire_view s t extra q.key _ _ q.token_ne q.keeper.lease_pos h₀ h₁
    have hpair : B.acquire s t extra q.key q.token q.keeper.lease = (.error err, s') :=
      Option.some.inj hx
    rw [hpair] at hf
    cases hf
  | lost hb _ _ _ _ => exact hb
  | failed hb _ => exact hb

/-- The operations that end a running record. -/
def Op.settles : Op → Bool
  | .complete _ _ _ _ => true
  | .release _ _ => true
  | _ => false

variable {o : Op} {v' : View} {key : Text} (hc : Change B q t o v v')
include hc

theorem Change.other (hk : key ≠ q.key) : v' key = v key := by
  cases hc <;> simp [hk]

/-- An operation that settles changes the running record of its own token only. -/
theorem Change.settle_own (hs : o.settles = true) :
    v' key = v key ∨ key = q.key ∧ ∃ x, v key = some (.running q.token x) := by
  by_cases hk : key = q.key
  · subst hk
    cases hc with
    | same => exact .inl rfl
    | acquired _ _ => cases hs
    | completed hh _ => exact .inr ⟨rfl, (v.holds_iff _ _).mp hh⟩
    | released hh => exact .inr ⟨rfl, (v.holds_iff _ _).mp hh⟩
  · exact .inl (hc.other hk)

/-- A record in view stays, unless it is the running record of the call that settles it. -/
theorem Change.keeps {r : Record} (hv : v key = some r) :
    v' key = some r ∨ o.settles = true ∧ ∃ x, r = .running q.token x := by
  cases hs : o.settles with
  | true =>
    rcases hc.settle_own hs with hsame | ⟨-, x, hx⟩
    · exact .inl (hsame.trans hv)
    · exact .inr ⟨rfl, x, Option.some.inj (hv.symm.trans hx)⟩
  | false =>
    left
    by_cases hk : key = q.key
    · subst hk
      cases hc with
      | same => exact hv
      | acquired hnone _ =>
        rw [hnone] at hv
        cases hv
      | completed _ _ => cases hs
      | released _ => cases hs
    · exact (hc.other hk).trans hv

theorem Change.stored {value : Text} {x : Int}
    (hv : v' key = some (.done value x)) (hne : v key ≠ some (.done value x)) :
    o = .complete q.key q.token value q.keeper.ttl ∧ t + B.life q.keeper.ttl ≤ x := by
  by_cases hk : key = q.key
  · subst hk
    cases hc with
    | same => exact absurd hv hne
    | acquired _ _ => simp at hv
    | completed _ hx =>
      simp only [Function.update_self, Option.some.injEq, Record.done.injEq] at hv
      obtain ⟨rfl, rfl⟩ := hv
      exact ⟨rfl, hx⟩
    | released _ => simp at hv
  · exact absurd ((hc.other hk).symm.trans hv) hne

end Changes

section Runs

variable {ι T : Type} [DecidableEq ι] {B : Store} {qs : Calls ι T}

abbrev Trace (ι T : Type) (B : Store) := List (Lib.Entry ι Int Op (Ans T) Empty B.State)

variable {tr r r' : Trace ι T B} {c : Config ι Op (Ans T) B.State (Result T)}
  {e e' : Lib.Entry ι Int Op (Ans T) Empty B.State} {i : ι} {ev : Event Int Op (Ans T)}

section

variable (h : Run (calls B qs) tr c)
include h

theorem admits (he : e :: r <:+ tr) (ha : e.act = .proc i ev) :
    Admits (qs.req i) (hist i r) ev.op :=
  h.admitted (J := fun i => Admits (qs.req i)) (Q := fun i => Returned (qs.req i))
    (fun _ => wp_runDo _) he ha

theorem entry_sem (he : e :: r <:+ tr) (ha : e.act = .proc i ev) :
    Sem B (qs.req i) e.pre ev e.post := by
  obtain ⟨c₀, c₁, -, hst⟩ := h.at_entry he
  cases hst with
  | proc _ hs =>
    cases ha
    exact hs
  | env hx => cases hx

theorem entry_proc (he : e :: r <:+ tr) : ∃ i ev, e.act = .proc i ev := by
  obtain ⟨c₀, c₁, -, hst⟩ := h.at_entry he
  cases hst with
  | proc _ _ => exact ⟨_, _, rfl⟩
  | env hx => cases hx

theorem entry_change (he : e :: r <:+ tr) (ha : e.act = .proc i ev) :
    Change B (qs.req i) ev.time ev.op (B.view e.pre ev.time) (B.view e.post ev.time) :=
  (entry_sem h he ha).change (admits h he ha)

end

theorem view_kept {s : B.State} {t now : Int} {key : Text} {rec : Record}
    (hv : B.view s t key = some rec) (ht : t ≤ now) (hx : now < rec.expires) :
    B.view s now key = some rec := by
  rw [B.view_later s t now key ht, hv]
  simp [Option.filter_some, hx]

/-- A record stays in view until it expires, unless its call has settled it. -/
theorem record_kept {key : Text} {rec : Record} (h : Run (calls B qs) tr c)
    (he : e :: r <:+ r') (he' : e' :: r' <:+ tr) (hv : B.view e.post e.act.time key = some rec)
    (hx : e'.act.time < rec.expires) : B.view e'.pre e'.act.time key = some rec ∨
      ∃ j ev x, ev ∈ hist j r' ∧ ev.op.settles = true ∧ rec = .running (qs.req j).token x := by
  obtain ⟨c₀, c₁, h₀, hst⟩ := h.at_entry he'
  let P : Trace ι T B → B.State → Prop := fun l s =>
    (∀ now, (∀ b ∈ l, b.act.time ≤ now) → now < rec.expires → B.view s now key = some rec) ∨
      ∃ j ev x, ev ∈ hist j l ∧ ev.op.settles = true ∧ rec = .running (qs.req j).token x
  have hbase : P (e :: r) e.post :=
    .inl fun now hnow hlive => view_kept hv (hnow e List.mem_cons_self) hlive
  have hstep : ∀ b l, b :: l <:+ r' → e :: r <:+ l → P l b.pre → P (b :: l) b.post := by
    intro b l hb _ hP
    have hbtr : b :: l <:+ tr := hb.trans ((List.suffix_cons _ _).trans he')
    obtain ⟨j, ev, ha⟩ := entry_proc h hbtr
    rcases hP with hP | ⟨j', ev', x, hmem, hs, hrec⟩
    · by_cases hlive : b.act.time < rec.expires
      · have hpre := hP b.act.time (fun b' hb' => h.time_le hbtr hb') hlive
        have hchange := entry_change h hbtr ha
        have htime : b.act.time = ev.time := by rw [ha]; rfl
        rw [htime] at hpre
        rcases hchange.keeps hpre with hpost | ⟨hs, x, hrec⟩
        · refine .inl fun now hnow hlt => ?_
          have := hnow b List.mem_cons_self
          exact view_kept hpost (by omega) hlt
        · exact .inr ⟨j, ev, x, mem_hist.mpr ⟨b, List.mem_cons_self, ha⟩, hs, hrec⟩
      · refine .inl fun now hnow hlt => absurd ?_ hlive
        exact lt_of_le_of_lt (hnow b List.mem_cons_self) hlt
    · exact .inr ⟨j', ev', x, (hist_suffix (List.suffix_cons _ _)).mem hmem, hs, hrec⟩
  have hlast := h₀.since (P := P) he hbase hstep
  rw [hst.pre_eq]
  exact hlast.imp (fun hl => hl _ (fun b hb => h.time_le he' hb) hx) id

end Runs

end Skit.Dedup
