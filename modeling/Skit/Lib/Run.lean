import Skit.Lib.Prog
import Skit.Lib.Suffix
import Mathlib.Order.Defs.PartialOrder
import Mathlib.Logic.Function.Basic
import Mathlib.Data.List.Infix
import Mathlib.Tactic.Push
import Mathlib.Tactic.ByContra

/-!
# Interleaved runs of programs over a shared store

A system has one program for every process and a store they share. One entry of
a run is one call of one process, or one move of the environment; each is atomic
on the store, and the processes are interleaved without restriction. A process
that takes no further step has crashed, so nothing more is said about crashes.

The run is recorded latest entry first, with the store before and after every
entry. `Run.admitted` is the rule the developments below use: what `wp` shows of
the program of one process holds of its calls in every interleaving.
-/
namespace Skit.Lib
open List

/-- An entry is made by a process or by the environment. -/
inductive Act (ι τ O : Type) (A : O → Type) (ε : Type)
  | proc (i : ι) (e : Event τ O A)
  | env (t : τ) (x : ε)

def Act.time {ι τ O : Type} {A : O → Type} {ε : Type} : Act ι τ O A ε → τ
  | .proc _ e => e.time
  | .env t _ => t

structure Entry (ι τ O : Type) (A : O → Type) (ε σ : Type) where
  act : Act ι τ O A ε
  pre : σ
  post : σ

/-- The processes by their programs, the initial stores, and what a call of a
process or a move of the environment may do to the store. -/
structure System (ι τ O : Type) (A : O → Type) (ε σ ρ : Type) where
  prog : ι → Prog O A ρ
  init : σ → Prop
  sem : ι → σ → Event τ O A → σ → Prop
  env : σ → τ → ε → σ → Prop

structure Config (ι O : Type) (A : O → Type) (σ ρ : Type) where
  store : σ
  procs : ι → Prog O A ρ

variable {ι τ O : Type} {A : O → Type} {ε σ ρ : Type} [DecidableEq ι] {S : System ι τ O A ε σ ρ}
  {c c' : Config ι O A σ ρ} {e : Entry ι τ O A ε σ}

inductive Step (S : System ι τ O A ε σ ρ) (c : Config ι O A σ ρ) :
    Entry ι τ O A ε σ → Config ι O A σ ρ → Prop
  | proc {i : ι} {o : O} {k : A o → Prog O A ρ} {t : τ} {a : A o} {s : σ} :
      c.procs i = .call o k → S.sem i c.store ⟨t, o, a⟩ s →
      Step S c ⟨.proc i ⟨t, o, a⟩, c.store, s⟩ ⟨s, Function.update c.procs i (k a)⟩
  | env {t : τ} {x : ε} {s : σ} : S.env c.store t x s →
      Step S c ⟨.env t x, c.store, s⟩ ⟨s, c.procs⟩

theorem Step.pre_eq (h : Step S c e c') : e.pre = c.store := by
  cases h <;> rfl

theorem Step.post_eq (h : Step S c e c') : c'.store = e.post := by
  cases h <;> rfl

/-- Runs from an initial store, their entries latest first and in time order. -/
inductive Run [LE τ] (S : System ι τ O A ε σ ρ) :
    List (Entry ι τ O A ε σ) → Config ι O A σ ρ → Prop
  | init {s : σ} : S.init s → Run S [] ⟨s, S.prog⟩
  | step {tr : List (Entry ι τ O A ε σ)} {c c' : Config ι O A σ ρ} {e : Entry ι τ O A ε σ} :
      Run S tr c → (∀ e' ∈ tr, e'.act.time ≤ e.act.time) → Step S c e c' → Run S (e :: tr) c'

/-- The event an entry adds to the history of process `i`. -/
def Entry.eventOf (i : ι) (e : Entry ι τ O A ε σ) : Option (Event τ O A) :=
  match e.act with
  | .proc j ev => if j = i then some ev else none
  | .env _ _ => none

/-- What process `i` did in a run. -/
def hist (i : ι) (tr : List (Entry ι τ O A ε σ)) : List (Event τ O A) :=
  tr.filterMap (Entry.eventOf i)

section Histories

variable {i : ι} {tr : List (Entry ι τ O A ε σ)} {ev : Event τ O A}

@[simp] theorem hist_nil : hist i ([] : List (Entry ι τ O A ε σ)) = [] := rfl

theorem hist_cons_self (h : e.act = .proc i ev) : hist i (e :: tr) = ev :: hist i tr := by
  simp [hist, Entry.eventOf, h]

theorem hist_cons_other {j : ι} (h : e.act = .proc j ev) (hj : j ≠ i) :
    hist i (e :: tr) = hist i tr := by
  simp [hist, Entry.eventOf, h, hj]

theorem hist_cons_env {t : τ} {x : ε} (h : e.act = .env t x) : hist i (e :: tr) = hist i tr := by
  simp [hist, Entry.eventOf, h]

theorem mem_hist : ev ∈ hist i tr ↔ ∃ e ∈ tr, e.act = .proc i ev := by
  simp only [hist, mem_filterMap, Entry.eventOf]
  refine exists_congr fun e => and_congr_right fun _ => ?_
  cases he : e.act with
  | env t x => simp
  | proc j ev' => by_cases hj : j = i <;> simp [hj]

/-- An event of a process stands in the run, after the entries before it. -/
theorem exists_entry (hm : ev ∈ hist i tr) : ∃ e r, e :: r <:+ tr ∧ e.act = .proc i ev := by
  obtain ⟨e, he, ha⟩ := mem_hist.mp hm
  obtain ⟨l, r, rfl⟩ := append_of_mem he
  exact ⟨e, r, ⟨l, rfl⟩, ha⟩

theorem hist_append (tr tr' : List (Entry ι τ O A ε σ)) :
    hist i (tr ++ tr') = hist i tr ++ hist i tr' := by
  simp [hist]

theorem hist_suffix {tr' : List (Entry ι τ O A ε σ)} (h : tr' <:+ tr) :
    hist i tr' <:+ hist i tr := by
  obtain ⟨l, rfl⟩ := h
  exact ⟨hist i l, (hist_append l tr').symm⟩

/-- A split of the history of a process is a split of the run. -/
theorem exists_suffix_of_hist {h : List (Event τ O A)} (hs : ev :: h <:+ hist i tr) :
    ∃ e r, e :: r <:+ tr ∧ e.act = .proc i ev ∧ hist i r = h := by
  induction tr with
  | nil => simp at hs
  | cons e tr ih =>
    by_cases hev : ∃ ev', e.act = .proc i ev'
    · obtain ⟨ev', he⟩ := hev
      rw [hist_cons_self he, suffix_cons_iff] at hs
      rcases hs with hs | hs
      · obtain ⟨rfl, rfl⟩ := List.cons.inj hs
        exact ⟨e, tr, suffix_refl _, he, rfl⟩
      · obtain ⟨e', r, hr, ha, hh⟩ := ih hs
        exact ⟨e', r, hr.trans (suffix_cons e tr), ha, hh⟩
    · have hskip : hist i (e :: tr) = hist i tr := by
        cases he : e.act with
        | env t x => exact hist_cons_env he
        | proc j ev' => exact hist_cons_other he fun hj => hev ⟨ev', hj ▸ he⟩
      obtain ⟨e', r, hr, ha, hh⟩ := ih (hskip ▸ hs)
      exact ⟨e', r, hr.trans (suffix_cons e tr), ha, hh⟩

end Histories

namespace Run

variable [LE τ] {tr r : List (Entry ι τ O A ε σ)} {e' : Entry ι τ O A ε σ} {ev : Event τ O A}
  {i : ι} {Q : ι → ρ → List (Event τ O A) → Prop} {J : ι → List (Event τ O A) → O → Prop}

/-- Every beginning of a run is a run. -/
theorem of_suffix (h : Run S tr c) (hr : r <:+ tr) : ∃ c', Run S r c' := by
  induction h with
  | init hs => exact ⟨_, by rw [suffix_nil.mp hr]; exact .init hs⟩
  | @step tr c c' e h ht hst ih =>
    rcases suffix_cons_iff.mp hr with rfl | hr
    · exact ⟨c', .step h ht hst⟩
    · exact ih hr

/-- The configuration in which an entry of a run was made. -/
theorem at_entry (h : Run S tr c) (he : e :: r <:+ tr) :
    ∃ c₀ c₁, Run S r c₀ ∧ Step S c₀ e c₁ := by
  obtain ⟨c₁, h₁⟩ := h.of_suffix he
  cases h₁ with
  | step h₀ _ hst => exact ⟨_, _, h₀, hst⟩

theorem time_le (h : Run S tr c) (he : e :: r <:+ tr) (hm : e' ∈ r) : e'.act.time ≤ e.act.time := by
  obtain ⟨c₁, h₁⟩ := h.of_suffix he
  cases h₁ with
  | step _ ht _ => exact ht e' hm

/-- The events of the processes are in time order with the entries. -/
theorem event_time_le (h : Run S tr c) (he : e :: r <:+ tr)
    (hm : ev ∈ hist i r) : ev.time ≤ e.act.time := by
  obtain ⟨e', he', ha⟩ := mem_hist.mp hm
  have hle := h.time_le he he'
  rwa [ha] at hle

/-- An assertion kept by every step, given what is known of the run so far,
holds after every run. -/
theorem invariant (I : List (Entry ι τ O A ε σ) → σ → Prop) (h0 : ∀ s, S.init s → I [] s)
    (hs : ∀ tr c e c', Run S tr c → Run S (e :: tr) c' → Step S c e c' → I tr c.store →
      I (e :: tr) e.post)
    (h : Run S tr c) : I tr c.store := by
  induction h with
  | init hi => exact h0 _ hi
  | @step tr c c' e h ht hst ih =>
    rw [hst.post_eq]
    exact hs tr c e c' h (.step h ht hst) hst ih

/-- In every interleaving a process is somewhere inside its own program. -/
theorem exec (h : Run S tr c) (i : ι) : Exec (S.prog i) (hist i tr) (c.procs i) := by
  induction h with
  | init _ => exact .start
  | @step tr c c' e h ht hst ih =>
    cases hst with
    | env hx => rw [hist_cons_env rfl]; exact ih
    | @proc j o k t a s hp hx =>
      by_cases hj : j = i
      · subst hj
        rw [hist_cons_self rfl]
        rw [hp] at ih
        simpa using Exec.step t a ih
      · rw [hist_cons_other rfl hj]
        simpa [Function.update_of_ne (Ne.symm hj)] using ih

/-- What is left of a process is told by its own history. -/
theorem procs_eq [DecidableEq O] {q : Prog O A ρ} (h : Run S tr c)
    (hp : play (S.prog i) (hist i tr).reverse = some q) : c.procs i = q := by
  have hq := Exec.start.of_play (hist i tr).reverse hp
  rw [reverse_reverse, append_nil] at hq
  exact (h.exec i).unique hq

theorem wp (hw : ∀ i, Lib.wp (J i) (Q i) (S.prog i) []) (h : Run S tr c) (i : ι) :
    Lib.wp (J i) (Q i) (c.procs i) (hist i tr) :=
  (h.exec i).wp (hw i)

/-- Every call in an interleaved run is made at a history its program admits. -/
theorem admitted (hw : ∀ i, Lib.wp (J i) (Q i) (S.prog i) []) (h : Run S tr c) (he : e :: r <:+ tr)
    (ha : e.act = .proc i ev) : J i (hist i r) ev.op := by
  obtain ⟨c₀, c₁, h₀, hst⟩ := h.at_entry he
  have hp := h₀.wp hw i
  cases hst with
  | env _ => simp at ha
  | proc hc _ =>
    obtain ⟨rfl, rfl⟩ := Act.proc.inj ha
    rw [hc] at hp
    exact hp.1

/-- What an entry established holds from then on if every later entry keeps it. -/
theorem since {P : List (Entry ι τ O A ε σ) → σ → Prop} (h : Run S tr c) (he : e :: r <:+ tr)
    (hP : P (e :: r) e.post)
    (hs : ∀ e' r', e' :: r' <:+ tr → e :: r <:+ r' → P r' e'.pre → P (e' :: r') e'.post) :
    P tr c.store := by
  induction h with
  | init _ => exact absurd (suffix_nil.mp he) (by simp)
  | @step tr c c' b h ht hst ih =>
    rw [hst.post_eq]
    rcases suffix_cons_iff.mp he with heq | he
    · exact heq ▸ (List.cons.inj heq).1 ▸ hP
    · refine hs b tr (suffix_refl _) he ?_
      rw [hst.pre_eq]
      exact ih he fun e' r' he' => hs e' r' (he'.trans (suffix_cons _ _))

/-- Between an entry that established `P` and a later entry made without it, an
entry broke it. -/
theorem exists_break {P : σ → Prop} {r' : List (Entry ι τ O A ε σ)}
    (h : Run S tr c) (he : e :: r <:+ tr) (he' : e' :: r' <:+ r) (hP : P e'.post) (hn : ¬ P e.pre) :
    ∃ b l, b :: l <:+ r ∧ e' :: r' <:+ l ∧ P b.pre ∧ ¬ P b.post := by
  obtain ⟨c₀, c₁, h₀, hst⟩ := h.at_entry he
  rw [hst.pre_eq] at hn
  by_contra hno
  push Not at hno
  exact hn (h₀.since (P := fun _ s => P s) he' hP fun b l hb hl hpre => hno b l hb hl hpre)

end Run

section Scripts

/-- What a system allows an action to do to the store. -/
def System.Allows (S : System ι τ O A ε σ ρ) (s : σ) : Act ι τ O A ε → σ → Prop
  | .proc i ev, s' => S.sem i s ev s'
  | .env t x, s' => S.env s t x s'

/-- A script is a list of actions, earliest first, each with its effect on the store. -/
abbrev Script (ι τ O : Type) (A : O → Type) (ε σ : Type) := List (Act ι τ O A ε × (σ → σ))

/-- The entries of a script played from `s` after the entries `tr`, latest first. -/
def Script.record (s : σ) (tr : List (Entry ι τ O A ε σ)) :
    Script ι τ O A ε σ → List (Entry ι τ O A ε σ)
  | [] => tr
  | (a, f) :: rest => Script.record (f s) (⟨a, s, f s⟩ :: tr) rest

variable {tr : List (Entry ι τ O A ε σ)} {script : Script ι τ O A ε σ}

omit [DecidableEq ι] in
/-- A script records its own actions. -/
theorem Script.act_mem_record {s : σ} {e : Entry ι τ O A ε σ} (he : e ∈ Script.record s tr script) :
    e ∈ tr ∨ e.act ∈ script.map Prod.fst := by
  induction script generalizing s tr with
  | nil => exact .inl he
  | cons m rest ih =>
    rcases ih he with hm | hm
    · rcases mem_cons.mp hm with rfl | hm
      · exact .inr mem_cons_self
      · exact .inl hm
    · exact .inr (mem_cons_of_mem _ hm)

def Script.Fits (S : System ι τ O A ε σ ρ) (s : σ) : Script ι τ O A ε σ → Prop
  | [] => True
  | (a, f) :: rest => S.Allows s a (f s) ∧ Script.Fits S (f s) rest

/-- The processes after the actions of a script; `none` when they are not theirs. -/
def Script.playAll [DecidableEq O] (procs : ι → Prog O A ρ) :
    Script ι τ O A ε σ → Option (ι → Prog O A ρ)
  | [] => some procs
  | (.env _ _, _) :: rest => Script.playAll procs rest
  | (.proc i ev, _) :: rest =>
    (play (procs i) [ev]).bind fun q => Script.playAll (Function.update procs i q) rest

variable [LE τ] [DecidableEq O]

/-- A script that fits a system extends its runs. -/
theorem Run.extend
    {c : Config ι O A σ ρ} (h : Run S tr c) (hp : (script.playAll c.procs).isSome = true)
    (hf : script.Fits S c.store) (ht : (script.map (·.1.time)).Pairwise (· ≤ ·))
    (hle : ∀ e ∈ tr, ∀ a ∈ script, e.act.time ≤ a.1.time) :
    ∃ c', Run S (script.record c.store tr) c' := by
  induction script generalizing tr c with
  | nil => exact ⟨c, h⟩
  | cons m rest ih =>
    obtain ⟨a, f⟩ := m
    have hstep : ∃ procs, Step S c ⟨a, c.store, f c.store⟩ ⟨f c.store, procs⟩ ∧
        (Script.playAll procs rest).isSome = true := by
      cases a with
      | env t x => exact ⟨c.procs, .env hf.1, hp⟩
      | proc i ev =>
        obtain ⟨t, o, ans⟩ := ev
        cases hc : c.procs i with
        | ret a => simp [Script.playAll, hc, play] at hp
        | call o' k =>
          by_cases ho : o = o'
          · subst ho
            refine ⟨_, .proc hc hf.1, ?_⟩
            simpa [Script.playAll, hc, play] using hp
          · simp [Script.playAll, hc, play, ho] at hp
    obtain ⟨procs, hst, hp'⟩ := hstep
    rw [map_cons, pairwise_cons] at ht
    have hrun := h.step (fun e he => hle e he _ mem_cons_self) hst
    refine ih hrun hp' hf.2 ht.2 ?_
    intro e he m hm
    rcases mem_cons.mp he with rfl | he
    · exact ht.1 _ (mem_map_of_mem hm)
    · exact hle e he m (mem_cons_of_mem _ hm)

end Scripts

end Skit.Lib
