import Skit.Settings.ReadBack
import Skit.Lib.Trace
import Mathlib.Logic.Function.Basic

/-!
# Saves and polls of one Settings value

Any number of `Save` calls run next to the polls of `Start`. A poll reads the database and then,
as a separate step, publishes what it read; the poll of a `Save` does the same. The value that
`Current` returns is the one published last, so a read that is older than a write can be
published after it.
-/
namespace Skit.Settings
open List Function Option

open Lib

/-- How a value is written to the table and how a read makes a value of what is stored. -/
structure Codec (T Doc : Type) where
  encode : T → Except Err Doc
  decode : Option Doc → Except Err T

variable {ι κ T Doc : Type} [DecidableEq ι] [DecidableEq κ]

/-- The value is what a read makes of the document of `v`. -/
def Codec.Decoded (c : Codec T Doc) (v x : T) : Prop :=
  ∃ doc, c.encode v = .ok doc ∧ c.decode (some doc) = .ok x

inductive Phase (T : Type)
  | idle
  | began (v : T)
  | written (v : T)
  | published (v : T)
  | returned (v : T)
  | failed

/-- `reads` has what the polls of the saves and of `Start` have read and not yet published. -/
structure State (ι κ T Doc : Type) where
  db : Option Doc
  current : T
  saves : ι → Phase T
  reads : ι ⊕ κ → Option T

inductive Label (ι κ T : Type)
  | start (i : ι) (v : T)
  | fail (i : ι)
  | write (i : ι)
  | fetch (p : ι ⊕ κ)
  | publish (p : ι ⊕ κ)
  | ret (i : ι)
  deriving DecidableEq

def State.saving (s : State ι κ T Doc) (i : ι) (phase : Phase T) : State ι κ T Doc :=
  { s with saves := Function.update s.saves i phase }

def State.reading (s : State ι κ T Doc) (p : ι ⊕ κ) (x : Option T) : State ι κ T Doc :=
  { s with reads := Function.update s.reads p x }

/-- A `Save` fails when it cannot encode its value or when its statement fails; a statement whose
answer is lost has been executed. -/
inductive Step (c : Codec T Doc) : State ι κ T Doc → Label ι κ T → State ι κ T Doc → Prop
  | start {s : State ι κ T Doc} {i : ι} {v : T} : s.saves i = .idle →
      Step c s (.start i v) (s.saving i (.began v))
  | fail {s : State ι κ T Doc} {i : ι} {v : T} : s.saves i = .began v →
      Step c s (.fail i) (s.saving i .failed)
  | write {s : State ι κ T Doc} {i : ι} {v : T} {doc : Doc} : s.saves i = .began v →
      c.encode v = .ok doc → Step c s (.write i) { s.saving i (.written v) with db := some doc }
  | lost {s : State ι κ T Doc} {i : ι} {v : T} : s.saves i = .written v →
      s.reads (.inl i) = none → Step c s (.fail i) (s.saving i .failed)
  | fetch {s : State ι κ T Doc} {i : ι} {v x : T} : s.saves i = .written v →
      s.reads (.inl i) = none → c.decode s.db = .ok x →
      Step c s (.fetch (.inl i)) (s.reading (.inl i) (some x))
  | publish {s : State ι κ T Doc} {i : ι} {v x : T} : s.saves i = .written v →
      s.reads (.inl i) = some x →
      Step c s (.publish (.inl i))
        { (s.saving i (.published v)).reading (.inl i) none with current := x }
  | ret {s : State ι κ T Doc} {i : ι} {v : T} : s.saves i = .published v →
      Step c s (.ret i) (s.saving i (.returned v))
  | pollFetch {s : State ι κ T Doc} {k : κ} {x : T} : s.reads (.inr k) = none →
      c.decode s.db = .ok x → Step c s (.fetch (.inr k)) (s.reading (.inr k) (some x))
  | pollPublish {s : State ι κ T Doc} {k : κ} {x : T} : s.reads (.inr k) = some x →
      Step c s (.publish (.inr k)) { s.reading (.inr k) none with current := x }

/-- `New` has read the settings. -/
def machine (ι κ : Type) [DecidableEq ι] [DecidableEq κ] (c : Codec T Doc) :
    Machine (State ι κ T Doc) (Label ι κ T) where
  init s := c.decode s.db = .ok s.current ∧ (∀ i, s.saves i = .idle) ∧ ∀ p, s.reads p = none
  step := Step c

section History

/-- The `Save` that was called last. -/
def lastStarted : List (Label ι κ T) → Option ι
  | [] => none
  | .start i _ :: _ => some i
  | _ :: tr => lastStarted tr

/-- The `Save` whose document was written last. -/
def lastWritten : List (Label ι κ T) → Option ι
  | [] => none
  | .write i :: _ => some i
  | _ :: tr => lastWritten tr

/-- The `Save` whose document was there at the last read of the poll. -/
def lastSeen (p : ι ⊕ κ) : List (Label ι κ T) → Option ι
  | [] => none
  | .fetch q :: tr => if q = p then lastWritten tr else lastSeen p tr
  | _ :: tr => lastSeen p tr

/-- What is published after the poll of the save `i` was read after its write. -/
def Fresh (i : ι) (tr : List (Label ι κ T)) : Prop :=
  ∀ p r, .publish p :: r <:+ tr → .publish (.inl i) ∈ r → lastSeen p r = some i

end History

section Steps

variable {c : Codec T Doc} {s s' : State ι κ T Doc} {l : Label ι κ T} {i : ι} {p : ι ⊕ κ}

omit [DecidableEq κ] in
theorem saving_self (i : ι) (phase : Phase T) : (s.saving i phase).saves i = phase := by
  simp only [State.saving, update_self]

omit [DecidableEq κ] in
theorem saving_ne {j : ι} (hj : i ≠ j) (phase : Phase T) :
    (s.saving j phase).saves i = s.saves i := by
  simp only [State.saving, update_of_ne hj]

theorem reading_self (p : ι ⊕ κ) (x : Option T) : (s.reading p x).reads p = x := by
  simp only [State.reading, update_self]

theorem reading_ne {q : ι ⊕ κ} (hq : q ≠ p) (x : Option T) :
    (s.reading p x).reads q = s.reads q := by
  simp only [State.reading, update_of_ne hq]

variable (h : Step c s l s')
include h

theorem Step.db_cases :
    (∃ i v doc, l = .write i ∧ s.saves i = .began v ∧ c.encode v = .ok doc ∧ s'.db = some doc) ∨
      (∀ i, l ≠ .write i) ∧ s'.db = s.db := by
  cases h with
  | @write i v doc hi hdoc => exact .inl ⟨i, v, doc, rfl, hi, hdoc, rfl⟩
  | _ => exact .inr ⟨fun _ => nofun, rfl⟩

theorem Step.current_cases :
    (∃ p, l = .publish p ∧ s.reads p = some s'.current) ∨
      (∀ p, l ≠ .publish p) ∧ s'.current = s.current := by
  cases h with
  | publish _ hx => exact .inl ⟨_, rfl, hx⟩
  | pollPublish hx => exact .inl ⟨_, rfl, hx⟩
  | _ => exact .inr ⟨fun _ => nofun, rfl⟩

theorem Step.reads_cases {x : T} (hx : s'.reads p = some x) :
    (l = .fetch p ∧ c.decode s.db = .ok x) ∨
      l ≠ .fetch p ∧ l ≠ .publish p ∧ s.reads p = some x := by
  have hfetch : ∀ {q : ι ⊕ κ} {y : T}, (s.reading q (some y)).reads p = some x →
      (q = p ∧ y = x) ∨ q ≠ p ∧ s.reads p = some x := by
    intro q y hx
    by_cases hq : p = q
    · subst hq
      rw [reading_self] at hx
      exact .inl ⟨rfl, Option.some.inj hx⟩
    · rw [reading_ne hq] at hx
      exact .inr ⟨Ne.symm hq, hx⟩
  have hpublish : ∀ {q : ι ⊕ κ}, (s.reading q none).reads p = some x →
      q ≠ p ∧ s.reads p = some x := by
    intro q hx
    have hq : p ≠ q := by
      rintro rfl
      rw [reading_self] at hx
      cases hx
    exact ⟨hq.symm, by rwa [reading_ne hq] at hx⟩
  cases h with
  | fetch _ _ hy =>
    obtain ⟨rfl, rfl⟩ | ⟨hq, hx⟩ := hfetch hx
    · exact .inl ⟨rfl, hy⟩
    · exact .inr ⟨fun h => hq (Label.fetch.inj h), nofun, hx⟩
  | pollFetch _ hy =>
    obtain ⟨rfl, rfl⟩ | ⟨hq, hx⟩ := hfetch hx
    · exact .inl ⟨rfl, hy⟩
    · exact .inr ⟨fun h => hq (Label.fetch.inj h), nofun, hx⟩
  | publish _ _ =>
    obtain ⟨hq, hx⟩ := hpublish hx
    exact .inr ⟨nofun, fun h => hq (Label.publish.inj h), hx⟩
  | pollPublish _ =>
    obtain ⟨hq, hx⟩ := hpublish hx
    exact .inr ⟨nofun, fun h => hq (Label.publish.inj h), hx⟩
  | _ => exact .inr ⟨nofun, nofun, hx⟩

/-- The value of a call that has not failed. -/
def Phase.value : Phase T → Option T
  | .began v => some v
  | .written v => some v
  | .published v => some v
  | .returned v => some v
  | _ => none

/-- The poll of a call has published. -/
def Phase.shown : Phase T → Prop
  | .published _ => True
  | .returned _ => True
  | _ => False

/-- What a step does to the phase of one call. -/
inductive Move (i : ι) (s : State ι κ T Doc) : Label ι κ T → Phase T → Prop
  | start {v : T} : s.saves i = .idle → Move i s (.start i v) (.began v)
  | fail {v : T} : s.saves i = .began v → Move i s (.fail i) .failed
  | write {v : T} : s.saves i = .began v → Move i s (.write i) (.written v)
  | lost {v : T} : s.saves i = .written v → s.reads (.inl i) = none → Move i s (.fail i) .failed
  | publish {v : T} : s.saves i = .written v → Move i s (.publish (.inl i)) (.published v)
  | ret {v : T} : s.saves i = .published v → Move i s (.ret i) (.returned v)

theorem Step.saves_cases (i : ι) :
    Move i s l (s'.saves i) ∨
      (∀ v, l ≠ .start i v) ∧ l ≠ .publish (.inl i) ∧ s'.saves i = s.saves i := by
  -- A call moves by its own steps only.
  have hmove : ∀ {j : ι} {phase : Phase T} {l : Label ι κ T}, Move j s l phase →
      (∀ v, l = .start i v → j = i) → (l = .publish (.inl i) → j = i) →
      Move i s l ((s.saving j phase).saves i) ∨
        (∀ v, l ≠ .start i v) ∧ l ≠ .publish (.inl i) ∧ (s.saving j phase).saves i = s.saves i := by
    intro j phase l hm hstart hpublish
    by_cases hj : i = j
    · subst hj
      rw [saving_self]
      exact .inl hm
    · refine .inr ⟨fun v h => ?_, fun h => ?_, saving_ne hj phase⟩
      · exact hj (hstart v h).symm
      · exact hj (hpublish h).symm
  cases h with
  | start hi => exact hmove (.start hi) (fun v h => (Label.start.inj h).1) nofun
  | fail hi => exact hmove (.fail hi) nofun nofun
  | write hi _ => exact hmove (.write hi) nofun nofun
  | lost hi hx => exact hmove (.lost hi hx) nofun nofun
  | publish hi _ => exact hmove (.publish hi) nofun fun h => Sum.inl.inj (Label.publish.inj h)
  | ret hi => exact hmove (.ret hi) nofun nofun
  | fetch _ _ _ => exact .inr ⟨nofun, nofun, rfl⟩
  | pollFetch _ _ => exact .inr ⟨nofun, nofun, rfl⟩
  | pollPublish _ => exact .inr ⟨nofun, nofun, rfl⟩

end Steps

section Runs

variable {c : Codec T Doc} {s s' : State ι κ T Doc} {tr : List (Label ι κ T)} {l : Label ι κ T}
  {i : ι} {x : T} {p : ι ⊕ κ}

/-- The calls and what the run says about them. -/
structure Called (tr : List (Label ι κ T)) (s : State ι κ T Doc) (i : ι) : Prop where
  started : ∀ v, (s.saves i).value = some v → .start i v ∈ tr
  value : ∀ v, .start i v ∈ tr → s.saves i = .failed ∨ (s.saves i).value = some v
  shown : (s.saves i).shown ↔ .publish (.inl i) ∈ tr
  reads : s.reads (.inl i) ≠ none → ∃ v, s.saves i = .written v

/-- The poll of a call reads while the call is written, and the read stays until it is
published. -/
theorem Step.read_cases (hst : Step c s l s') (hx : s'.reads (.inl i) ≠ none) :
    (∃ v, s.saves i = .written v ∧ s'.saves i = s.saves i) ∨
      s.reads (.inl i) ≠ none ∧ l ≠ .publish (.inl i) := by
  obtain ⟨x, hx⟩ := ne_none_iff_exists'.mp hx
  obtain ⟨rfl, -⟩ | ⟨-, hl, hx⟩ := hst.reads_cases hx
  · cases hst with
    | fetch hi _ _ => exact .inl ⟨_, hi, rfl⟩
  · exact .inr ⟨hx ▸ some_ne_none x, hl⟩

theorem Called.unread (h : Called tr s i) (hst : Step c s l s')
    (hw : ∀ v, s.saves i ≠ .written v) : s'.reads (.inl i) = none := by
  by_contra hx
  obtain ⟨v, hv, -⟩ | ⟨hx, -⟩ := hst.read_cases hx
  · exact hw v hv
  · obtain ⟨v, hv⟩ := h.reads hx
    exact hw v hv

omit [DecidableEq ι] [DecidableEq κ] in
theorem Called.unpublished (h : Called tr s i) (hs : ¬ (s.saves i).shown)
    (hl : l ≠ .publish (.inl i)) : .publish (.inl i) ∉ l :: tr := by
  intro hmem
  exact hs (h.shown.mpr ((mem_cons.mp hmem).resolve_left hl.symm))

omit [DecidableEq ι] [DecidableEq κ] in
theorem Called.kept (h : Called tr s i) (hl : ∀ v, l ≠ .start i v)
    (hp : s'.saves i = .failed ∨
      s.saves i ≠ .failed ∧ (s'.saves i).value = (s.saves i).value)
    (hshown : (s'.saves i).shown ↔ .publish (.inl i) ∈ l :: tr)
    (hread : s'.reads (.inl i) ≠ none → ∃ v, s'.saves i = .written v) :
    Called (l :: tr) s' i := by
  refine ⟨fun v hv => ?_, fun v hv => ?_, hshown, hread⟩
  · obtain hp | ⟨-, hp⟩ := hp
    · rw [hp] at hv
      cases hv
    · exact mem_cons_of_mem _ (h.started v (hp ▸ hv))
  · obtain hp | ⟨hne, hp⟩ := hp
    · exact .inl hp
    · have hv' := h.value v ((mem_cons.mp hv).resolve_left fun h => hl v h.symm)
      exact .inr (hp.trans (hv'.resolve_left hne))

theorem Called.move (h : Called tr s i) (hst : Step c s l s') (hm : Move i s l (s'.saves i)) :
    Called (l :: tr) s' i := by
  generalize hphase : s'.saves i = phase at hm
  cases hm with
  | @start w hi =>
    have hunread := h.unread hst (by simp [hi])
    refine ⟨fun v hv => ?_, fun v hv => ?_, ?_, fun hx => absurd hunread hx⟩
    · rw [hphase] at hv
      cases hv
      exact mem_cons_self
    · rcases mem_cons.mp hv with heq | hv
      · cases heq
        exact .inr (by rw [hphase]; rfl)
      · have hidle := h.value v hv
        rw [hi] at hidle
        rcases hidle with h | h <;> cases h
    · rw [hphase]
      exact iff_of_false id (h.unpublished (by rw [hi]; exact id) nofun)
  | fail hi =>
    have hunread := h.unread hst (by simp [hi])
    refine h.kept nofun (.inl hphase) ?_ fun hx => absurd hunread hx
    rw [hphase]
    exact iff_of_false id (h.unpublished (by rw [hi]; exact id) nofun)
  | write hi =>
    have hunread := h.unread hst (by simp [hi])
    refine h.kept nofun (.inr ⟨by simp [hi], by rw [hphase, hi]; rfl⟩) ?_
      fun hx => absurd hunread hx
    rw [hphase]
    exact iff_of_false id (h.unpublished (by rw [hi]; exact id) nofun)
  | lost hi hnone =>
    refine h.kept nofun (.inl hphase) ?_ fun hx => ?_
    · rw [hphase]
      exact iff_of_false id (h.unpublished (by rw [hi]; exact id) nofun)
    · obtain ⟨v, hv, heq⟩ | ⟨hx, -⟩ := hst.read_cases hx
      · rw [hphase, hv] at heq
        cases heq
      · exact absurd hnone hx
  | publish hi =>
    refine h.kept nofun (.inr ⟨by simp [hi], by rw [hphase, hi]; rfl⟩) ?_ fun hx => ?_
    · rw [hphase]
      exact iff_of_true trivial mem_cons_self
    · obtain ⟨v, hv, heq⟩ | ⟨-, hl⟩ := hst.read_cases hx
      · rw [hphase, hv] at heq
        cases heq
      · exact absurd rfl hl
  | ret hi =>
    have hunread := h.unread hst (by simp [hi])
    have hmem := h.shown.mp (by rw [hi]; trivial)
    refine h.kept nofun (.inr ⟨by simp [hi], by rw [hphase, hi]; rfl⟩) ?_
      fun hx => absurd hunread hx
    rw [hphase]
    exact iff_of_true trivial (mem_cons_of_mem _ hmem)

theorem called_step (hst : Step c s l s') (h : Called tr s i) : Called (l :: tr) s' i := by
  obtain hm | ⟨hstart, hpublish, heq⟩ := hst.saves_cases i
  · exact h.move hst hm
  · refine h.kept hstart ?_ ?_ fun hx => ?_
    · rw [heq]
      exact (em (s.saves i = .failed)).imp_right fun hne => ⟨hne, rfl⟩
    · rw [heq, h.shown, mem_cons]
      exact (or_iff_right hpublish.symm).symm
    · rw [heq]
      obtain ⟨v, hv, -⟩ | ⟨hx, -⟩ := hst.read_cases hx
      · exact ⟨v, hv⟩
      · exact h.reads hx

theorem called (h : Trace (machine ι κ c) tr s) (i : ι) : Called tr s i := by
  induction h with
  | init h0 =>
    obtain ⟨-, hidle, hreads⟩ := h0
    refine ⟨fun v hv => ?_, nofun, ?_, fun hx => absurd (hreads _) hx⟩
    · rw [hidle] at hv
      cases hv
    · rw [hidle]
      exact iff_of_false id nofun
  | step _ hst ih => exact called_step hst ih

/-- The value is what a read makes of the document of the call `i`. -/
def Shows (c : Codec T Doc) (tr : List (Label ι κ T)) (i : ι) (x : T) : Prop :=
  ∃ v, .start i v ∈ tr ∧ c.Decoded v x

omit [DecidableEq ι] [DecidableEq κ] in
theorem Shows.cons (l : Label ι κ T) (h : Shows c tr i x) : Shows c (l :: tr) i x := by
  obtain ⟨v, hv, hx⟩ := h
  exact ⟨v, mem_cons_of_mem _ hv, hx⟩

omit [DecidableEq ι] [DecidableEq κ] in
theorem lastWritten_cons (hl : ∀ i, l ≠ .write i) : lastWritten (l :: tr) = lastWritten tr := by
  cases l with
  | write i => exact absurd rfl (hl i)
  | _ => rfl

theorem lastSeen_cons (hl : l ≠ .fetch p) : lastSeen p (l :: tr) = lastSeen p tr := by
  cases l with
  | fetch q =>
    have hq : q ≠ p := fun h => hl (h ▸ rfl)
    rw [lastSeen, if_neg hq]
  | _ => rfl

theorem db_of_lastWritten (h : Trace (machine ι κ c) tr s)
    (hi : lastWritten tr = some i) (hx : c.decode s.db = .ok x) : Shows c tr i x := by
  induction h generalizing x with
  | init h0 => cases hi
  | step h hst ih =>
    obtain ⟨j, v, doc, rfl, hj, hdoc, hdb⟩ | ⟨hl, hdb⟩ := hst.db_cases
    · cases hi
      rw [hdb] at hx
      refine ⟨v, mem_cons_of_mem _ ((called h i).started v ?_), doc, hdoc, hx⟩
      rw [hj]
      rfl
    · rw [lastWritten_cons hl] at hi
      exact (ih hi (hdb ▸ hx)).cons _

/-- A read shows the document written last before it. -/
theorem reads_of_lastSeen (h : Trace (machine ι κ c) tr s)
    (hi : lastSeen p tr = some i) (hx : s.reads p = some x) : Shows c tr i x := by
  induction h with
  | init h0 => cases hi
  | step h hst ih =>
    obtain ⟨rfl, hdb⟩ | ⟨hl, -, hx⟩ := hst.reads_cases hx
    · rw [lastSeen, if_pos rfl] at hi
      exact (db_of_lastWritten h hi hdb).cons _
    · rw [lastSeen_cons hl] at hi
      exact (ih hi hx).cons _

theorem lastSeen_own (h : Trace (machine ι κ c) tr s) (hi : lastWritten tr = some i)
    (hx : s.reads (.inl i) ≠ none) : lastSeen (.inl i) tr = some i := by
  induction h with
  | init h0 => cases hi
  | @step tr s s' l h hst ih =>
    obtain ⟨x, hx⟩ := ne_none_iff_exists'.mp hx
    obtain ⟨rfl, hdb⟩ | ⟨hl, -, hx⟩ := hst.reads_cases hx
    · rw [lastSeen, if_pos rfl]
      exact hi
    · have hne : s.reads (.inl i) ≠ none := hx ▸ some_ne_none x
      rw [lastSeen_cons hl]
      obtain ⟨j, v, doc, rfl, hj, -, -⟩ | ⟨hl, -⟩ := hst.db_cases
      · cases hi
        obtain ⟨w, hw⟩ := (called h i).reads hne
        rw [hj] at hw
        cases hw
      · rw [lastWritten_cons hl] at hi
        exact ih hi hne

theorem fresh_nil (i : ι) : Fresh i ([] : List (Label ι κ T)) := by
  intro p r hr
  cases suffix_nil.mp hr

theorem fresh_cons_iff : Fresh i (l :: tr) ↔
      (∀ p, l = .publish p → .publish (.inl i) ∈ tr → lastSeen p tr = some i) ∧ Fresh i tr := by
  constructor
  · intro h
    refine ⟨fun p hp => ?_, fun p r hr => h p r (hr.trans (suffix_cons l tr))⟩
    subst hp
    exact h p tr (suffix_refl _)
  · rintro ⟨hl, h⟩ p r hr
    rcases suffix_cons_iff.mp hr with heq | hr
    · obtain ⟨rfl, rfl⟩ := List.cons.inj heq
      exact hl p rfl
    · exact h p r hr

theorem current_of_fresh (h : Trace (machine ι κ c) tr s) (hi : lastWritten tr = some i)
    (hfresh : Fresh i tr) (hp : .publish (.inl i) ∈ tr) : Shows c tr i s.current := by
  induction h with
  | init h0 => cases hi
  | @step tr s s' l h hst ih =>
    obtain ⟨p, rfl, hx⟩ | ⟨hl, hcur⟩ := hst.current_cases
    · rw [lastWritten_cons nofun] at hi
      have hseen : lastSeen p tr = some i := by
        by_cases hmem : .publish (.inl i) ∈ tr
        · exact (fresh_cons_iff.mp hfresh).1 p rfl hmem
        · rcases mem_cons.mp hp with heq | hp
          · cases heq
            exact lastSeen_own h hi (hx ▸ some_ne_none _)
          · exact absurd hp hmem
      exact (reads_of_lastSeen h hseen hx).cons _
    · have hp' := (mem_cons.mp hp).resolve_left fun h => hl _ h.symm
      rw [hcur]
      obtain ⟨j, v, doc, rfl, hj, -, -⟩ | ⟨hl, -⟩ := hst.db_cases
      · cases hi
        have hshown := (called h i).shown.mpr hp'
        rw [hj] at hshown
        exact hshown.elim
      · rw [lastWritten_cons hl] at hi
        exact (ih hi (fresh_cons_iff.mp hfresh).2 hp').cons _

end Runs

section Limits

open GoJson

/-- How a Settings value encodes and reads. -/
def codec {N : Type} {E : Types N} {t : Ty N} (settings : Settings E t) (column : Jsonb) :
    Codec Val (Json Int) where
  encode v := .ok (column.stored (marshal v))
  decode stored := settings.read (stored.elim .notFound .found)

def kz (maxWithdrawal : Int) : Val := limits maxWithdrawal (region "kz")

def limitCodec : Codec Val (Json Int) := codec (limitSettings (kz 100)) verbatim

/-- Nothing is stored and nobody reads. -/
def fresh : State Bool Unit Val (Json Int) := ⟨none, kz 100, fun _ => .idle, fun _ => none⟩

theorem init_fresh : (machine Bool Unit limitCodec).init fresh :=
  ⟨rfl, fun _ => rfl, fun _ => rfl⟩

theorem not_decoded {m n : Int} (h : m ≠ n)
    (hm : limitCodec.decode (some (marshal (kz m))) = .ok (kz m)) :
    ¬ limitCodec.Decoded (kz m) (kz n) := by
  rintro ⟨doc, hdoc, hx⟩
  cases hdoc
  have hx' : limitCodec.decode (some (marshal (kz m))) = .ok (kz n) := hx
  rw [hm] at hx'
  have hfields := Val.struct.inj (Except.ok.inj hx')
  have hfirst := (List.cons.inj hfields).1
  exact h (Val.int.inj (Prod.mk.inj hfirst).2)

end Limits

/-- A `Save` shows at once, and for good unless another one writes after it or an older read is
published after its own. -/
theorem save_shows {c : Codec T Doc} {s : State ι κ T Doc} {tr : List (Label ι κ T)} {i : ι} {v : T}
    (h : Trace (machine ι κ c) tr s) (hret : s.saves i = .returned v)
    (hlast : lastWritten tr = some i) (hfresh : Fresh i tr) : c.Decoded v s.current := by
  have hcalled := called h i
  have hp : .publish (.inl i) ∈ tr := hcalled.shown.mp (by rw [hret]; trivial)
  obtain ⟨w, hw, hx⟩ := current_of_fresh h hlast hfresh hp
  have hvalue := hcalled.value w hw
  rw [hret] at hvalue
  obtain hvalue | hvalue := hvalue
  · cases hvalue
  · cases hvalue
    exact hx

/-- A `Save` next to a poll that reads after its write. -/
theorem save_shows_limits :
    ∃ tr s, Trace (machine Bool Unit limitCodec) tr s ∧ s.saves true = .returned (kz 5) ∧
      limitCodec.Decoded (kz 5) s.current := by
  have h₁ := Trace.step (.init init_fresh) (.start (i := true) (v := kz 5) rfl)
  have h₂ := Trace.step h₁ (.write (i := true) (v := kz 5) rfl rfl)
  have h₃ := Trace.step h₂ (.pollFetch (k := ()) (x := kz 5) rfl rfl)
  have h₄ := Trace.step h₃ (.fetch (i := true) (v := kz 5) (x := kz 5) rfl rfl rfl)
  have h₅ := Trace.step h₄ (.publish (i := true) (v := kz 5) (x := kz 5) rfl rfl)
  have h₆ := Trace.step h₅ (.ret (i := true) (v := kz 5) rfl)
  have h₇ := Trace.step h₆ (.pollPublish (k := ()) (x := kz 5) rfl)
  refine ⟨_, _, h₇, rfl, save_shows h₇ rfl rfl ?_⟩
  simp [fresh_cons_iff, fresh_nil, lastSeen, lastWritten]

/-- A poll that has read before the write publishes after the `Save` has returned; of two saves,
the one that was called first writes last. In both runs no other `Save` is called after the first
one. -/
theorem saved_limits_disappear :
    (∃ tr s, Trace (machine Bool Unit limitCodec) tr s ∧ s.saves true = .returned (kz 5) ∧
      lastStarted tr = some true ∧ lastWritten tr = some true ∧
      ¬ limitCodec.Decoded (kz 5) s.current) ∧
    ∃ tr s, Trace (machine Bool Unit limitCodec) tr s ∧ s.saves true = .returned (kz 5) ∧
      lastStarted tr = some true ∧ ¬ limitCodec.Decoded (kz 5) s.current := by
  constructor
  · have h₁ := Trace.step (.init init_fresh) (.pollFetch (k := ()) (x := kz 100) rfl rfl)
    have h₂ := Trace.step h₁ (.start (i := true) (v := kz 5) rfl)
    have h₃ := Trace.step h₂ (.write (i := true) (v := kz 5) rfl rfl)
    have h₄ := Trace.step h₃ (.fetch (i := true) (v := kz 5) (x := kz 5) rfl rfl rfl)
    have h₅ := Trace.step h₄ (.publish (i := true) (v := kz 5) (x := kz 5) rfl rfl)
    have h₆ := Trace.step h₅ (.ret (i := true) (v := kz 5) rfl)
    have h₇ := Trace.step h₆ (.pollPublish (k := ()) (x := kz 100) rfl)
    exact ⟨_, _, h₇, rfl, rfl, rfl, not_decoded (by decide) rfl⟩
  · have h₁ := Trace.step (.init init_fresh) (.start (i := false) (v := kz 7) rfl)
    have h₂ := Trace.step h₁ (.start (i := true) (v := kz 5) rfl)
    have h₃ := Trace.step h₂ (.write (i := true) (v := kz 5) rfl rfl)
    have h₄ := Trace.step h₃ (.fetch (i := true) (v := kz 5) (x := kz 5) rfl rfl rfl)
    have h₅ := Trace.step h₄ (.publish (i := true) (v := kz 5) (x := kz 5) rfl rfl)
    have h₆ := Trace.step h₅ (.ret (i := true) (v := kz 5) rfl)
    have h₇ := Trace.step h₆ (.write (i := false) (v := kz 7) rfl rfl)
    have h₈ := Trace.step h₇ (.fetch (i := false) (v := kz 7) (x := kz 7) rfl rfl rfl)
    have h₉ := Trace.step h₈ (.publish (i := false) (v := kz 7) (x := kz 7) rfl rfl)
    exact ⟨_, _, h₉, rfl, rfl, not_decoded (by decide) rfl⟩

end Skit.Settings
