import Skit.Lib.Suffix
import Skit.Worker.Processor
import Mathlib.Tactic.SplitIfs
import Mathlib.Data.List.Basic

/-!
# What one drain does with its batch

The histories of `drain` are described by data: an `Attempt` is one pass through
the loop up to the outcome of its item, a `Settled` is an attempt with its mark,
and a `Batch` is a claim followed by the items settled so far. `Admits` says at
which of these histories each call may be made; `wp_drain` proves that the
processor keeps to it, for all answers. Runs of many workers read their facts
about a single worker off `Admits`.
-/
namespace Skit.Worker
open Lib List

variable {τ T R : Type}

/-- The calls of a drain with their answers, latest first. -/
abbrev Hist (τ T R : Type) := List (Event τ (Call T) (Ans T R))

/-- The start of a pass through the loop: the polls before the item, the clock
reading that its mark will carry and the context of its handling. Each reading
stands next to the time it was made at. -/
structure Opening (τ T : Type) where
  item : T
  polled : τ
  checked : τ
  check : Int
  read : τ
  now : Int
  opened : τ

namespace Opening

variable (p : Processor T R) (a : Opening τ T)

/-- The batch had not run out of time when the item was started. -/
def Fresh (start : Int) : Prop := 0 < p.cfg.batchTimeout → a.check - start < p.cfg.batchTimeout

def pollEvents : Hist τ T R :=
  (if 0 < p.cfg.batchTimeout then [⟨a.checked, .now, a.check⟩] else []) ++
    [⟨a.polled, .ctxErr, false⟩]

/-- The events up to the call of `Handle`. -/
def openEvents : Hist τ T R :=
  (if p.cfg.handleTimeout ≤ 0 then []
    else [⟨a.opened, .withTimeout p.cfg.handleTimeout, ()⟩]) ++
    ⟨a.read, .now, a.now⟩ :: a.pollEvents p

end Opening

/-- One pass through the loop up to the outcome: the handling and, when it
panicked, the verdict of `OnPanic`. -/
structure Attempt (τ T R : Type) extends Opening τ T where
  began : τ
  ended : τ
  answer : R
  closed : τ
  asked : τ
  verdict : Option Err

namespace Attempt

variable (p : Processor T R) (a : Attempt τ T R)

/-- The error the processor sees, a panic of `Handle` included. -/
def err : Option Err := safetickCall (p.handle a.item a.answer)

def panic : Option String := (a.err p).bind Err.asPanic

/-- The outcome of the item, which decides its mark. -/
def outcome : Option Err :=
  match a.panic p with
  | none => a.err p
  | some v => if p.cfg.onPanic then a.verdict else retryPanic v

/-- The events up to the end of the handling, before `OnPanic`. -/
def handleEvents : Hist τ T R :=
  (if p.cfg.handleTimeout ≤ 0 then [] else [⟨a.closed, .cancel, ()⟩]) ++
    ⟨a.ended, .handled a.item, a.answer⟩ :: ⟨a.began, .handle a.item, ()⟩ :: a.openEvents p

/-- The events up to the outcome. -/
def events : Hist τ T R :=
  match a.panic p with
  | none => a.handleEvents p
  | some v =>
    if p.cfg.onPanic then ⟨a.asked, .onPanic a.item v, a.verdict⟩ :: a.handleEvents p
    else a.handleEvents p

theorem handleEvents_suffix : a.handleEvents p <:+ a.events p := by
  unfold events
  split
  · exact suffix_refl _
  · split
    · exact suffix_cons _ _
    · exact suffix_refl _

theorem now_mem_events : ⟨a.read, .now, a.now⟩ ∈ a.events p := by
  refine (a.handleEvents_suffix p).mem ?_
  simp [handleEvents, Opening.openEvents]

theorem handled_mem_events : ⟨a.ended, .handled a.item, a.answer⟩ ∈ a.events p := by
  refine (a.handleEvents_suffix p).mem ?_
  simp [handleEvents]

/-- The mark that the outcome calls for. -/
def markCall : Call T :=
  match a.outcome p with
  | none => .markDone a.item a.now
  | some e => .markFailed a.item (p.sanitize e.error) (p.isTerminal e) a.now

def markEvent (t : τ) (markErr : Option Err) : Event τ (Call T) (Ans T R) :=
  match a.outcome p with
  | none => ⟨t, .markDone a.item a.now, markErr⟩
  | some e => ⟨t, .markFailed a.item (p.sanitize e.error) (p.isTerminal e) a.now, markErr⟩

@[simp] theorem markEvent_op (t : τ) (markErr : Option Err) :
    (a.markEvent p t markErr).op = a.markCall p := by
  unfold markEvent markCall
  split <;> rfl

end Attempt

/-- An attempt with its mark, and the error the mark returned. -/
structure Settled (τ T R : Type) extends Attempt τ T R where
  bound : τ
  marked : τ
  markErr : Option Err
  freed : τ

def Settled.events (p : Processor T R) (s : Settled τ T R) : Hist τ T R :=
  ⟨s.freed, .cancel, ()⟩ :: s.markEvent p s.marked s.markErr ::
    ⟨s.bound, .withTimeout markTimeout, ()⟩ :: s.toAttempt.events p

/-- A claim and the items settled since, the latest first. -/
structure Batch (τ T R : Type) where
  read : τ
  start : Int
  claimed : τ
  items : List T
  settled : List (Settled τ T R)

namespace Batch

variable (p : Processor T R) (b : Batch τ T R)

def hist : Hist τ T R :=
  b.settled.flatMap (Settled.events p) ++
    [⟨b.claimed, .claim b.start p.cfg.batchSize, .ok b.items⟩, ⟨b.read, .now, b.start⟩]

/-- The settled items, in the order of the claim. -/
def handled : List T := b.settled.reverse.map (·.item)

/-- The settled items are a beginning of the claim, `rest` is what remains, and no
outcome so far stopped the batch. -/
structure Going (rest : List T) : Prop where
  split : b.items = b.handled ++ rest
  fresh : ∀ s ∈ b.settled, s.Fresh p b.start
  goesOn : ∀ s ∈ b.settled, p.stops (s.outcome p) = false

/-- The batch with one more settled item. -/
def push (s : Settled τ T R) : Batch τ T R := { b with settled := s :: b.settled }

@[simp] theorem hist_push (s : Settled τ T R) : (b.push s).hist p = s.events p ++ b.hist p := by
  simp [push, hist]

@[simp] theorem handled_push (s : Settled τ T R) : (b.push s).handled = b.handled ++ [s.item] := by
  simp [push, handled]

variable {p b}

theorem Going.push {s : Settled τ T R} {rest : List T} (h : b.Going p (s.item :: rest))
    (hf : s.Fresh p b.start) (hs : p.stops (s.outcome p) = false) : (b.push s).Going p rest where
  split := by rw [handled_push]; simpa [Batch.push] using h.split
  fresh := by
    intro s' hs'
    rcases mem_cons.mp hs' with rfl | hs'
    · exact hf
    · exact h.fresh s' hs'
  goesOn := by
    intro s' hs'
    rcases mem_cons.mp hs' with rfl | hs'
    · exact hs
    · exact h.goesOn s' hs'

end Batch

/-- The ways a batch stops before its items run out, with the items left and
whether an outcome stopped it. -/
inductive Stop (p : Processor T R) (b : Batch τ T R) (rest : List T) :
    Bool → Hist τ T R → Prop
  | canceled (t : τ) : b.Going p rest → rest ≠ [] →
      Stop p b rest false (⟨t, .ctxErr, true⟩ :: b.hist p)
  | timedOut (t t' : τ) (c : Int) : b.Going p rest → rest ≠ [] → 0 < p.cfg.batchTimeout →
      p.cfg.batchTimeout ≤ c - b.start →
      Stop p b rest false (⟨t', .now, c⟩ :: ⟨t, .ctxErr, false⟩ :: b.hist p)
  | halted (s : Settled τ T R) : b.Going p (s.item :: rest) → s.Fresh p b.start →
      p.stops (s.outcome p) = true → Stop p b rest true (s.events p ++ b.hist p)

/-- The histories at which a drain makes each of its step calls. -/
def Admits (p : Processor T R) (h : Hist τ T R) : Call T → Prop
  | .claim now limit => ∃ t, h = [⟨t, .now, now⟩] ∧ limit = p.cfg.batchSize
  | .handle x => ∃ (b : Batch τ T R) (a : Opening τ T) (rest : List T),
      b.Going p (x :: rest) ∧ a.Fresh p b.start ∧ a.item = x ∧ h = a.openEvents p ++ b.hist p
  | .handled x => ∃ (b : Batch τ T R) (a : Opening τ T) (rest : List T) (t : τ),
      b.Going p (x :: rest) ∧ a.Fresh p b.start ∧ a.item = x ∧
        h = ⟨t, .handle x, ()⟩ :: (a.openEvents p ++ b.hist p)
  | .onPanic x v => ∃ (b : Batch τ T R) (a : Attempt τ T R) (rest : List T),
      b.Going p (x :: rest) ∧ a.Fresh p b.start ∧ a.item = x ∧ a.panic p = some v ∧
        p.cfg.onPanic = true ∧ h = a.handleEvents p ++ b.hist p
  | .markDone x now => ∃ (b : Batch τ T R) (a : Attempt τ T R) (rest : List T) (t : τ),
      b.Going p (x :: rest) ∧ a.Fresh p b.start ∧ a.item = x ∧ a.now = now ∧
        a.outcome p = none ∧ h = ⟨t, .withTimeout markTimeout, ()⟩ :: (a.events p ++ b.hist p)
  | .markFailed x msg terminal now =>
    ∃ (b : Batch τ T R) (a : Attempt τ T R) (rest : List T) (t : τ) (e : Err),
      b.Going p (x :: rest) ∧ a.Fresh p b.start ∧ a.item = x ∧ a.now = now ∧
        a.outcome p = some e ∧ msg = p.sanitize e.error ∧ terminal = p.isTerminal e ∧
        h = ⟨t, .withTimeout markTimeout, ()⟩ :: (a.events p ++ b.hist p)
  | .release rest => ∃ (b : Batch τ T R) (halted : Bool) (t : τ)
        (h' : Hist τ T R),
      p.hasRelease = true ∧ rest ≠ [] ∧ Stop p b rest halted h' ∧
        h = ⟨t, .withTimeout markTimeout, ()⟩ :: h'
  | _ => True

/-- The histories of a finished loop: every item was settled, or the batch stopped
and its rest was released when there was one to release and a way to. -/
inductive Ended (p : Processor T R) (b : Batch τ T R) :
    List T → Bool → Hist τ T R → Prop
  | settled : b.Going p [] → Ended p b [] false (b.hist p)
  | kept {rest : List T} {halted : Bool} {h : Hist τ T R} :
      p.hasRelease = false ∨ rest = [] → Stop p b rest halted h → Ended p b rest halted h
  | released {rest : List T} {halted : Bool} {h : Hist τ T R}
      (t₁ t₂ t₃ : τ) (e : Option Err) :
      p.hasRelease = true → rest ≠ [] → Stop p b rest halted h →
      Ended p b rest halted
        (⟨t₃, .cancel, ()⟩ :: ⟨t₂, .release rest, e⟩ :: ⟨t₁, .withTimeout markTimeout, ()⟩ :: h)

/-- A loop that continues batch `b` ends as a batch of the same claim. -/
def LoopPost (p : Processor T R) (b : Batch τ T R) (halted : Bool)
    (h : Hist τ T R) : Prop :=
  ∃ (b' : Batch τ T R) (rest : List T), b'.read = b.read ∧ b'.start = b.start ∧
    b'.claimed = b.claimed ∧ b'.items = b.items ∧ Ended p b' rest halted h

section Rules

variable {p : Processor T R} {h : Hist τ T R} {rest : List T} {b : Batch τ T R}
  {Q : Option Err → Hist τ T R → Prop} {a : Opening τ T}

theorem wp_release {halted : Bool} {Q : Unit → Hist τ T R → Prop} (hs : Stop p b rest halted h)
    (hq : ∀ h', Ended p b rest halted h' → Q () h') : wp (Admits p) Q (p.release rest) h := by
  unfold Processor.release
  split_ifs with hc
  · exact hq h (.kept hc hs)
  · simp only [not_or, Bool.not_eq_false] at hc
    simp only [Processor.settle, Processor.ask, wp_bind, wp_ask, Prog.pure_eq, wp_ret, Admits,
      true_and]
    intro t₁ _
    refine ⟨⟨b, halted, t₁, h, hc.1, hc.2, hs, rfl⟩, fun t₂ e t₃ _ => ?_⟩
    exact hq _ (.released t₁ t₂ t₃ e hc.1 hc.2 hs)

theorem wp_expired {start : Int} (item : T) {Q : Bool → Hist τ T R → Prop}
    (hc : ∀ t, Q true (⟨t, .ctxErr, true⟩ :: h))
    (ht : ∀ t t' c, 0 < p.cfg.batchTimeout → p.cfg.batchTimeout ≤ c - start →
      Q true (⟨t', .now, c⟩ :: ⟨t, .ctxErr, false⟩ :: h))
    (hf : ∀ a : Opening τ T, a.item = item → a.Fresh p start → Q false (a.pollEvents p ++ h)) :
    wp (Admits p) Q (p.expired start) h := by
  unfold Processor.expired
  simp only [Processor.ask, wp_bind, wp_ask, Admits, true_and]
  intro t ended
  cases ended with
  | true => exact hc t
  | false =>
    simp only [Bool.false_eq_true, if_false]
    split_ifs with hb
    · simp only [wp_bind, wp_ask, Prog.pure_eq, wp_ret, Admits, true_and]
      intro t' c
      by_cases hle : p.cfg.batchTimeout ≤ c - start
      · simpa [hle] using ht t t' c hb hle
      · have := hf ⟨item, t, t', c, t, 0, t⟩ rfl (fun _ => by simpa using hle)
        simpa [hle, Opening.pollEvents, hb] using this
    · have := hf ⟨item, t, t, 0, t, 0, t⟩ rfl (fun h => absurd h hb)
      simpa [Opening.pollEvents, hb] using this

/-- From the end of the handling to the outcome: `OnPanic` is asked when it is set
and the error carries a panic. -/
theorem wp_recovered {a : Attempt τ T R} (hb : b.Going p (a.item :: rest)) (hf : a.Fresh p b.start)
    (hq : ∀ t v, Q ({ a with asked := t, verdict := v }.outcome p)
      ({ a with asked := t, verdict := v }.events p ++ b.hist p)) :
    wp (Admits p) Q (p.recovered a.item (a.err p)) (a.handleEvents p ++ b.hist p) := by
  have hpanic : ∀ t v, ({ a with asked := t, verdict := v } : Attempt τ T R).panic p = a.panic p :=
    fun _ _ => rfl
  have hevents : ∀ t v, ({ a with asked := t, verdict := v } : Attempt τ T R).handleEvents p =
      a.handleEvents p := fun _ _ => rfl
  unfold Processor.recovered
  cases hp : (a.err p).bind Err.asPanic with
  | none =>
    have hp' : a.panic p = none := hp
    simpa [Attempt.outcome, Attempt.events, hpanic, hevents, hp'] using hq a.asked a.verdict
  | some v =>
    have hp' : a.panic p = some v := hp
    by_cases ho : p.cfg.onPanic = true
    · simp only [ho, if_true, Processor.ask]
      refine ⟨⟨b, a, rest, hb, hf, rfl, hp', ho, rfl⟩, fun t e => ?_⟩
      simpa [Attempt.outcome, Attempt.events, hpanic, hevents, hp', ho] using hq t e
    · simpa [Attempt.outcome, Attempt.events, hpanic, hevents, hp', ho] using hq a.asked a.verdict

/-- The handling of an item, started by the opening `a`. -/
theorem wp_handleItem {item : T}
    (hb : b.Going p (item :: rest)) (hf : a.Fresh p b.start) (hi : a.item = item)
    (hq : ∀ a' : Attempt τ T R, a'.item = item → a'.now = a.now → a'.Fresh p b.start →
      Q (a'.outcome p) (a'.events p ++ b.hist p)) :
    wp (Admits p) Q (p.handleItem item)
      (⟨a.read, .now, a.now⟩ :: (a.pollEvents p ++ b.hist p)) := by
  subst hi
  unfold Processor.handleItem Processor.bounded
  by_cases hh : p.cfg.handleTimeout ≤ 0
  · simp only [hh, if_true, wp_bind, Processor.ask, wp_ask, Prog.pure_eq, wp_ret]
    have hopen : a.openEvents p = ⟨a.read, .now, a.now⟩ :: a.pollEvents p := by
      simp [Opening.openEvents, hh]
    refine ⟨⟨b, a, rest, hb, hf, rfl, by rw [hopen]; rfl⟩, fun t₁ _ =>
      ⟨⟨b, a, rest, t₁, hb, hf, rfl, by rw [hopen]; rfl⟩, fun t₂ r => ?_⟩⟩
    have hw := wp_recovered (a := ⟨a, t₁, t₂, r, t₂, t₂, none⟩) hb hf fun t v => hq _ rfl rfl hf
    rw [Attempt.handleEvents, hopen, if_pos hh] at hw
    exact hw
  · simp only [hh, if_false, wp_bind, Processor.ask, wp_ask, Prog.pure_eq, wp_ret, Admits, true_and]
    intro t₀ _
    let a₀ : Opening τ T := { a with opened := t₀ }
    have hopen : a₀.openEvents p = ⟨t₀, .withTimeout p.cfg.handleTimeout, ()⟩ ::
        ⟨a.read, .now, a.now⟩ :: a.pollEvents p := by
      simp [a₀, Opening.openEvents, Opening.pollEvents, hh]
    refine ⟨⟨b, a₀, rest, hb, hf, rfl, by rw [hopen]; rfl⟩, fun t₁ _ =>
      ⟨⟨b, a₀, rest, t₁, hb, hf, rfl, by rw [hopen]; rfl⟩, fun t₂ r t₃ _ => ?_⟩⟩
    have hw := wp_recovered (a := ⟨a₀, t₁, t₂, r, t₃, t₃, none⟩) hb hf fun t v => hq _ rfl rfl hf
    rw [Attempt.handleEvents, hopen, if_neg hh] at hw
    exact hw

theorem wp_handleOne {item : T}
    (hb : b.Going p (item :: rest)) (hf : a.Fresh p b.start) (hi : a.item = item)
    (hq : ∀ s : Settled τ T R, s.item = item → s.Fresh p b.start →
      Q (s.outcome p) (s.events p ++ b.hist p)) :
    wp (Admits p) Q (p.handleOne item) (a.pollEvents p ++ b.hist p) := by
  unfold Processor.handleOne Processor.settle
  simp only [wp_bind, Processor.ask, wp_ask, Admits, true_and]
  intro t now
  refine wp_handleItem (a := { a with read := t, now := now }) hb hf hi fun a' hi' hn hf' => ?_
  change a'.now = now at hn
  subst hi' hn
  rintro t₁ ⟨⟩
  cases ho : a'.outcome p with
  | none =>
    simp only [Prog.pure_eq, wp_ret]
    refine ⟨⟨b, a', rest, t₁, hb, hf', rfl, rfl, ho, rfl⟩, fun t₂ e t₃ _ => ?_⟩
    simpa [Settled.events, Attempt.markEvent, ho] using hq ⟨a', t₁, t₂, e, t₃⟩ rfl hf'
  | some err =>
    simp only [Prog.pure_eq, wp_ret]
    refine ⟨⟨b, a', rest, t₁, err, hb, hf', rfl, rfl, ho, rfl, rfl, rfl⟩, fun t₂ e t₃ _ => ?_⟩
    simpa [Settled.events, Attempt.markEvent, ho] using hq ⟨a', t₁, t₂, e, t₃⟩ rfl hf'

/-- The loop keeps to `Admits`, by induction on the items not yet started. -/
theorem wp_loop : ∀ {b : Batch τ T R}, b.Going p rest →
    wp (Admits p) (LoopPost p b) (p.loop b.start rest) (b.hist p) := by
  induction rest with
  | nil =>
    intro b hb
    exact ⟨b, [], rfl, rfl, rfl, rfl, .settled hb⟩
  | cons item rest ih =>
    intro b hb
    have hstop : ∀ h, Stop p b (item :: rest) false h →
        wp (Admits p) (LoopPost p b) (do p.release (item :: rest); return false) h := by
      intro h hs
      rw [wp_bind]
      exact wp_release hs fun h' he => ⟨b, _, rfl, rfl, rfl, rfl, he⟩
    simp only [Processor.loop, wp_bind]
    refine wp_expired item ?_ ?_ ?_
    · intro t
      exact hstop _ (.canceled t hb (cons_ne_nil _ _))
    · intro t t' c h0 hc
      exact hstop _ (.timedOut t t' c hb (cons_ne_nil _ _) h0 hc)
    · intro a hi hf
      simp only [Bool.false_eq_true, if_false, wp_bind]
      refine wp_handleOne hb hf hi fun s hi hf' => ?_
      by_cases hs : p.stops (s.outcome p) = true
      · simp only [hs, if_true, wp_bind]
        have hh : Stop p b rest true (s.events p ++ b.hist p) := .halted s (hi ▸ hb) hf' hs
        exact wp_release hh fun h' he => ⟨b, rest, rfl, rfl, rfl, rfl, he⟩
      · rw [if_neg hs]
        have hg := Batch.Going.push (hi ▸ hb) hf' (by simpa using hs)
        rw [← Batch.hist_push]
        exact ih hg

/-- The histories of a finished drain, with what it returned. -/
inductive Drained (p : Processor T R) :
    Pace × Option Err → Hist τ T R → Prop
  | failed (t t' : τ) (start : Int) (e : Err) : Drained p (.idle, some e)
      [⟨t', .claim start p.cfg.batchSize, .error e⟩, ⟨t, .now, start⟩]
  | ended {b : Batch τ T R} {rest : List T} {halted : Bool}
      {h : Hist τ T R} : Ended p b rest halted h →
      Drained p (if halted = false ∧ p.cfg.batchSize ≤ b.items.length then .busy else .idle, none) h

theorem wp_drain (p : Processor T R) :
    wp (τ := τ) (Admits p) (Drained p) p.drain [] := by
  simp only [Processor.drain, Processor.ask, wp_bind, wp_ask, Admits, true_and]
  intro t start
  refine ⟨⟨t, rfl, trivial⟩, fun t' claimed => ?_⟩
  cases claimed with
  | error e => exact .failed t t' start e
  | ok items =>
    let b : Batch τ T R := ⟨t, start, t', items, []⟩
    have hb : b.Going p items := ⟨rfl, by simp [b], by simp [b]⟩
    simp only [wp_bind]
    refine wp_mono ?_ (wp_loop hb)
    rintro halted h ⟨b', rest, -, -, -, hitems, he⟩
    have hd := Drained.ended he
    rw [hitems] at hd
    cases halted with
    | true => exact hd
    | false => simpa [b] using hd

end Rules

end Skit.Worker
