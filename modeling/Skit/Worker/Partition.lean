import Skit.Worker.Batch

/-!
# How a drain splits its batch

The calls that a drain makes on the items of its batch are, in order, one handling and
one mark for each item of a first part, and one release of the rest.
-/
namespace Skit.Worker
open Lib

variable {τ T R : Type}

section Partition

/-- The calls that act on the items of a batch. -/
def Call.onItems : Call T → Bool
  | .handle _ => true
  | .markDone _ _ => true
  | .markFailed _ _ _ _ => true
  | .release _ => true
  | _ => false

/-- The calls a history makes on the items, in the order they were made. -/
def itemCalls (h : Hist τ T R) : List (Call T) :=
  (h.reverse.map Event.op).filter Call.onItems

theorem itemCalls_append (h h' : Hist τ T R) :
    itemCalls (h ++ h') = itemCalls h' ++ itemCalls h := by
  simp [itemCalls]

theorem itemCalls_cons (ev : Event τ (Call T) (Ans T R)) (h : Hist τ T R) :
    itemCalls (ev :: h) = itemCalls h ++ if ev.op.onItems then [ev.op] else [] := by
  by_cases hc : ev.op.onItems <;> simp [itemCalls, hc]

variable {p : Processor T R} {b : Batch τ T R} {h : Hist τ T R} {rest : List T} {halted : Bool}

theorem Attempt.onItems_markCall (a : Attempt τ T R) : (a.markCall p).onItems = true := by
  unfold Attempt.markCall
  split <;> rfl

theorem Opening.itemCalls_openEvents (a : Opening τ T) : itemCalls (a.openEvents p) = [] := by
  unfold Opening.openEvents Opening.pollEvents
  split_ifs <;> rfl

theorem Attempt.itemCalls_events (a : Attempt τ T R) :
    itemCalls (a.events p) = [.handle a.item] := by
  have hh : itemCalls (a.handleEvents p) = [.handle a.item] := by
    unfold Attempt.handleEvents
    split_ifs <;> simp [itemCalls_cons, Opening.itemCalls_openEvents, Call.onItems]
  unfold Attempt.events
  split
  · exact hh
  · split_ifs
    · simp [itemCalls_cons, hh, Call.onItems]
    · exact hh

theorem Settled.itemCalls_events (s : Settled τ T R) :
    itemCalls (s.events p) = [.handle s.item, s.markCall p] := by
  simp only [Settled.events, itemCalls_cons, Attempt.markEvent_op, Attempt.onItems_markCall,
    Attempt.itemCalls_events]
  rfl

theorem Batch.itemCalls_hist (b : Batch τ T R) :
    itemCalls (b.hist p) = b.settled.reverse.flatMap fun s => [.handle s.item, s.markCall p] := by
  have hs : ∀ l : List (Settled τ T R), itemCalls (l.flatMap (Settled.events p)) =
      l.reverse.flatMap fun s => [.handle s.item, s.markCall p] := by
    intro l
    induction l with
    | nil => rfl
    | cons s l ih => simp [itemCalls_append, ih, Settled.itemCalls_events]
  rw [Batch.hist, itemCalls_append, hs]
  rfl

/-- Why a batch stopped before its items ran out. -/
def StopReason (p : Processor T R) (b : Batch τ T R) (h : Hist τ T R) :
    Prop :=
  (∃ s ∈ b.settled, p.stops (s.outcome p) = true) ∨ (∃ t, ⟨t, .ctxErr, true⟩ ∈ h) ∨
    ∃ t c, 0 < p.cfg.batchTimeout ∧ p.cfg.batchTimeout ≤ c - b.start ∧ ⟨t, .now, c⟩ ∈ h

/-- The release a batch that leaves `rest` calls for. -/
def releaseCalls (p : Processor T R) (rest : List T) : List (Call T) :=
  if p.hasRelease = true ∧ rest ≠ [] then [.release rest] else []

/-- A history whose batch is split into the settled items and `rest`: each settled
item was handled and then marked, in the order of the claim, and the rest was only
released. -/
structure Splits (p : Processor T R) (b : Batch τ T R) (rest : List T)
    (h : Hist τ T R) : Prop where
  made : b.hist p <:+ h
  items : b.items = b.handled ++ rest
  calls : itemCalls h =
    (b.settled.reverse.flatMap fun s => [.handle s.item, s.markCall p]) ++ releaseCalls p rest
  reason : rest ≠ [] → StopReason p b h

/-- A stopped batch, with the item that halted it counted among the settled. -/
theorem Stop.splits (hs : Stop p b rest halted h) :
    ∃ b' : Batch τ T R, b'.items = b.items ∧ b'.hist p <:+ h ∧ b'.items = b'.handled ++ rest ∧
      itemCalls h = itemCalls (b'.hist p) ∧ StopReason p b' h ∧
      (halted = true ↔ ∃ s ∈ b'.settled, p.stops (s.outcome p) = true) := by
  have hgo : b.Going p rest → (false = true ↔ ∃ s ∈ b.settled, p.stops (s.outcome p) = true) := by
    intro hb
    simpa using hb.goesOn
  cases hs with
  | canceled t hb _ =>
    exact ⟨b, rfl, List.suffix_cons _ _, hb.split, by simp [itemCalls_cons, Call.onItems],
      .inr (.inl ⟨t, by simp⟩), hgo hb⟩
  | timedOut t t' c hb _ h0 hc =>
    exact ⟨b, rfl, ⟨[_, _], rfl⟩, hb.split, by simp [itemCalls_cons, Call.onItems],
      .inr (.inr ⟨t', c, h0, hc, by simp⟩), hgo hb⟩
  | halted s hb _ hstop =>
    have hex : ∃ s' ∈ (b.push s).settled, p.stops (s'.outcome p) = true :=
      ⟨s, by simp [Batch.push], hstop⟩
    refine ⟨b.push s, rfl, by simp, ?_, by simp, .inl hex, by simpa using hex⟩
    simpa [Batch.push, Batch.handled] using hb.split

theorem Ended.splits (he : Ended p b rest halted h) :
    ∃ b' : Batch τ T R, b'.items = b.items ∧ Splits p b' rest h ∧
      (halted = true ↔ ∃ s ∈ b'.settled, p.stops (s.outcome p) = true) := by
  cases he with
  | settled hb =>
    refine ⟨b, rfl, ⟨List.suffix_refl _, hb.split, ?_, by simp⟩, by simpa using hb.goesOn⟩
    simp [Batch.itemCalls_hist, releaseCalls]
  | kept hk hs =>
    obtain ⟨b', hi, hm, hsplit, hcalls, hr, hh⟩ := hs.splits
    refine ⟨b', hi, ⟨hm, hsplit, ?_, fun _ => hr⟩, hh⟩
    have hnone : releaseCalls p rest = [] := by
      unfold releaseCalls
      rw [if_neg]
      rcases hk with hk | hk <;> simp [hk]
    rw [hcalls, Batch.itemCalls_hist, hnone, List.append_nil]
  | released t₁ t₂ t₃ e hrel hne hs =>
    obtain ⟨b', hi, hm, hsplit, hcalls, hr, hh⟩ := hs.splits
    refine ⟨b', hi, ⟨hm.trans ⟨[_, _, _], rfl⟩, hsplit, ?_, fun _ => ?_⟩, hh⟩
    · simp [itemCalls_cons, Call.onItems, hcalls, Batch.itemCalls_hist, releaseCalls, hrel, hne]
    · exact hr.imp id (Or.imp (fun ⟨t, ht⟩ => ⟨t, by simp [ht]⟩)
        fun ⟨t, c, h0, hc, ht⟩ => ⟨t, c, h0, hc, by simp [ht]⟩)

/-- One drain splits what it claimed into a prefix whose items are each handled once
and then marked once, by `markCall`, and a suffix that is only released; a failed
claim is its only error. It reports a busy pace exactly when the claim was full and
no outcome stopped the batch. -/
theorem drain_splits_batch {pace : Pace} {err : Option Err}
    {h : Hist τ T R} (hx : Exec p.drain h (.ret (pace, err))) :
    (∃ t t' start e, h = [⟨t', .claim start p.cfg.batchSize, .error e⟩, ⟨t, .now, start⟩] ∧
      pace = .idle ∧ err = some e) ∨
    ∃ (b : Batch τ T R) (rest : List T), Splits p b rest h ∧ err = none ∧
      (pace = .busy ↔ p.cfg.batchSize ≤ b.items.length ∧
        ∀ s ∈ b.settled, p.stops (s.outcome p) = false) := by
  have hd : Drained p (pace, err) h := hx.wp (wp_drain p)
  cases hd with
  | failed t t' start e => exact .inl ⟨t, t', start, e, rfl, rfl, rfl⟩
  | @ended b rest halted _ he =>
    obtain ⟨b', hi, hs, hh⟩ := he.splits
    refine .inr ⟨b', rest, hs, rfl, ?_⟩
    have hgo : halted = false ↔ ∀ s ∈ b'.settled, p.stops (s.outcome p) = false := by
      rw [← Bool.not_eq_true, hh]
      simp
    rw [hi, ← hgo]
    split_ifs with hc
    · simp [hc]
    · exact ⟨fun hb => by simp at hb, fun hc' => absurd hc'.symm hc⟩

/-- A processor that halts on every error. -/
def haltingProcessor : Processor Nat Outcome :=
  newProcessor (fun _ r => r) true id ⟨"", 3, 0, 0, none, some fun _ => true, false⟩

/-- Three items are claimed; the second one fails, and the third goes back. -/
theorem drain_splits_batch_halted : ∃ (b : Batch Nat Nat Outcome) (rest : List Nat),
    ∃ h, Splits haltingProcessor b rest h ∧ itemCalls h = [.handle 1, .markDone 1 8, .handle 2,
      .markFailed 2 "refused" false 9, .release [3]] := by
  let events : List (Event Nat (Call Nat) (Ans Nat Outcome)) :=
    [⟨0, .now, 7⟩, ⟨0, .claim 7 3, .ok [1, 2, 3]⟩,
      ⟨1, .ctxErr, false⟩, ⟨1, .now, 8⟩, ⟨1, .handle 1, ()⟩, ⟨1, .handled 1, .returned none⟩,
      ⟨1, .withTimeout markTimeout, ()⟩, ⟨1, .markDone 1 8, none⟩, ⟨1, .cancel, ()⟩,
      ⟨2, .ctxErr, false⟩, ⟨2, .now, 9⟩, ⟨2, .handle 2, ()⟩,
      ⟨2, .handled 2, .returned (some (.text "refused"))⟩,
      ⟨2, .withTimeout markTimeout, ()⟩, ⟨2, .markFailed 2 "refused" false 9, none⟩,
      ⟨2, .cancel, ()⟩, ⟨3, .withTimeout markTimeout, ()⟩, ⟨3, .release [3], none⟩,
      ⟨3, .cancel, ()⟩]
  have hx : Exec haltingProcessor.drain (events.reverse ++ []) (.ret (.idle, none)) :=
    Exec.start.of_play _ rfl
  rcases drain_splits_batch hx with ⟨t, t', start, e, he, -, -⟩ | ⟨b, rest, hs, -, -⟩
  · exact absurd (congrArg List.length he) (by simp [events])
  · exact ⟨b, rest, _, hs, by decide⟩

end Partition

end Skit.Worker
