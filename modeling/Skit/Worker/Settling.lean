import Skit.Worker.Batch

/-!
# Which call settles an item

A call of a drain acts on items of its batch only, and an item is settled once: a mark
comes after the attempt it reports, and no call settles an item that an earlier one has.
After a mark whose outcome stops the batch the drain only releases what is left.
-/
namespace Skit.Worker
open Lib List Attempt

variable {τ T R : Type}

section Items

/-- The items a call acts on. -/
def Call.items : Call T → List T
  | .handle x => [x]
  | .handled x => [x]
  | .onPanic x _ => [x]
  | .markDone x _ => [x]
  | .markFailed x _ _ _ => [x]
  | .release rest => rest
  | _ => []

variable {p : Processor T R} {h : Hist τ T R} {x : T} {b : Batch τ T R} {rest : List T}
  {halted : Bool} {o : Call T} {ev : Event τ (Call T) (Ans T R)}

theorem Batch.Going.mem_items (hb : b.Going p rest) (hx : x ∈ rest) : x ∈ b.items := by
  rw [hb.split]
  exact mem_append_right _ hx

theorem Stop.hist_suffix (hs : Stop p b rest halted h) : b.hist p <:+ h := by
  cases hs with
  | canceled t hb _ => exact suffix_cons _ _
  | timedOut t t' c hb _ _ _ => exact ⟨[_, _], rfl⟩
  | halted s hb _ _ => exact suffix_append _ _

theorem Stop.mem_items (hs : Stop p b rest halted h) (hx : x ∈ rest) : x ∈ b.items := by
  cases hs with
  | canceled t hb _ => exact hb.mem_items hx
  | timedOut t t' c hb _ _ _ => exact hb.mem_items hx
  | halted s hb _ _ => exact hb.mem_items (mem_cons_of_mem _ hx)

theorem Admits.mem_batch (ha : Admits p h o) (hx : x ∈ o.items) :
    ∃ b : Batch τ T R, x ∈ b.items ∧ b.hist p <:+ h := by
  cases o with
  | handle y =>
    obtain ⟨b, a, rest, hb, -, -, rfl⟩ := ha
    exact ⟨b, hb.mem_items (by simp_all [Call.items]), suffix_append _ _⟩
  | handled y =>
    obtain ⟨b, a, rest, t, hb, -, -, rfl⟩ := ha
    exact ⟨b, hb.mem_items (by simp_all [Call.items]),
      (suffix_append _ _).trans (suffix_cons _ _)⟩
  | onPanic y v =>
    obtain ⟨b, a, rest, hb, -, -, -, -, rfl⟩ := ha
    exact ⟨b, hb.mem_items (by simp_all [Call.items]), suffix_append _ _⟩
  | markDone y now =>
    obtain ⟨b, a, rest, t, hb, -, -, -, -, rfl⟩ := ha
    exact ⟨b, hb.mem_items (by simp_all [Call.items]),
      (suffix_append _ _).trans (suffix_cons _ _)⟩
  | markFailed y msg terminal now =>
    obtain ⟨b, a, rest, t, e, hb, -, -, -, -, -, -, rfl⟩ := ha
    exact ⟨b, hb.mem_items (by simp_all [Call.items]),
      (suffix_append _ _).trans (suffix_cons _ _)⟩
  | release rest =>
    obtain ⟨b, halted, t, h', -, -, hs, rfl⟩ := ha
    exact ⟨b, hs.mem_items hx, hs.hist_suffix.trans (suffix_cons _ _)⟩
  | _ => exact absurd hx not_mem_nil

/-- The item a mark is about. -/
def Call.marked : Call T → Option T
  | .markDone x _ => some x
  | .markFailed x _ _ _ => some x
  | _ => none

/-- The items a call settles: a mark its own, a release all it lists. -/
def Call.settles : Call T → List T
  | .markDone x _ => [x]
  | .markFailed x _ _ _ => [x]
  | .release rest => rest
  | _ => []

theorem Call.items_of_settles (hx : x ∈ o.settles) : x ∈ o.items := by
  cases o <;> first | exact hx | exact absurd hx not_mem_nil

theorem Admits.mark (ha : Admits p h o) (hm : o.marked = some x) :
    ∃ (b : Batch τ T R) (a : Attempt τ T R) (rest : List T) (t : τ), b.Going p (x :: rest) ∧
      a.Fresh p b.start ∧ a.item = x ∧
      h = ⟨t, .withTimeout markTimeout, ()⟩ :: (a.events p ++ b.hist p) := by
  cases o with
  | markDone y now =>
    obtain rfl : y = x := Option.some.inj hm
    obtain ⟨b, a, rest, t, hb, hf, hi, -, -, hh⟩ := ha
    exact ⟨b, a, rest, t, hb, hf, hi, hh⟩
  | markFailed y msg terminal now =>
    obtain rfl : y = x := Option.some.inj hm
    obtain ⟨b, a, rest, t, e, hb, hf, hi, -, -, -, -, hh⟩ := ha
    exact ⟨b, a, rest, t, hb, hf, hi, hh⟩
  | _ => cases hm

theorem Opening.settles_openEvents {a : Opening τ T}
    (he : ev ∈ a.openEvents p) : ev.op.settles = [] := by
  simp only [Opening.openEvents, Opening.pollEvents, mem_append, mem_cons,
    not_mem_nil, or_false] at he
  rcases he with he | rfl | he | rfl
  · split_ifs at he
    · exact absurd he not_mem_nil
    · rw [mem_singleton.mp he]; rfl
  · rfl
  · split_ifs at he
    · rw [mem_singleton.mp he]; rfl
    · exact absurd he not_mem_nil
  · rfl

theorem Attempt.settles_events {a : Attempt τ T R} (he : ev ∈ a.events p) : ev.op.settles = [] := by
  have hh : ∀ ev ∈ a.handleEvents p, ev.op.settles = [] := by
    intro ev hev
    simp only [handleEvents, mem_append, mem_cons] at hev
    rcases hev with hev | rfl | rfl | hev
    · split_ifs at hev
      · exact absurd hev not_mem_nil
      · rw [mem_singleton.mp hev]; rfl
    · rfl
    · rfl
    · exact Opening.settles_openEvents hev
  unfold events at he
  split at he
  · exact hh ev he
  · split_ifs at he
    · rcases mem_cons.mp he with rfl | he
      · rfl
      · exact hh ev he
    · exact hh ev he

theorem Batch.settles_hist (he : ev ∈ b.hist p) (hx : x ∈ ev.op.settles) : x ∈ b.handled := by
  rcases mem_append.mp he with he | he
  · obtain ⟨s, hs, hev⟩ := mem_flatMap.mp he
    have hmem : s.item ∈ b.handled := mem_map_of_mem (mem_reverse.mpr hs)
    simp only [Settled.events, mem_cons] at hev
    rcases hev with rfl | rfl | rfl | hev
    · exact absurd hx not_mem_nil
    · rw [markEvent_op, markCall] at hx
      split at hx <;> rwa [mem_singleton.mp hx]
    · exact absurd hx not_mem_nil
    · rw [settles_events hev] at hx
      exact absurd hx not_mem_nil
  · simp only [mem_cons, not_mem_nil, or_false] at he
    rcases he with rfl | rfl <;> exact absurd hx not_mem_nil

end Items

section Halted

variable {p : Processor T R} {h X Y : Hist τ T R} {x : T} {ev : Event τ (Call T) (Ans T R)}
  {a a' : Attempt τ T R} {t : τ} {b : Batch τ T R} {rest : List T}

theorem Call.settles_of_marked {o : Call T} (hm : o.marked = some x) : o.settles = [x] := by
  cases o with
  | markDone y now => rw [← Option.some.inj hm]; rfl
  | markFailed y msg terminal now => rw [← Option.some.inj hm]; rfl
  | _ => cases hm

theorem Attempt.handleEvents_ne {y : T} {v : String} {w : Option Err} :
    a.handleEvents p ++ X ≠ ⟨t, .onPanic y v, w⟩ :: Y := by
  unfold handleEvents
  split_ifs <;> simp

theorem Attempt.handleEvents_unique (heq : a.handleEvents p ++ X = a'.handleEvents p ++ Y) :
    a.item = a'.item ∧ a.err p = a'.err p := by
  unfold handleEvents at heq
  unfold err
  split_ifs at heq
  all_goals simp only [nil_append, cons_append, List.cons.injEq, Event.mk.injEq,
    Call.handled.injEq] at heq
  · obtain ⟨⟨-, hi, ha⟩, -⟩ := heq
    rw [hi, eq_of_heq ha]
    exact ⟨rfl, rfl⟩
  · obtain ⟨-, ⟨-, hi, ha⟩, -⟩ := heq
    rw [hi, eq_of_heq ha]
    exact ⟨rfl, rfl⟩

theorem Attempt.outcome_unique (heq : a.events p ++ X = a'.events p ++ Y) :
    a.item = a'.item ∧ a.outcome p = a'.outcome p := by
  have hsame : a.handleEvents p ++ X = a'.handleEvents p ++ Y →
      (a.panic p = none ∨ p.cfg.onPanic = false) →
      a.item = a'.item ∧ a.outcome p = a'.outcome p := by
    intro heq hc
    obtain ⟨hi, herr⟩ := Attempt.handleEvents_unique heq
    have hp : a'.panic p = a.panic p := by rw [Attempt.panic, Attempt.panic, herr]
    refine ⟨hi, ?_⟩
    rcases hc with hc | hc
    · simp [outcome, hp, hc, herr]
    · simp [outcome, hp, hc, herr]
  by_cases ho : p.cfg.onPanic = true
  · cases hp : a.panic p with
    | none =>
      cases hp' : a'.panic p with
      | none => exact hsame (by simpa [events, hp, hp'] using heq) (.inl hp)
      | some v' =>
        simp only [events, hp, hp', ho, if_true] at heq
        exact absurd heq handleEvents_ne
    | some v =>
      cases hp' : a'.panic p with
      | none =>
        simp only [events, hp, hp', ho, if_true] at heq
        exact absurd heq.symm handleEvents_ne
      | some v' =>
        simp only [events, hp, hp', ho, if_true, cons_append, List.cons.injEq,
          Event.mk.injEq, Call.onPanic.injEq] at heq
        obtain ⟨⟨-, ⟨hi, -⟩, hv⟩, -⟩ := heq
        refine ⟨hi, ?_⟩
        simpa [outcome, hp, hp', ho] using hv
  · have ho : p.cfg.onPanic = false := by simpa using ho
    have hev : ∀ a : Attempt τ T R, a.events p = a.handleEvents p := by
      intro a
      unfold events
      split <;> simp [ho]
    exact hsame (by rwa [hev, hev] at heq) (.inr ho)

theorem Batch.mark_suffix (hm : ev.op.marked = some x)
    (hs : ev :: X <:+ b.hist p) : ∃ s ∈ b.settled, s.item = x ∧
      ∃ Y, X = ⟨s.bound, .withTimeout markTimeout, ()⟩ :: (s.toAttempt.events p ++ Y) := by
  have hnone : ∀ {a : Attempt τ T R}, ev ∉ a.events p := by
    intro a hev
    have := settles_events hev
    rw [Call.settles_of_marked hm] at this
    cases this
  unfold Batch.hist at hs
  generalize b.settled = l at hs ⊢
  induction l with
  | nil =>
    have hmem := hs.mem mem_cons_self
    simp only [flatMap_nil, nil_append, mem_cons, not_mem_nil, or_false] at hmem
    rcases hmem with rfl | rfl <;> cases hm
  | cons s l ih =>
    rw [flatMap_cons, append_assoc, Settled.events] at hs
    rcases suffix_cons_iff.mp hs with heq | hs
    · rw [(List.cons.inj heq).1] at hm
      cases hm
    rcases suffix_cons_iff.mp hs with heq | hs
    · obtain ⟨rfl, rfl⟩ := List.cons.inj heq
      refine ⟨s, mem_cons_self, ?_, _, rfl⟩
      rw [markEvent_op, markCall] at hm
      split at hm <;> exact Option.some.inj hm
    rcases suffix_cons_iff.mp hs with heq | hs
    · rw [(List.cons.inj heq).1] at hm
      cases hm
    rcases mem_or_suffix_of_append hs with hev | hs
    · exact absurd hev hnone
    · obtain ⟨s', hs', h'⟩ := ih hs
      exact ⟨s', mem_cons_of_mem _ hs', h'⟩

/-- No mark in a batch that goes on had an outcome that stops it. -/
theorem Batch.Going.not_stopped (hb : b.Going p rest) (hm : ev.op.marked = some x)
    (hs : ev :: ⟨t, .withTimeout markTimeout, ()⟩ :: (a.events p ++ Y) <:+ b.hist p) :
    p.stops (a.outcome p) = false := by
  obtain ⟨s, hmem, -, Z, hZ⟩ := Batch.mark_suffix hm hs
  rw [(outcome_unique (List.cons.inj hZ).2).2]
  exact hb.goesOn s hmem

theorem suffix_of_not_marked {ev' : Event τ (Call T) (Ans T R)} (hm : ev.op.marked = some x)
    (hno : ev'.op.marked = none) (hs : ev :: X <:+ ev' :: h) : ev :: X <:+ h := by
  rcases suffix_cons_iff.mp hs with heq | hs
  · rw [← (List.cons.inj heq).1, hm] at hno
    cases hno
  · exact hs

/-- A batch that stopped after a mark whose outcome stops it stopped at that item. -/
theorem Stop.after_halt {halted : Bool} (hst : Stop p b rest halted h) (hm : ev.op.marked = some x)
    (hs : ev :: ⟨t, .withTimeout markTimeout, ()⟩ :: (a.events p ++ Y) <:+ h)
    (hstop : p.stops (a.outcome p) = true) : b.items = b.handled ++ x :: rest := by
  cases hst with
  | canceled t hb _ =>
    rw [hb.not_stopped hm (suffix_of_not_marked hm rfl hs)] at hstop
    cases hstop
  | timedOut t t' c hb _ _ _ =>
    have hs := suffix_of_not_marked hm rfl (suffix_of_not_marked hm rfl hs)
    rw [hb.not_stopped hm hs] at hstop
    cases hstop
  | halted s hb _ _ =>
    rw [← Batch.hist_push] at hs
    obtain ⟨s', hmem, hx, Z, hZ⟩ := Batch.mark_suffix hm hs
    rcases mem_cons.mp hmem with rfl | hmem
    · rw [← hx]
      exact hb.split
    · rw [(outcome_unique (List.cons.inj hZ).2).2, hb.goesOn s' hmem] at hstop
      cases hstop

/-- After a mark whose outcome stops the batch there is no further mark, and the rest
of the batch is what may be released. -/
theorem Admits.after_halt {o : Call T} (ha : Admits p h o) (hm : ev.op.marked = some x)
    (hs : ev :: ⟨t, .withTimeout markTimeout, ()⟩ :: (a.events p ++ Y) <:+ h)
    (hstop : p.stops (a.outcome p) = true) : o.marked = none ∧
      (∀ now limit, o ≠ .claim now limit) ∧
      ∀ rest, o = .release rest → ∃ b : Batch τ T R, b.hist p <:+ h ∧
        b.items = b.handled ++ x :: rest := by
  refine ⟨?_, ?_, ?_⟩
  · cases ho : o.marked with
    | none => rfl
    | some y =>
      obtain ⟨b, a', rest, t', hb, -, -, rfl⟩ := ha.mark ho
      rcases mem_or_suffix_of_append (suffix_of_not_marked hm rfl hs) with hev | hs
      · have := settles_events hev
        rw [Call.settles_of_marked hm] at this
        cases this
      · rw [hb.not_stopped hm hs] at hstop
        cases hstop
  · rintro now limit rfl
    obtain ⟨t', rfl, -⟩ := ha
    have := hs.length_le
    simp at this
  · rintro rest rfl
    obtain ⟨b, halted, t', h', -, -, hst, rfl⟩ := ha
    have hitems := hst.after_halt hm (suffix_of_not_marked hm rfl hs) hstop
    exact ⟨b, hst.hist_suffix.trans (suffix_cons _ _), hitems⟩

/-- A drain that returned after such a mark has released the rest of its batch. -/
theorem Drained.after_halt {out : Pace × Option Err}
    (hd : Drained p out h) (hrel : p.hasRelease = true) (hm : ev.op.marked = some x)
    (hs : ev :: ⟨t, .withTimeout markTimeout, ()⟩ :: (a.events p ++ Y) <:+ h)
    (hstop : p.stops (a.outcome p) = true) : ∃ (b : Batch τ T R) (rest : List T),
      b.hist p <:+ h ∧ b.items = b.handled ++ x :: rest ∧
      (rest = [] ∨ ∃ t e, ⟨t, .release rest, e⟩ ∈ h) := by
  cases hd with
  | failed t t' start e =>
    have hmem := hs.mem mem_cons_self
    simp only [mem_cons, not_mem_nil, or_false] at hmem
    rcases hmem with rfl | rfl <;> cases hm
  | @ended b rest halted _ he =>
    cases he with
    | settled hb =>
      rw [hb.not_stopped hm hs] at hstop
      cases hstop
    | kept hk hst =>
      refine ⟨b, rest, hst.hist_suffix, hst.after_halt hm hs hstop, .inl ?_⟩
      exact hk.resolve_left (by simp [hrel])
    | released t₁ t₂ t₃ e _ _ hst =>
      have hs := suffix_of_not_marked hm rfl (suffix_of_not_marked hm rfl
        (suffix_of_not_marked hm rfl hs))
      exact ⟨b, rest, hst.hist_suffix.trans ⟨[_, _, _], rfl⟩, hst.after_halt hm hs hstop,
        .inr ⟨t₂, e, by simp⟩⟩

end Halted

end Skit.Worker
