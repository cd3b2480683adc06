import Skit.Queue.Timing

/-!
# Batches that are stopped

A mark whose outcome stops the batch is the last mark of its drain. The tasks after
it are the ones the drain releases, and the drain leaves their schedule and their
attempts as they were.
-/
namespace Skit.Queue
open Lib Worker Table List

section Halt

variable {ι R : Type} [DecidableEq ι] {cons : ι → Consumer R} {tr r : Trace ι R} {c : Moment ι R}
  {e : Point ι R} {i : ι} {ev : Ev R} {id : Nat} {row : Row} {a : Attempt Int Leased R}

/-- The mark `e₁` of drain `i` on the task `x` stops a batch in which `rest` comes
after `x`. -/
structure StopsBatch (cons : ι → Consumer R) (tr : Trace ι R)
    (c : Moment ι R)
    (e₁ : Point ι R) (r₁ : Trace ι R) (i : ι) (x : Leased)
    (rest : List Leased) : Prop where
  claimed : ∃ t start limit before,
    ⟨t, .claim start limit, .ok (before ++ x :: rest)⟩ ∈ hist i r₁
  unmarked : ∀ e r ev, e₁ :: r₁ <:+ r → e :: r <:+ tr → e.act = .proc i ev → ev.op.marked = none
  released : ∀ e r ev rest', e₁ :: r₁ <:+ r → e :: r <:+ tr → e.act = .proc i ev →
    ev.op = .release rest' → rest' = rest
  kept : ∀ e r ev, e :: r <:+ tr → e.act = .proc i ev → ∀ y ∈ rest, ∀ row,
    e.pre.table.find y.id = some row → ∃ row', e.post.table.find y.id = some row' ∧
      row'.runAt = row.runAt ∧ row'.attempts = row.attempts
  returned : ∀ out, c.procs i = .ret out →
    rest = [] ∨ ∃ t err, ⟨t, .release rest, err⟩ ∈ hist i tr

theorem drained (h : Run (workers cons) tr c) {out : Pace × Option Err}
    (hret : c.procs i = .ret out) : Drained (cons i).processor out (hist i tr) := by
  have hw := h.wp (J := fun i => Admits (cons i).processor)
    (Q := fun i => Drained (cons i).processor) (fun _ => wp_drain _) i
  rwa [hret] at hw

/-- An entry of a drain that is no mark of a task keeps the schedule and the attempts of
its row. -/
theorem kept_of_not_marked (h : Run (workers cons) tr c) (he : e :: r <:+ tr)
    (ha : e.act = .proc i ev) (hm : ∀ z, ev.op.marked = some z → z.id ≠ id)
    (hf : e.pre.table.find id = some row) : ∃ row', e.post.table.find id = some row' ∧
      row'.runAt = row.runAt ∧ row'.attempts = row.attempts := by
  rcases row_cases h he id with heq | ⟨st, hx, -, hstep⟩
  · exact ⟨row, heq.trans hf, rfl, rfl⟩
  rw [hf] at hstep
  generalize e.post.table.find id = post at hstep
  cases hstep with
  | same => exact ⟨row, rfl, rfl, rfl⟩
  | claimed _ _ => exact ⟨_, rfl, rfl, rfl⟩
  | released _ _ => exact ⟨_, rfl, rfl, rfl⟩
  | done hid _ =>
    obtain ⟨_, _, _, _, ha'⟩ := executes_markDone hx
    rw [(Act.proc.inj (ha.symm.trans ha')).2] at hm
    exact absurd hid (hm _ rfl)
  | failed hid _ =>
    obtain ⟨_, _, _, _, ha', -⟩ := executes_markFailed hx
    rw [(Act.proc.inj (ha.symm.trans ha')).2] at hm
    exact absurd hid (hm _ rfl)
  | cleaned _ =>
    obtain ⟨_, _, ha', -⟩ := executes_cleanup hx
    rw [ha] at ha'
    cases ha'

theorem batch_items (h : Run (workers cons) tr c) {b b' : Batch Int Leased R}
    (hb : b.hist (cons i).processor <:+ hist i tr)
    (hb' : b'.hist (cons i).processor <:+ hist i tr) :
    b.items = b'.items ∧ (b.items.map (·.id)).Nodup := by
  have hmem : ∀ b : Batch Int Leased R, b.hist (cons i).processor <:+ hist i tr →
      ⟨b.claimed, .claim b.start (cons i).processor.cfg.batchSize, .ok b.items⟩ ∈ hist i tr :=
    fun b hb => hb.mem (by simp [Batch.hist])
  refine ⟨(claim_unique h (hmem b hb) (hmem b' hb')).2, ?_⟩
  obtain ⟨e, r, _, hs, ha, -⟩ := claim_position h (hmem b hb)
  obtain ⟨L, -, hn, -⟩ := claim_issued h hs ha
  exact hn

theorem mem_handled_of_marked {b : Batch Int Leased R} {h : History R}
    {t : Int} {z : Leased} {p : Processor Leased R}
    (hh : h = ⟨t, .withTimeout markTimeout, ()⟩ :: (a.events p ++ b.hist p)) (hev : ev ∈ h)
    (hz : ev.op.marked = some z) : z ∈ b.handled := by
  have hsettles := Call.settles_of_marked hz
  rw [hh, mem_cons, mem_append] at hev
  rcases hev with rfl | hev | hev
  · cases hz
  · rw [Attempt.settles_events hev] at hsettles
    cases hsettles
  · exact Batch.settles_hist hev (by simp [hsettles])

/-- A mark whose outcome stops the drain stops its batch. -/
theorem stopsBatch_of_stops {X : History R} {t : Int}
    (h : Run (workers cons) tr c) (he : e :: r <:+ tr) (ha : e.act = .proc i ev)
    (hm : ev.op.marked = some a.item)
    (hh : hist i r = ⟨t, .withTimeout markTimeout, ()⟩ :: (a.events (cons i).processor ++ X))
    (hstop : (cons i).processor.stops (a.outcome (cons i).processor) = true) :
    ∃ rest, StopsBatch cons tr c e r i a.item rest := by
  obtain ⟨b, a', rest, t', hb, -, -, hh'⟩ := (admits h he ha).mark hm
  have hrsuf : hist i r <:+ hist i tr := hist_suffix ((suffix_cons _ _).trans he)
  have hbr : b.hist (cons i).processor <:+ hist i r :=
    ⟨⟨t', .withTimeout markTimeout, ()⟩ :: a'.events (cons i).processor, by simp [hh']⟩
  have hbsuf := hbr.trans hrsuf
  have hn := (batch_items h hbsuf hbsuf).2
  have hn' : (b.handled ++ a.item :: rest).Nodup := by
    rw [← hb.split]
    exact hn.of_map _
  have hsame : ∀ (b' : Batch Int Leased R) (rest' : List Leased),
      b'.hist (cons i).processor <:+ hist i tr → b'.items = b'.handled ++ a.item :: rest' →
      rest' = rest := by
    intro b' rest' hb' hitems
    have heq := (batch_items h hbsuf hb').1
    rw [hitems, hb.split] at heq
    exact (rest_unique hn' heq).symm
  have hsuf : ∀ {l : Trace ι R}, e :: r <:+ l → ev :: ⟨t, .withTimeout markTimeout, ()⟩ ::
      (a.events (cons i).processor ++ X) <:+ hist i l := by
    intro l hl
    have := hist_suffix (i := i) hl
    rwa [hist_cons_self ha, hh] at this
  have hafter : ∀ e' r' ev', e :: r <:+ r' → e' :: r' <:+ tr → e'.act = .proc i ev' →
      ev'.op.marked = none := by
    intro e' r' ev' hr he' ha'
    exact ((admits h he' ha').after_halt hm (hsuf hr) hstop).1
  refine ⟨rest, ⟨b.claimed, b.start, (cons i).processor.cfg.batchSize, b.handled, ?_⟩, hafter,
    ?_, ?_, ?_⟩
  · rw [← hb.split]
    exact hbr.mem (by simp [Batch.hist])
  · intro e' r' ev' rest' hr he' ha' ho
    obtain ⟨b', hb', hitems⟩ := ((admits h he' ha').after_halt hm (hsuf hr) hstop).2.2 rest' ho
    exact hsame b' rest' (hb'.trans (hist_suffix ((suffix_cons _ _).trans he'))) hitems
  · intro e' r' ev' he' ha' y hy row hf
    refine kept_of_not_marked h he' ha' ?_ hf
    intro z hz hid
    have hzx : z ∈ b.handled ++ [a.item] := by
      rcases suffix_trichotomy he he' with heq | hlt | hlt
      · obtain ⟨rfl, rfl⟩ := List.cons.inj heq
        rw [← (Act.proc.inj (ha.symm.trans ha')).2, hm] at hz
        simp [Option.some.inj hz]
      · rw [hafter e' r' ev' hlt he' ha'] at hz
        cases hz
      · have hev : ev' ∈ hist i r := mem_hist.mpr ⟨e', hlt.mem mem_cons_self, ha'⟩
        exact mem_append_left _ (mem_handled_of_marked hh' hev hz)
    rw [hb.split, append_cons, map_append, nodup_append] at hn
    exact hn.2.2 _ (mem_map_of_mem hzx) _ (mem_map_of_mem hy) hid
  · intro out hret
    obtain ⟨b', rest', hb', hitems, hrel⟩ :=
      (drained h hret).after_halt rfl hm (hsuf he) hstop
    rw [← hsame b' rest' hb' hitems]
    exact hrel

end Halt

end Skit.Queue
