import Skit.Queue.Delivery
import Skit.Queue.Timing

/-!
# The delay before a retry

`MarkFailed` puts `run_at` at the reading made before the handler plus the backoff.
So the delay counts from the start of the failed attempt, and a claim made after it
may come before the delay has passed since the handler ended. When every recorded
failure leaves `run_at` no earlier than that, no later claim returns the task too
early.
-/
namespace Skit.Queue
open Lib Worker Table List

section Retry

variable {ι R : Type} [DecidableEq ι] {cons : ι → Consumer R} {tr r r' : Trace ι R}
  {c : Moment ι R}
  {k e : Point ι R} {i j : ι}
  {a : Attempt Int Leased R}

/-- The entry `k` recorded the failure of attempt `a`, and the task is to be retried. -/
def Recorded (cons : ι → Consumer R) (k : Point ι R)
    (r : Trace ι R) (i : ι) (a : Attempt Int Leased R) : Prop :=
  ∃ t msg terminal err, k.act = .proc i ⟨t, .markFailed a.item msg terminal a.now, err⟩ ∧
    Attempted (cons i) a (hist i r) ∧
    k.post.table.find a.item.id ≠ k.pre.table.find a.item.id ∧
    ∃ row, k.post.table.find a.item.id = some row ∧ row.doneAt = none

/-- The backoff of the attempt, as its `n`-th failure. -/
def Consumer.delay (c : Consumer R) (a : Attempt Int Leased R) : Int :=
  c.backoff.next (a.item.attempts + 1)

/-- The stored `run_at` of the retry does not come before the end of the handler plus
the backoff. -/
def DelayedFromEnd (c : Consumer R) (a : Attempt Int Leased R) : Prop :=
  a.ended + c.delay a ≤ instant (stamp (a.now + c.delay a))

/-- A recorded retry frees the row and puts its `run_at` at the reading of the attempt
plus the backoff. -/
theorem Recorded.row (h : Run (workers cons) tr c) (hk : k :: r <:+ tr)
    (hrec : Recorded cons k r i a) :
    ∃ row, k.post.table.find a.item.id = some row ∧ row.leaseID = none ∧
      row.runAt = stamp (a.now + (cons i).delay a) := by
  obtain ⟨t, msg, terminal, err, ha, -, hch, row, hf, hd⟩ := hrec
  refine ⟨row, hf, ?_⟩
  rcases row_cases h hk a.item.id with heq | ⟨st, hx, -, hstep⟩
  · exact absurd heq hch
  · rw [ha] at hx
    cases hx with
    | proc hr =>
      cases hr with
      | markFailed =>
        rw [hf] at hch hstep
        generalize k.pre.table.find a.item.id = pre at *
        cases hstep with
        | same => exact absurd rfl hch
        | failed _ _ =>
          refine ⟨rfl, ?_⟩
          simp only [fail] at hd ⊢
          split_ifs at hd ⊢ with hdead
          rfl

/-- The task `id` runs at `D` or later, and whoever holds it claimed it at `D` or
later. -/
structure Waits (D : Int) (id : Nat) (r : Trace ι R) (s : Store) : Prop where
  allocated : id < s.table.nextID
  run : ∀ row, s.table.find id = some row → D ≤ instant row.runAt
  held : ∀ j start task row, Claimed (hist j r) start task → task.id = id →
    s.table.find id = some row → row.leaseID = some task.leaseID → D ≤ start

theorem start_le_ended (h : Run (workers cons) tr c) (hclock : SharedClock tr) (he : e :: r <:+ tr)
    {start : Int} {x : Leased} (hc : Claimed (hist j r) start x)
    (hatt : Attempted (cons j) a (hist j r)) : start ≤ a.ended := by
  obtain ⟨t, limit, tasks, hm, -⟩ := hc
  have hr : r <:+ tr := (suffix_cons _ _).trans he
  obtain ⟨c₀, h₀⟩ := h.of_suffix hr
  have hmem : (⟨a.ended, .handled a.item, a.answer⟩ : Ev R) ∈
      hist j r := hatt.mem (a.handled_mem_events _)
  obtain ⟨e₁, r₁, t₀, hs₁, ha₁, hh₁⟩ := claim_position h₀ hm
  obtain ⟨e₂, hm₂, ha₂⟩ := mem_hist.mp hmem
  obtain ⟨l, r₂, rfl⟩ := append_of_mem hm₂
  have hs₂ : e₂ :: r₂ <:+ l ++ e₂ :: r₂ := ⟨l, rfl⟩
  have hread := claim_reading_le h₀ (hclock.of_suffix hr) hs₁ ha₁
  have hlt : e₁.act.time ≤ e₂.act.time := by
    rcases suffix_trichotomy hs₁ hs₂ with heq | hlt | hlt
    · rw [(List.cons.inj heq).1]
    · exact h₀.time_le hs₂ (hlt.mem mem_cons_self)
    · -- before its claim a drain has only read the clock
      have : (⟨a.ended, .handled a.item, a.answer⟩ : Ev R) ∈
          hist j r₁ := mem_hist.mpr ⟨e₂, hlt.mem mem_cons_self, ha₂⟩
      rw [hh₁] at this
      cases mem_singleton.mp this
  rw [ha₂] at hlt
  exact hread.trans hlt

section Waiting

variable {D : Int} {id : Nat} (h : Run (workers cons) tr c)
include h

/-- A failure recorded while a task waits puts it off further. -/
theorem Waits.put_off {t now : Int} {x : Leased} {msg : String} {terminal : Bool} {err : Option Err}
    {row₀ row : Row} (hclock : SharedClock tr)
    (hend : ∀ k r i a, k :: r <:+ tr → Recorded cons k r i a → DelayedFromEnd (cons i) a)
    (he : e :: r <:+ tr) (hw : Waits D id r e.pre)
    (ha : e.act = .proc j ⟨t, .markFailed x msg terminal now, err⟩) (hid : x.id = id)
    (hpre : e.pre.table.find id = some row₀) (hl : row₀.leaseID = some x.leaseID)
    (hf : e.post.table.find id = some row) (hfree : row.leaseID = none)
    (hlive : row.doneAt = row₀.doneAt) :
    D ≤ instant (stamp (now + (cons j).backoff.next (x.attempts + 1))) := by
  obtain ⟨c₀, c₁, h₀, hst⟩ := h.at_entry he
  have hlog := (run_log h₀).1
  rw [← hst.pre_eq] at hlog
  obtain ⟨s, hc⟩ := claimed_of_mem_items h he ha (mem_singleton_self x)
  obtain ⟨b, a, rest, t', y, -, -, rfl, rfl, -, -, -, hh⟩ := admits h he ha
  have hatt : Attempted (cons j) a (hist j r) := .of_hist hh
  have hD : D ≤ s := hw.held j s a.item row₀ hc hid hpre hl
  have hch : e.post.table.find a.item.id ≠ e.pre.table.find a.item.id := by
    rw [hid, hf, hpre]
    intro heq
    rw [← Option.some.inj heq, hfree] at hl
    cases hl
  have hnone : row.doneAt = none := by
    rw [hlive]
    by_contra hd
    rw [hlog.leaseInv.dead id row₀ hpre hd] at hl
    cases hl
  have hlate : DelayedFromEnd (cons j) a := hend e r j a he
    ⟨t, msg, terminal, err, ha, hatt, hch, row, (congrArg _ hid).trans hf, hnone⟩
  have hended := start_le_ended h hclock he hc hatt
  have hnext := (cons j).backoff.next_nonneg (a.item.attempts + 1)
  unfold DelayedFromEnd Consumer.delay at hlate
  omega

/-- No entry brings the task forward. -/
theorem Waits.run_step (hclock : SharedClock tr)
    (hend : ∀ k r i a, k :: r <:+ tr → Recorded cons k r i a → DelayedFromEnd (cons i) a)
    (he : e :: r <:+ tr) (hw : Waits D id r e.pre) {row : Row}
    (hf : e.post.table.find id = some row) : D ≤ instant row.runAt := by
  rcases row_cases h he id with heq | ⟨st, hx, hadm, hstep⟩
  · exact hw.run row (heq ▸ hf)
  · rw [hf] at hstep
    generalize hpre : e.pre.table.find id = pre at hstep
    cases hstep with
    | same => exact hw.run row hpre
    | inserted hid => exact absurd hw.allocated (by omega)
    | @claimed _ _ _ _ _ _ row₀ _ _ => exact hw.run row₀ hpre
    | @released _ _ row₀ _ _ => exact hw.run row₀ hpre
    | @failed x msg dead now runAt row₀ hid hl =>
      obtain ⟨j, t, terminal, err, ha, hdead, rfl⟩ := executes_markFailed hx
      cases dead with
      | true => exact hw.run row₀ hpre
      | false => exact hw.put_off h hclock hend he ha hid hpre hl hf rfl rfl

/-- Whoever holds the task after an entry claimed it when it was due. -/
theorem Waits.held_step (he : e :: r <:+ tr) (hw : Waits D id r e.pre)
    {start : Int} {task : Leased} {row : Row} (hc : Claimed (hist j (e :: r)) start task)
    (hid : task.id = id) (hf : e.post.table.find id = some row)
    (hl : row.leaseID = some task.leaseID) : D ≤ start := by
  obtain ⟨c₀, c₁, h₀, hst⟩ := h.at_entry he
  obtain ⟨hlog, hiss⟩ := run_log h₀
  rw [← hst.pre_eq] at hlog hiss
  rcases hc.cases with hc' | ⟨t, limit, tasks, ha, ht⟩
  · rcases (entry_cases h he).2 with heq | ⟨st, -, hadm, heq⟩
    · rw [heq] at hf
      exact hw.held j start task row hc' hid hf hl
    · rw [heq] at hf
      rcases lease_cases hf hl with hpre | ⟨hdraw, -⟩
      · exact hw.held j start task row hc' hid hpre hl
      · exact absurd (hlog.leaseInv.drawn task (hiss j start task hc'))
          (not_drawn_of_draws hadm hdraw)
  · -- the claim is this entry, and it took a row that was due
    obtain ⟨leaseID, locked, -, -, hissued⟩ := step_claim hst ha
    rw [← hissued] at ht
    obtain ⟨_, _, _, _, _, _, row₀, hs, hf₀, hready, -, -⟩ := mem_issued ht
    cases hs
    have hdue := le_stamp_iff.mp (ready_iff.mp hready).2.2.1
    exact (hw.run row₀ (hid ▸ hf₀)).trans hdue

theorem Waits.step (hclock : SharedClock tr)
    (hend : ∀ k r i a, k :: r <:+ tr → Recorded cons k r i a → DelayedFromEnd (cons i) a)
    (he : e :: r <:+ tr) (hw : Waits D id r e.pre) : Waits D id (e :: r) e.post where
  allocated := by
    rcases (entry_cases h he).2 with heq | ⟨st, -, -, heq⟩
    · rw [heq]
      exact hw.allocated
    · rw [heq]
      exact lt_of_lt_of_le hw.allocated (nextID_le_exec st _)
  run _ hf := hw.run_step h hclock hend he hf
  held _ _ _ _ hc hid hf hl := hw.held_step h he hc hid hf hl

end Waiting

/-- In a run whose recorded failures are all delayed from the end of their handler, no
claim returns the task before the end of the handler plus the backoff. -/
theorem backoff_respected (h : Run (workers cons) tr c) (hclock : SharedClock tr)
    (hend : ∀ k r i a, k :: r <:+ tr → Recorded cons k r i a → DelayedFromEnd (cons i) a) :
    ∀ k r i a e r' j t now limit tasks task, k :: r <:+ r' → e :: r' <:+ tr →
      Recorded cons k r i a → e.act = .proc j ⟨t, .claim now limit, .ok tasks⟩ → task ∈ tasks →
      task.id = a.item.id → a.ended + (cons i).delay a ≤ now := by
  intro k r i a e r' j t now limit tasks task hk he hrec ha ht hid
  have hr' : r' <:+ tr := (suffix_cons _ _).trans he
  obtain ⟨c₀, c₁, h₀, hst⟩ := h.at_entry he
  have hwaits : Waits (a.ended + (cons i).delay a) a.item.id r' c₀.store := by
    refine h₀.since hk ?_ fun e' r'' he' _ hw => hw.step h hclock hend (he'.trans hr')
    obtain ⟨row, hf, hfree, hrun⟩ := hrec.row h (hk.trans hr')
    refine ⟨Table.lt_of_find _ hf, ?_, ?_⟩
    · intro row' hf'
      obtain rfl := Option.some.inj (hf.symm.trans hf')
      rw [hrun]
      exact hend k r i a (hk.trans hr') hrec
    · intro j start task row' _ _ hf' hl
      obtain rfl := Option.some.inj (hf.symm.trans hf')
      rw [hfree] at hl
      cases hl
  obtain ⟨leaseID, locked, -, -, hissued⟩ := step_claim hst ha
  rw [← hissued] at ht
  obtain ⟨_, _, _, _, _, _, row, hs, hf, hready, -, -⟩ := mem_issued ht
  cases hs
  rw [hst.pre_eq, hid] at hf
  exact (hwaits.run row hf).trans (le_stamp_iff.mp (ready_iff.mp hready).2.2.1)

end Retry

section Retried

/-- The failed attempt of `failedScript`. -/
def failedAttempt (ended : Int) : Attempt Int Leased Outcome where
  item := mailTask
  polled := 0
  checked := 0
  check := 0
  read := 0
  now := 0
  opened := 0
  began := 0
  ended := ended
  answer := .returned (some (.text "refused"))
  closed := ended
  asked := 0
  verdict := none

theorem retriedRun_recorded (ended later : Int) : ∃ k r e e',
    retriedRun ended later = e' :: e :: k :: r ∧
    e'.act = .proc true ⟨later, .claim later 1, .ok [retriedTask]⟩ ∧
    Recorded (fun _ : Bool => plainConsumer) k r false (failedAttempt ended) := by
  refine ⟨_, _, _, _, rfl, rfl, ended, "refused", false, none, rfl, ?_, ?_, ?_⟩
  · exact ⟨[⟨ended, .withTimeout markTimeout, ()⟩],
      [⟨0, .claim 0 1, .ok [mailTask]⟩, ⟨0, .now, 0⟩], rfl⟩
  · change failedStore.table.find 1 ≠ claimedStore.table.find 1
    decide +kernel
  · exact ⟨_, rfl, rfl⟩

/-- A handler fails after 20s. The backoff is 2s, and one second later the task is
claimed again. -/
theorem claimed_before_backoff : ∃ (tr : Trace Bool Outcome)
    (c : Moment Bool Outcome),
    Run (workers fun _ => plainConsumer) tr c ∧ SharedClock tr ∧
    ∃ k r i a e r' j t now limit tasks task, k :: r <:+ r' ∧ e :: r' <:+ tr ∧
      Recorded (fun _ => plainConsumer) k r i a ∧
      e.act = .proc j ⟨t, .claim now limit, .ok tasks⟩ ∧ task ∈ tasks ∧ task.id = a.item.id ∧
      now < a.ended + plainConsumer.delay a := by
  obtain ⟨c, h⟩ := retriedRun_runs (20 * second) (21 * second) (by decide +kernel) rfl (by decide)
  have hclock : SharedClock (retriedRun (20 * second) (21 * second)) := by
    simp [SharedClock, retriedRun, retriedScript, failedScript, startedScript, Script.record]
  obtain ⟨k, r, e, e', hrun, hact, hrec⟩ := retriedRun_recorded (20 * second) (21 * second)
  rw [hrun] at h hclock
  exact ⟨_, c, h, hclock, k, r, false, _, e', e :: k :: r, true, 21 * second, 21 * second, 1,
    [retriedTask], retriedTask, suffix_cons _ _, suffix_refl _, hrec, hact,
    mem_singleton_self _, rfl, by decide⟩

/-- A handler that fails at once: the task is claimed again when its 2s have passed. -/
theorem backoff_respected_at_once : ∃ (tr : Trace Bool Outcome)
    (c : Moment Bool Outcome),
    Run (workers fun _ => plainConsumer) tr c ∧ SharedClock tr ∧
    (failedAttempt 0).ended + plainConsumer.delay (failedAttempt 0) ≤ 2 * second := by
  obtain ⟨c, h⟩ := retriedRun_runs 0 (2 * second) (by decide +kernel) rfl (by decide)
  have hclock : SharedClock (retriedRun 0 (2 * second)) := by
    simp [SharedClock, retriedRun, retriedScript, failedScript, startedScript, Script.record]
  have hacts : ∀ k ∈ retriedRun 0 (2 * second),
      k.act ∈ (retriedScript 0 (2 * second)).map Prod.fst :=
    fun k hk => (Script.act_mem_record hk).resolve_left not_mem_nil
  have hread : ∀ i t x msg terminal now err, .proc i ⟨t, .markFailed x msg terminal now, err⟩ ∈
      (retriedScript 0 (2 * second)).map Prod.fst → now = 0 := by
    simp +contextual [retriedScript, failedScript, startedScript]
  have hended : ∀ i t x answer, .proc i ⟨t, .handled x, answer⟩ ∈
      (retriedScript 0 (2 * second)).map Prod.fst → t = 0 := by
    simp +contextual [retriedScript, failedScript, startedScript]
  have hend : ∀ k r i a, k :: r <:+ retriedRun 0 (2 * second) →
      Recorded (fun _ => plainConsumer) k r i a → DelayedFromEnd plainConsumer a := by
    rintro k r i a hk ⟨t, msg, terminal, err, ha, hatt, -, -⟩
    obtain ⟨e, he, hact⟩ := mem_hist.mp (hatt.mem (a.handled_mem_events _))
    have h₁ := hread _ _ _ _ _ _ _ (ha ▸ hacts k (hk.mem mem_cons_self))
    have h₂ := hended _ _ _ _ (hact ▸ hacts e (hk.mem (mem_cons_of_mem _ he)))
    rw [DelayedFromEnd, h₁, h₂]
    change 0 + 2 * second ≤ instant (stamp (0 + 2 * second))
    decide
  obtain ⟨k, r, e, e', hrun, hact, hrec⟩ := retriedRun_recorded 0 (2 * second)
  refine ⟨_, c, h, hclock, ?_⟩
  exact backoff_respected h hclock hend k r false _ e' (e :: k :: r) true _ _ _ _ retriedTask
    (suffix_cons _ _) (by rw [hrun]) hrec hact (mem_singleton_self _) rfl

end Retried

end Skit.Queue
