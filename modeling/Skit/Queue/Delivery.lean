import Skit.Queue.Workers

/-!
# No task is lost

Over whole runs of the workers: a row leaves the table only when an attempt on its
task ended well or when its dead letter is a week old, a task dies only of a
permanent error or of its last attempt, and a key is taken again only after the
task that held it has left.
-/
namespace Skit.Queue
open Lib Worker Table List

section Delivery

variable {ι R : Type} [DecidableEq ι] {a : Attempt Int Leased R} (cons : ι → Consumer R)

/-- `a` is one of the attempts that the drain with history `h` made. -/
def Attempted (c : Consumer R) (a : Attempt Int Leased R) (h : History R) : Prop :=
  a.events c.processor <:+: h

theorem Attempted.of_hist {c : Consumer R} {h h' : History R}
    {ev : Ev R} (hh : h = ev :: (a.events c.processor ++ h')) :
    Attempted c a h :=
  ⟨[ev], h', by simp [hh]⟩

/-- The entry `e` removed the row by `markDone`, under the lease of a claim whose
attempt ended well: the handler returned nil, or its error is or wraps a recovered
panic and `OnPanic` returned nil. -/
def DoneBy (e : Point ι R) (r : Trace ι R) (id : Nat)
    (row : Row) : Prop :=
  ∃ i t err, ∃ a : Attempt Int Leased R,
    e.act = .proc i ⟨t, .markDone a.item a.now, err⟩ ∧ a.item.id = id ∧
    row.leaseID = some a.item.leaseID ∧ (∃ start, Claimed (hist i r) start a.item) ∧
    Attempted (cons i) a (hist i r) ∧
    ((cons i).h a.item.toTask a.answer = .returned none ∨
      a.panic (cons i).processor ≠ none ∧ (cons i).onPanic = true ∧ a.verdict = none)

/-- The entry `k` killed the task of attempt `a`: the outcome was permanent, or it
was the last attempt of a positive `MaxAttempts`. -/
def KilledBy (k : Point ι R) (r : Trace ι R) (id : Nat)
    (a : Attempt Int Leased R) : Prop :=
  ∃ i t msg terminal err, k.act = .proc i ⟨t, .markFailed a.item msg terminal a.now, err⟩ ∧
    a.item.id = id ∧ Attempted (cons i) a (hist i r) ∧
    ((∃ e, a.outcome (cons i).processor = some e ∧ isPermanent e = true) ∨
      0 < (cons i).backoff.maxAttempts ∧ (cons i).backoff.maxAttempts ≤ a.item.attempts + 1)

/-- The entry `e` removed the row as a cleaner does, a week after the attempt that
killed its task was started. -/
def CleanedBy (tr : Trace ι R) (e : Point ι R)
    (r : Trace ι R) (id : Nat) : Prop :=
  ∃ t queue now, e.act = .env t (.cleanup queue now) ∧ ∃ k r' a, k :: r' <:+ r ∧
    KilledBy cons k r' id a ∧ a.now + deadRetention < now ∧
    (SharedClock tr → a.read + deadRetention < t)

/-- The row of `id` leaves the table at `e`: it was done, or it was dead and a cleaner
removed it. -/
def Left (tr : Trace ι R) (e : Point ι R)
    (r : Trace ι R) (id : Nat) : Prop :=
  ∃ row, e.pre.table.find id = some row ∧ e.post.table.find id = none ∧
    (DoneBy cons e r id row ∨ row.doneAt ≠ none ∧ CleanedBy cons tr e r id)

variable {cons} {tr r : Trace ι R}
  {c : Moment ι R}
  {e : Point ι R} {id : Nat} {row row' : Row}

theorem outcome_none {c : Consumer R}
    (h : a.outcome c.processor = none) : c.h a.item.toTask a.answer = .returned none ∨
      a.panic c.processor ≠ none ∧ c.onPanic = true ∧ a.verdict = none := by
  unfold Attempt.outcome at h
  split at h
  · left
    change safetickCall (c.h a.item.toTask a.answer) = none at h
    cases ho : c.h a.item.toTask a.answer with
    | returned err => rw [ho] at h; rw [show err = none from h]
    | panicked v => rw [ho] at h; cases h
  · rename_i v hp
    right
    rw [Consumer.processor_onPanic] at h
    by_cases hc : c.onPanic = true
    · rw [if_pos hc] at h
      exact ⟨by simp [hp], hc, h⟩
    · rw [if_neg hc] at h
      cases h

section

variable (h : Run (workers cons) tr c)
include h

theorem killed_of_dies (he : e :: r <:+ tr)
    (hpost : e.post.table.find id = some row') {d : Int} (hd : row'.doneAt = some d)
    (hpre : ∀ row, e.pre.table.find id = some row → row.doneAt = none) :
    ∃ a, KilledBy cons e r id a ∧ d = stamp a.now := by
  have halive : ∀ row, e.pre.table.find id = some row → row.doneAt = some d → False := by
    intro row hrow hd'
    rw [hpre row hrow] at hd'
    cases hd'
  rcases row_cases h he id with heq | ⟨st, hx, -, hstep⟩
  · exact (halive row' (heq ▸ hpost) hd).elim
  · rw [hpost] at hstep
    generalize e.pre.table.find id = pre at *
    cases hstep with
    | same => exact (halive row' rfl hd).elim
    | inserted _ => cases hd
    | @claimed _ _ _ _ _ _ row _ _ => exact (halive row rfl hd).elim
    | @released _ _ row _ _ => exact (halive row rfl hd).elim
    | @failed task errMsg dead now runAt row hid hl =>
      obtain ⟨i, t, terminal, err, ha, hdead, -⟩ := executes_markFailed hx
      obtain ⟨b, a, rest, t', x, -, -, rfl, rfl, ho, -, hterm, hh⟩ := admits h he ha
      have hatt := Attempted.of_hist hh
      cases dead with
      | false => exact (halive row rfl hd).elim
      | true =>
        refine ⟨a, ⟨i, t, errMsg, terminal, err, ha, hid, hatt, ?_⟩, (Option.some.inj hd).symm⟩
        cases terminal with
        | true => exact .inl ⟨x, ho, hterm.symm⟩
        | false => exact .inr (by simpa [Backoff.exhausted] using hdead.symm)

/-- Every dead row of a run was killed by an attempt whose reading it keeps. -/
theorem dead_was_killed {d : Int}
    (hf : c.store.table.find id = some row) (hd : row.doneAt = some d) :
    ∃ k r a, k :: r <:+ tr ∧ KilledBy cons k r id a ∧ d = stamp a.now := by
  refine h.invariant (fun tr s => ∀ id row d, s.table.find id = some row → row.doneAt = some d →
    ∃ k r a, k :: r <:+ tr ∧ KilledBy cons k r id a ∧ d = stamp a.now) ?_ ?_ id row d hf hd
  · rintro s rfl id row d hf
    cases hf
  · intro tr c e c' _ h' hst ih id row d hf hd
    obtain ⟨hpre, -⟩ := step_cases hst
    rw [← hpre] at ih
    by_cases hold : ∃ row₀, e.pre.table.find id = some row₀ ∧ row₀.doneAt ≠ none
    · -- a dead row keeps what killed it
      obtain ⟨row₀, hf₀, hd₀⟩ := hold
      have hsame : row₀.doneAt = some d := by
        rcases row_cases h' (suffix_refl _) id with heq | ⟨st, hx, -, hstep⟩
        · rw [← heq, hf] at hf₀
          rwa [← Option.some.inj hf₀]
        · have hlog := (entry_cases h' (suffix_refl _)).1
          have hfree := hlog.leaseInv.dead id row₀ hf₀ hd₀
          rw [hf₀, hf] at hstep
          cases hstep with
          | same => exact hd
          | claimed hready _ => exact absurd (ready_iff.mp hready).2.1 hd₀
          | failed _ hl => rw [hfree] at hl; cases hl
          | released _ _ => exact hd
      obtain ⟨k, r, a, hs, hk⟩ := ih id row₀ d hf₀ hsame
      exact ⟨k, r, a, hs.trans (suffix_cons _ _), hk⟩
    · have hnone : ∀ row, e.pre.table.find id = some row → row.doneAt = none := by
        intro row₀ hf₀
        by_contra hd₀
        exact hold ⟨row₀, hf₀, hd₀⟩
      obtain ⟨a, hk, hda⟩ := killed_of_dies h' (suffix_refl _) hf hd hnone
      exact ⟨e, tr, a, suffix_refl _, hk, hda⟩

/-- A row that leaves the table was done or cleaned. -/
theorem left_of_gone (he : e :: r <:+ tr)
    (hpre : e.pre.table.find id = some row) (hpost : e.post.table.find id = none) :
    Left cons tr e r id := by
  refine ⟨row, hpre, hpost, ?_⟩
  rcases row_cases h he id with heq | ⟨st, hx, -, hstep⟩
  · rw [hpre, hpost] at heq
    cases heq
  · rw [hpre, hpost] at hstep
    cases hstep with
    | @done task _ hid hl =>
      left
      obtain ⟨i, t, now, err, ha⟩ := executes_markDone hx
      have hclaim := claimed_of_mem_items h he ha (mem_singleton_self task)
      obtain ⟨b, a, rest, t', -, -, rfl, rfl, ho, hh⟩ := admits h he ha
      exact ⟨i, t, err, a, ha, hid, hl, hclaim, .of_hist hh, outcome_none ho⟩
    | @cleaned queue before _ hs =>
      right
      obtain ⟨t, now, ha, rfl⟩ := executes_cleanup hx
      obtain ⟨hq, hstale⟩ : row.queue = queue ∧
          ∃ d, row.doneAt = some d ∧ d < stamp (now - deadRetention) := by
        simpa [stale, Option.any_eq_true] using hs
      obtain ⟨d, hd, hlt⟩ := hstale
      obtain ⟨c₀, c₁, h₀, hst⟩ := h.at_entry he
      rw [(step_cases hst).1] at hpre
      obtain ⟨k, r', a, hk, hkill, rfl⟩ := dead_was_killed h₀ hpre hd
      have hweek : a.now + deadRetention < now := by
        have := lt_of_stamp_lt hlt
        omega
      refine ⟨by simp [hd], t, queue, now, ha, k, r', a, hk, hkill, hweek, fun hclock => ?_⟩
      obtain ⟨j, -, -, -, -, -, -, hatt, -⟩ := hkill
      have hread : a.now = a.read := by
        refine (hclock.of_suffix (r := r') ?_).now_eq (hatt.mem (a.now_mem_events _))
        exact (suffix_cons _ _).trans (hk.trans ((suffix_cons _ _).trans he))
      have hnow : now ≤ t := by
        have := hclock e (he.mem mem_cons_self)
        rwa [ha] at this
      omega

theorem gone_for_good {e' : Point ι R} {r' : Trace ι R} (he : e :: r <:+ r') (he' : e' :: r' <:+ tr)
    (hpre : e.pre.table.find id = some row) (hpost : e.post.table.find id = none) :
    e'.post.table.find id = none := by
  let P : Store → Prop := fun s => s.table.find id = none ∧ id < s.table.nextID
  have hkeep : ∀ b l, b :: l <:+ tr → P b.pre → P b.post := by
    rintro b l hb ⟨hnone, hlt⟩
    rcases (entry_cases h hb).2 with heq | ⟨st, -, -, heq⟩
    · rw [heq]
      exact ⟨hnone, hlt⟩
    · rw [heq]
      refine ⟨?_, lt_of_lt_of_le hlt (nextID_le_exec st _)⟩
      have hstep := exec_rowStep st b.pre.table id
      change (st.exec b.pre.table).2.find id = none
      rw [hnone] at hstep
      generalize (st.exec b.pre.table).2.find id = post at hstep
      cases hstep with
      | same => rfl
      | inserted hid => omega
  have hP : P e.post := by
    refine ⟨hpost, ?_⟩
    rcases (entry_cases h (he.trans ((suffix_cons _ _).trans he'))).2
      with heq | ⟨st, -, -, heq⟩
    · rw [heq, hpre] at hpost
      cases hpost
    · rw [heq]
      exact lt_of_lt_of_le (Table.lt_of_find _ hpre) (nextID_le_exec st _)
  obtain ⟨c', h'⟩ := h.of_suffix he'
  have hlast := h'.since (P := fun _ s => P s) (he.trans (suffix_cons _ _)) hP
    fun b l hb _ hpre => hkeep b l (hb.trans he') hpre
  cases h' with
  | step _ _ hst =>
    rw [hst.post_eq] at hlast
    exact hlast.1

/-- Between two tasks of one key, the first has left. -/
theorem key_freed {e₁ e₂ : Point ι R} {r₁ r₂ : Trace ι R}
    {t₁ now₁ now₂ dbNow₁ dbNow₂ : Int} {p₁ p₂ : Params}
    (he₁ : e₁ :: r₁ <:+ r₂) (he₂ : e₂ :: r₂ <:+ tr)
    (ha₁ : e₁.act = .env t₁ (.schedule p₁ now₁ dbNow₁))
    (hq : p₁.queue = p₂.queue) (hk : p₁.key = p₂.key) (hne : p₁.key ≠ "")
    (hok₁ : (e₁.pre.table.insert p₁ now₁ dbNow₁).1 = .ok true)
    (hok₂ : (e₂.pre.table.insert p₂ now₂ dbNow₂).1 = .ok true) :
    ∃ e r, e :: r <:+ r₂ ∧ e₁ :: r₁ <:+ r ∧ Left cons tr e r e₁.pre.table.nextID := by
  let P : Store → Prop := fun s => ∃ row, s.table.find e₁.pre.table.nextID = some row ∧
    row.queue = p₁.queue ∧ row.key = some p₁.key
  have hP : P e₁.post := by
    obtain ⟨_, _, _, hst⟩ := h.at_entry (he₁.trans ((suffix_cons _ _).trans he₂))
    rw [step_env hst ha₁]
    exact ⟨_, (insert_true hok₁).1, rfl, by simp [newRow, hne]⟩
  have hn : ¬ P e₂.pre := by
    rintro ⟨row, hf, hrq, hrk⟩
    refine (insert_true hok₂).2 row (Table.find_eq_some _ |>.mp hf).1 ⟨?_, ?_, ?_⟩
    · rw [hrq]; exact hq.symm
    · rw [hrk, hk]; simp [newRow, hk ▸ hne]
    · simp [newRow, hk ▸ hne]
  obtain ⟨b, l, hb, hl, ⟨row, hf, hrq, hrk⟩, hnb⟩ := h.exists_break he₂ he₁ hP hn
  have hb' : b :: l <:+ tr := hb.trans ((suffix_cons _ _).trans he₂)
  refine ⟨b, l, hb, hl, ?_⟩
  cases hpost : b.post.table.find e₁.pre.table.nextID with
  | none => exact left_of_gone h hb' hf hpost
  | some row' =>
    refine absurd ⟨row', hpost, ?_⟩ hnb
    rcases row_cases h hb' e₁.pre.table.nextID with heq | ⟨st, -, -, hstep⟩
    · rw [heq, hf] at hpost
      rw [← Option.some.inj hpost]
      exact ⟨hrq, hrk⟩
    · rw [hf, hpost] at hstep
      exact ⟨hstep.keeps.1.trans hrq, hstep.keeps.2.trans hrk⟩

end

/-- No task is lost or resurrected: a row leaves the table only done or cleaned and
does not come back, a task dies only of a permanent outcome or of its last attempt,
and a key is free again only after its task has left. -/
theorem task_not_lost (h : Run (workers cons) tr c) :
    (∀ e r id row, e :: r <:+ tr → e.pre.table.find id = some row →
      e.post.table.find id = none → Left cons tr e r id ∧
        ∀ e' r', e :: r <:+ r' → e' :: r' <:+ tr → e'.post.table.find id = none) ∧
    (∀ e r id row row', e :: r <:+ tr → e.pre.table.find id = some row → row.doneAt = none →
      e.post.table.find id = some row' → row'.doneAt ≠ none → ∃ a, KilledBy cons e r id a) ∧
    (∀ e₁ r₁ e₂ r₂ t₁ t₂ p₁ p₂ now₁ now₂ dbNow₁ dbNow₂, e₁ :: r₁ <:+ r₂ → e₂ :: r₂ <:+ tr →
      e₁.act = .env t₁ (.schedule p₁ now₁ dbNow₁) → e₂.act = .env t₂ (.schedule p₂ now₂ dbNow₂) →
      p₁.queue = p₂.queue → p₁.key = p₂.key → p₁.key ≠ "" →
      (e₁.pre.table.insert p₁ now₁ dbNow₁).1 = .ok true →
      (e₂.pre.table.insert p₂ now₂ dbNow₂).1 = .ok true →
      ∃ e r, e :: r <:+ r₂ ∧ e₁ :: r₁ <:+ r ∧ Left cons tr e r e₁.pre.table.nextID) := by
  refine ⟨?_, ?_, ?_⟩
  · intro e r id row he hpre hpost
    exact ⟨left_of_gone h he hpre hpost, fun e' r' hr he' => gone_for_good h hr he' hpre hpost⟩
  · intro e r id row row' he hpre halive hpost hd
    obtain ⟨d, hd⟩ := Option.ne_none_iff_exists'.mp hd
    obtain ⟨a, hk, -⟩ := killed_of_dies h he hpost hd fun row₀ hf₀ => by
      rwa [← Option.some.inj (hpre.symm.trans hf₀)]
    exact ⟨a, hk⟩
  · intro e₁ r₁ e₂ r₂ t₁ t₂ p₁ p₂ now₁ now₂ dbNow₁ dbNow₂ he₁ he₂ ha₁ _ hq hk hne hok₁ hok₂
    exact key_freed h he₁ he₂ ha₁ hq hk hne hok₁ hok₂

end Delivery

section Returned

/-- A consumer whose handler returns the panic that it recovered itself, and whose
`OnPanic` decides what becomes of it. -/
def recoveringConsumer : Consumer Unit where
  cfg := Config.withDefaults ⟨"mail", 0, 0, 0, 0⟩
  h := fun _ _ => .returned (some (.wrap "send: panic: nil map" (.panicError "nil map")))
  backoff := ⟨0, fun _ => 0, fun _ => le_refl _⟩
  onPanic := true
  sanitize := fun msg => msg

def recoveredTask : Leased := ⟨⟨1, "mail", "send", "", [], 0, 0, 0, ""⟩, "a"⟩

def recoveredScript : Script Unit Int (Call Leased) (Ans Leased Unit) Env Store :=
  [(.env 0 (.schedule ⟨"mail", "send", "", [], 0⟩ 0 0),
      (·.run (.schedule ⟨"mail", "send", "", [], 0⟩ 0 0))),
    (.proc () ⟨1, .now, 1⟩, id),
    (.proc () ⟨1, .claim 1 1, .ok [recoveredTask]⟩,
      (·.run (recoveringConsumer.claim 1 1 "a" fun _ => false))),
    (.proc () ⟨1, .ctxErr, false⟩, id), (.proc () ⟨1, .now, 1⟩, id),
    (.proc () ⟨1, .now, 1⟩, id), (.proc () ⟨1, .withTimeout (30 * second), ()⟩, id),
    (.proc () ⟨1, .handle recoveredTask, ()⟩, id), (.proc () ⟨2, .handled recoveredTask, ()⟩, id),
    (.proc () ⟨2, .cancel, ()⟩, id), (.proc () ⟨2, .onPanic recoveredTask "nil map", none⟩, id),
    (.proc () ⟨2, .withTimeout markTimeout, ()⟩, id),
    (.proc () ⟨3, .markDone recoveredTask 1, none⟩, (·.run (.markDone recoveredTask)))]

/-- The run of the script, latest entry first. -/
def recoveredRun : Trace Unit Unit := recoveredScript.record ⟨.empty, []⟩ []

theorem recoveredRun_runs : ∃ c, Run (workers fun _ => recoveringConsumer) recoveredRun c := by
  have hplay :
      (recoveredScript.playAll (workers fun _ => recoveringConsumer).prog).isSome = true := by
    decide +kernel
  have hfits : recoveredScript.Fits (workers fun _ => recoveringConsumer) ⟨.empty, []⟩ := by
    refine ⟨rfl, .inside rfl, .replied (.claim "a" fun _ => false) ?_ .claim, .inside rfl,
      .inside rfl, .inside rfl, .inside rfl, .inside rfl, .inside rfl, .inside rfl, .inside rfl,
      .inside rfl, .replied .markDone trivial .markDone, trivial⟩
    simp [Consumer.claim, Sent, Drawn, Store.run, Stmt.entry, Stmt.draws]
  exact (Run.init rfl).extend hplay hfits (by decide) (by simp)

/-- The last entry removes the task, and the handler of the run returns an error
whatever happens: it neither returns nil nor panics. -/
theorem done_after_returned_error : ∃ (cons : Unit → Consumer Unit) (tr : Trace Unit Unit)
    (c : Moment Unit Unit),
    Run (workers cons) tr c ∧
    (∀ i task answer, ∃ err, (cons i).h task answer = .returned (some err)) ∧
    ∃ e r i t now err, e :: r <:+ tr ∧ e.act = .proc i ⟨t, .markDone recoveredTask now, err⟩ ∧
      (e.pre.table.find recoveredTask.id).isSome = true ∧
      e.post.table.find recoveredTask.id = none := by
  obtain ⟨c, h⟩ := recoveredRun_runs
  refine ⟨_, recoveredRun, c, h, fun _ _ _ => ⟨_, rfl⟩, ?_⟩
  exact ⟨_, _, (), 3, 1, none,
    suffix_refl (recoveredRun.head (by decide) :: recoveredRun.tail), rfl, by decide +kernel,
    by decide +kernel⟩

/-- The same run, seen by the theorem: the task was removed by an attempt whose error
carries a panic and whose `OnPanic` returned nil. -/
theorem task_not_lost_recovered : ∃ e r, e :: r = recoveredRun ∧
    Left (fun _ : Unit => recoveringConsumer) recoveredRun e r recoveredTask.id := by
  obtain ⟨c, h⟩ := recoveredRun_runs
  refine ⟨recoveredRun.head (by decide), recoveredRun.tail, by simp, ?_⟩
  have hrow : (recoveredRun.head (by decide)).pre.table.find recoveredTask.id =
      some (lend "a" 1 (newRow 1 ⟨"mail", "send", "", [], 0⟩ 0 0)) := by decide +kernel
  exact ((task_not_lost h).1 _ _ _ _ (by simp) hrow (by decide +kernel)).1

end Returned

end Skit.Queue
