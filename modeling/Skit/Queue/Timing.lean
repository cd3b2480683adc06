import Skit.Queue.Workers

/-!
# Leases in time

On one clock, a drain that keeps its time holds the lease on a task until it has
marked it. `Timely` collects what is assumed of the world: how long handlers, marks
and the steps before a handler take; `Prompt` is about what lies between a handler and
its mark, an `OnPanic` without a timeout among it. Claims may take any time. The lease
of `3 × Timeout + 10s` is counted from the reading before the claim: one `Timeout`
until the last item is checked, one until its handler starts, one for the handler,
and ten seconds to settle.
-/
namespace Skit.Queue
open Lib Worker Table List

section Claims

variable {ι R : Type} [DecidableEq ι] {cons : ι → Consumer R} {tr r : Trace ι R}
  {c : Moment ι R}
  {e e' : Point ι R} {i j : ι} (h : Run (workers cons) tr c)
include h

variable {t start limit : Int} {tasks : List Leased} {task task' : Leased}

theorem claim_position (hm : (⟨t, .claim start limit, .ok tasks⟩ : Ev R) ∈ hist i tr) :
    ∃ e r t₀, e :: r <:+ tr ∧ e.act = .proc i ⟨t, .claim start limit, .ok tasks⟩ ∧
      hist i r = [⟨t₀, .now, start⟩] := by
  obtain ⟨e, r, hs, ha⟩ := exists_entry hm
  obtain ⟨t₀, hh, -⟩ := admits h hs ha
  exact ⟨e, r, t₀, hs, ha, hh⟩

theorem claim_unique {t t' start start' limit limit' : Int} {tasks tasks' : List Leased}
    (hm : (⟨t, .claim start limit, .ok tasks⟩ : Ev R) ∈ hist i tr)
    (hm' : (⟨t', .claim start' limit', .ok tasks'⟩ : Ev R) ∈
      hist i tr) : start = start' ∧ tasks = tasks' := by
  obtain ⟨e, r, t₀, hs, ha, hh⟩ := claim_position h hm
  obtain ⟨e', r', t₀', hs', ha', hh'⟩ := claim_position h hm'
  have hsuf := hist_suffix (i := i) hs
  have hsuf' := hist_suffix (i := i) hs'
  rw [hist_cons_self ha, hh] at hsuf
  rw [hist_cons_self ha', hh'] at hsuf'
  have heq := (suffix_of_suffix_length_le hsuf hsuf' (by simp)).eq_of_length (by simp)
  cases (List.cons.inj heq).1
  exact ⟨rfl, rfl⟩

/-- The claim of a drain issued its tasks under one lease id, drawn by it, and no task
twice. -/
theorem claim_issued (he : e :: r <:+ tr)
    (ha : e.act = .proc i ⟨t, .claim start limit, .ok tasks⟩) :
    ∃ L, ¬ Drawn e.pre.log L ∧ (tasks.map (·.id)).Nodup ∧ ∀ task ∈ tasks, task.leaseID = L ∧
      ∃ row, e.post.table.find task.id = some row ∧ row.leaseID = some L ∧
        row.leasedAt = some (stamp start) ∧ row.queue = (cons i).cfg.queue := by
  obtain ⟨c₀, c₁, h₀, hst⟩ := h.at_entry he
  obtain ⟨leaseID, locked, hdrawn, hpost, hissued⟩ := step_claim hst ha
  refine ⟨leaseID, hdrawn, ?_, fun task ht => ?_⟩
  · change (Reply.claimed _).issued = _ at hissued
    generalize hr : (e.pre.table.claim (cons i).cfg.queue start (cons i).cfg.lease limit leaseID
      locked).1 = reply at hissued
    cases reply with
    | error err => rw [← hissued]; exact nodup_nil
    | ok tasks' =>
      obtain rfl : tasks' = tasks := hissued
      exact claim_nodup hr
  · rw [← hissued] at ht
    obtain ⟨queue, now, lease, limit, L, locked', row, hs, -, hready, htask, hf⟩ := mem_issued ht
    cases hs
    rw [hpost]
    exact ⟨by rw [htask]; rfl, _, hf, rfl, rfl, (ready_iff.mp hready).1⟩

theorem drain_of_lease {s s' : Int}
    (hc : Claimed (hist i tr) s task) (hc' : Claimed (hist j tr) s' task')
    (hl : task.leaseID = task'.leaseID) : i = j := by
  -- the later of two claims draws an id that is not yet in the log
  have horder : ∀ {i j : ι} {s s' : Int} {task task' : Leased}
      {e e' : Point ι R} {r r' : Trace ι R}
      {t t' limit limit' : Int} {tasks tasks' : List Leased},
      e :: r <:+ r' → e' :: r' <:+ tr → e.act = .proc i ⟨t, .claim s limit, .ok tasks⟩ →
      e'.act = .proc j ⟨t', .claim s' limit', .ok tasks'⟩ → task ∈ tasks → task' ∈ tasks' →
      task.leaseID ≠ task'.leaseID := by
    intro i j s s' task task' e e' r r' t t' limit limit' tasks tasks' hs hs' ha ha' ht ht' heq
    obtain ⟨L, hfresh, -, hL⟩ := claim_issued h hs' ha'
    obtain ⟨c₀, c₁, h₀, hst⟩ := h.at_entry hs'
    obtain ⟨hlog, hiss⟩ := run_log h₀
    have hclaimed : Claimed (hist i r') s task :=
      ⟨t, limit, tasks, mem_hist.mpr ⟨e, hs.mem mem_cons_self, ha⟩, ht⟩
    rw [hst.pre_eq, ← (hL task' ht').1, ← heq] at hfresh
    exact hfresh (hlog.leaseInv.drawn task (hiss i s task hclaimed))
  obtain ⟨t, limit, tasks, hm, ht⟩ := hc
  obtain ⟨t', limit', tasks', hm', ht'⟩ := hc'
  obtain ⟨e, r, _, hs, ha, -⟩ := claim_position h hm
  obtain ⟨e', r', _, hs', ha', -⟩ := claim_position h hm'
  rcases suffix_trichotomy hs hs' with heq | hlt | hlt
  · obtain ⟨rfl, rfl⟩ := List.cons.inj heq
    exact (Act.proc.inj (ha.symm.trans ha')).1
  · exact absurd hl (horder hlt hs' ha ha' ht ht')
  · exact absurd hl.symm (horder hlt hs ha' ha ht' ht)

theorem claimed_eq {s s' : Int}
    (hc : Claimed (hist i tr) s task) (hc' : Claimed (hist i tr) s' task') :
    s = s' ∧ task.leaseID = task'.leaseID := by
  obtain ⟨t, limit, tasks, hm, ht⟩ := hc
  obtain ⟨t', limit', tasks', hm', ht'⟩ := hc'
  obtain ⟨rfl, rfl⟩ := claim_unique h hm hm'
  obtain ⟨e, r, _, hs, ha, -⟩ := claim_position h hm
  obtain ⟨L, -, -, hL⟩ := claim_issued h hs ha
  exact ⟨rfl, (hL task ht).1.trans (hL task' ht').1.symm⟩

end Claims

section Holding

variable {ι R : Type} {cons : ι → Consumer R} {task : Leased}

/-- The consumers of a queue have one positive `Timeout`, whose lease is a duration. -/
structure SharedConfig (cons : ι → Consumer R) : Prop where
  timeout : ∀ i j, (cons i).cfg.queue = (cons j).cfg.queue →
    (cons i).cfg.timeout = (cons j).cfg.timeout
  pos : ∀ i, 0 < (cons i).cfg.timeout
  range : ∀ i, 3 * (cons i).cfg.timeout + 10 * second < 2 ^ 63

theorem SharedConfig.lease_eq (hcfg : SharedConfig cons) (i : ι) :
    (cons i).cfg.lease = 3 * (cons i).cfg.timeout + 10 * second := by
  have hpos := hcfg.pos i
  have hrange := hcfg.range i
  unfold second at hrange
  exact wrap64_of_range (by unfold second; omega) (by unfold second; omega)

/-- A row under a lease is claimed again only after the lease has run out. -/
theorem SharedConfig.expired (hcfg : SharedConfig cons) {i j : ι} {row : Row} {start now : Int}
    (hready : ready (cons j).cfg.queue now (cons j).cfg.lease row = true)
    (hq : row.queue = (cons i).cfg.queue) (hl : row.leaseID ≠ none)
    (hat : row.leasedAt = some (stamp start)) : start + (cons i).cfg.lease < now := by
  obtain ⟨hqueue, -, -, hfree | ⟨l, hlat, hlt⟩⟩ := ready_iff.mp hready
  · exact absurd hfree hl
  · rw [hat] at hlat
    obtain rfl := Option.some.inj hlat
    have hlease : (cons j).cfg.lease = (cons i).cfg.lease := by
      rw [hcfg.lease_eq, hcfg.lease_eq, hcfg.timeout j i (hqueue ▸ hq)]
    have hneg : wrap64 (-(cons i).cfg.lease) = -(cons i).cfg.lease := by
      have hpos := hcfg.pos i
      have hrange := hcfg.range i
      rw [hcfg.lease_eq]
      unfold second at hrange ⊢
      exact wrap64_of_range (by omega) (by omega)
    rw [hlease, hneg] at hlt
    have := lt_of_stamp_lt hlt
    omega

/-- The drain has marked or released `task`. -/
def Spent (h : History R) (task : Leased) : Prop := ∃ ev ∈ h, task ∈ ev.op.settles

theorem Spent.mono {h h' : History R} (hs : Spent h task) (hh : h <:+ h') : Spent h' task :=
  hs.imp fun _ he => ⟨hh.mem he.1, he.2⟩

/-- The row of `task` is still under the lease that was claimed at `start`. -/
def Holds (t : Table) (queue : String) (start : Int) (task : Leased) : Prop :=
  ∃ row, t.find task.id = some row ∧ row.leaseID = some task.leaseID ∧
    row.leasedAt = some (stamp start) ∧ row.queue = queue

variable [DecidableEq ι] {tr r : Trace ι R}
  {c : Moment ι R}
  {e : Point ι R} {i : ι}

theorem claim_reading_le (h : Run (workers cons) tr c) (hclock : SharedClock tr)
    (he : e :: r <:+ tr) {t now limit : Int} {a : Ans Leased R (.claim now limit)}
    (ha : e.act = .proc i ⟨t, .claim now limit, a⟩) : now ≤ e.act.time := by
  obtain ⟨t₀, hh, -⟩ := admits h he ha
  have hm : (⟨t₀, .now, now⟩ : Ev R) ∈ hist i r := by
    rw [hh]
    exact mem_singleton_self _
  rw [(hclock.of_suffix ((suffix_cons _ _).trans he)).now_eq hm]
  exact h.event_time_le he hm

/-- One entry keeps a drain's hold on a task, or the drain itself gives it up, or the
lease has run out. -/
theorem holds_step (hcfg : SharedConfig cons) (h : Run (workers cons) tr c)
    (hclock : SharedClock tr) (he : e :: r <:+ tr) {start : Int}
    (hc : Claimed (hist i r) start task)
    (hold : Holds e.pre.table (cons i).cfg.queue start task) :
    Spent (hist i (e :: r)) task ∨ start + (cons i).cfg.lease < e.act.time ∨
      Holds e.post.table (cons i).cfg.queue start task := by
  obtain ⟨row, hf, hl, hat, hq⟩ := hold
  obtain ⟨c₀, c₁, h₀, hst⟩ := h.at_entry he
  obtain ⟨hlog, hiss⟩ := run_log h₀
  rw [← hst.pre_eq] at hlog hiss
  -- whoever names the task under its lease is this drain
  have hspent : ∀ {k : ι} {ev : Ev R} {task' : Leased},
      e.act = .proc k ev → task' ∈ ev.op.settles → task'.id = task.id →
      task'.leaseID = task.leaseID → Spent (hist i (e :: r)) task := by
    intro k ev task' ha hm hid hlease
    obtain ⟨s, hc'⟩ := claimed_of_mem_items h he ha (Call.items_of_settles hm)
    obtain rfl : k = i := drain_of_lease h₀ hc' hc hlease
    obtain rfl : task' = task :=
      hlog.leaseInv.unique _ _ (hiss _ _ _ hc') (hiss _ _ _ hc) hid hlease
    exact ⟨ev, by rw [hist_cons_self ha]; exact mem_cons_self, hm⟩
  rcases row_cases h he task.id with heq | ⟨st, hx, -, hstep⟩
  · exact .inr (.inr ⟨row, heq ▸ hf, hl, hat, hq⟩)
  · rw [hf] at hstep
    generalize hpost : e.post.table.find task.id = post at hstep
    cases hstep with
    | same => exact .inr (.inr ⟨row, hpost, hl, hat, hq⟩)
    | claimed hready _ =>
      obtain ⟨k, t, a, ha, rfl, rfl⟩ := executes_claim hx
      have hnow := claim_reading_le h hclock he ha
      have := hcfg.expired hready hq (by simp [hl]) hat
      exact .inr (.inl (by omega))
    | done hid hl' =>
      obtain ⟨k, t, now, err, ha⟩ := executes_markDone hx
      exact .inl (hspent ha (mem_singleton_self _) hid (by simpa [hl] using hl'.symm))
    | failed hid hl' =>
      obtain ⟨k, t, terminal, err, ha, -, -⟩ := executes_markFailed hx
      exact .inl (hspent ha (mem_singleton_self _) hid (by simpa [hl] using hl'.symm))
    | @released first rest _ hids hl' =>
      obtain ⟨k, t, err, ha⟩ := executes_release hx
      obtain ⟨task', hm, hid⟩ := mem_map.mp hids
      obtain ⟨s, hc'⟩ := claimed_of_mem_items h he ha hm
      obtain ⟨s₁, hc₁⟩ := claimed_of_mem_items h he ha (mem_cons_self (a := first) (l := rest))
      have hlease : task'.leaseID = task.leaseID := by
        rw [(claimed_eq h₀ hc' hc₁).2]
        simpa [hl] using hl'.symm
      exact .inl (hspent ha hm hid hlease)
    | cleaned hs =>
      have hdone : row.doneAt ≠ none := by
        intro hnone
        simp [stale, hnone] at hs
      rw [hlog.leaseInv.dead _ _ hf hdone] at hl
      cases hl

/-- A drain holds what it has claimed until it gives it up or the lease runs out. -/
theorem holds_lease (hcfg : SharedConfig cons) (h : Run (workers cons) tr c)
    (hclock : SharedClock tr) {start : Int} (hc : Claimed (hist i tr) start task) :
    Spent (hist i tr) task ∨ (∃ e ∈ tr, start + (cons i).cfg.lease < e.act.time) ∨
      Holds c.store.table (cons i).cfg.queue start task := by
  refine h.invariant (fun tr s => SharedClock tr → ∀ i start task, Claimed (hist i tr) start task →
    Spent (hist i tr) task ∨ (∃ e ∈ tr, start + (cons i).cfg.lease < e.act.time) ∨
      Holds s.table (cons i).cfg.queue start task) ?_ ?_ hclock i start task hc
  · rintro s - - i start task ⟨_, _, _, hm, _⟩
    exact absurd hm not_mem_nil
  · intro tr c e c' h h' hst ih hclock i start task hc
    have hsuf : tr <:+ e :: tr := suffix_cons _ _
    rcases hc.cases with hold | ⟨t, limit, tasks, ha, ht⟩
    · rcases ih (hclock.of_suffix hsuf) i start task hold with hs | ⟨e', he', hlt⟩ | hh
      · exact .inl (hs.mono (hist_suffix hsuf))
      · exact .inr (.inl ⟨e', mem_cons_of_mem _ he', hlt⟩)
      · rw [← hst.pre_eq] at hh
        exact (holds_step hcfg h' hclock (suffix_refl _) hold hh).imp id
          (Or.imp (fun hlt => ⟨e, mem_cons_self, hlt⟩) id)
    · -- the claim is the last entry
      obtain ⟨L, -, -, hL⟩ := claim_issued h' (suffix_refl _) ha
      obtain ⟨hl, row, hf, hrow⟩ := hL task ht
      exact .inr (.inr ⟨row, hf, hl ▸ hrow⟩)

end Holding

section Exclusion

variable {ι R : Type} [DecidableEq ι] {cons : ι → Consumer R} {tr r : Trace ι R} {c : Moment ι R}
  {e : Point ι R} {i j : ι} {b : Batch Int Leased R} {a : Opening Int Leased}

/-- The deadline of the context of the handler that a drain is inside. -/
def handlerDeadline : History R → Option Int
  | ⟨_, .handle _, _⟩ :: ⟨opened, .withTimeout d, _⟩ :: _ => some (opened + d)
  | _ => none

/-- What is assumed of the time of a step. A handler starts within `Timeout` of the check
before its item; a mark runs, and returns, within the timeout it was begun with. -/
def InTime (cons : ι → Consumer R) (act : Act ι Int (Call Leased) (Ans Leased R) Env)
    (r : Trace ι R) : Prop :=
  match act with
  | .env _ _ => True
  | .proc i ev =>
    match ev.op, hist i r with
    | .handle _, _ :: _ :: ⟨checked, .now, _⟩ :: _ => ev.time ≤ checked + (cons i).cfg.timeout
    | .cancel, mark :: ⟨began, .withTimeout d, _⟩ :: _ =>
      mark.op.marked ≠ none → ev.time ≤ began + d
    | o, ⟨began, .withTimeout d, _⟩ :: _ => o.marked ≠ none → ev.time ≤ began + d
    | _, _ => True

instance (cons : ι → Consumer R) (act : Act ι Int (Call Leased) (Ans Leased R) Env)
    (r : Trace ι R) : Decidable (InTime cons act r) := by
  unfold InTime
  repeat' split
  all_goals infer_instance

/-- What is assumed of the time things take: moreover, nothing happens while a handler is
past the deadline of its context. -/
structure Timely (cons : ι → Consumer R) (tr : Trace ι R) : Prop where
  clock : SharedClock tr
  handler : ∀ e r, e :: r <:+ tr → ∀ i, ∀ t ∈ handlerDeadline (hist i r), e.act.time ≤ t
  steps : ∀ e r, e :: r <:+ tr → InTime cons e.act r

/-- A mark is begun within `markTimeout` of the end of its handler. -/
def Prompt (cons : ι → Consumer R) (tr : Trace ι R) : Prop :=
  ∀ e r i (a : Attempt Int Leased R) t h, e :: r <:+ tr →
    e.act = .proc i ⟨t, .withTimeout markTimeout, ()⟩ →
    hist i r = a.events (cons i).processor ++ h → t ≤ a.ended + markTimeout

/-- The drain is inside the handler of `x`: the start of the handler is the last thing
it did. -/
def Handling (h : History R) (x : Leased) : Prop := ∃ t h', h = ⟨t, .handle x, ()⟩ :: h'

theorem not_spent (h : Run (workers cons) tr c) {x : Leased}
    {rest : List Leased} {X : History R} (hb : b.Going (cons i).processor (x :: rest))
    (hh : hist i tr = X ++ b.hist (cons i).processor) (hno : ∀ ev ∈ X, ev.op.settles = []) :
    ¬ Spent (hist i tr) x := by
  rintro ⟨ev, hev, hx⟩
  have hmem : (⟨b.claimed, .claim b.start (cons i).processor.cfg.batchSize, .ok b.items⟩ :
      Ev R) ∈ hist i tr := by
    rw [hh]
    simp [Batch.hist]
  obtain ⟨e, r, -, hs, ha, -⟩ := claim_position h hmem
  obtain ⟨L, -, hnodup, -⟩ := claim_issued h hs ha
  rw [hb.split, map_append, nodup_append] at hnodup
  rw [hh] at hev
  rcases mem_append.mp hev with hev | hev
  · rw [hno ev hev] at hx
    exact absurd hx not_mem_nil
  · have hhandled := Batch.settles_hist hev hx
    exact hnodup.2.2 x.id (mem_map_of_mem hhandled) x.id (by simp) rfl

/-- On one clock the readings of an attempt and of its batch are their times. -/
theorem SharedClock.check_lt (hclock : SharedClock tr) (hpos : 0 < (cons i).cfg.timeout)
    (hf : a.Fresh (cons i).processor b.start)
    {X Y : History R} (hh : hist i tr = X ++ (a.openEvents (cons i).processor ++ Y)) :
    a.checked < b.start + (cons i).cfg.timeout := by
  have hm : (⟨a.checked, .now, a.check⟩ : Ev R) ∈ hist i tr := by
    rw [hh]
    simp [Opening.openEvents, Opening.pollEvents, hpos]
  have hlt : a.check - b.start < (cons i).cfg.timeout := hf hpos
  rw [← hclock.now_eq hm]
  omega

theorem opened_le (h : Run (workers cons) tr c) (hpos : 0 < (cons i).cfg.timeout)
    (he : e :: r <:+ tr) {h' : History R}
    (hh : hist i r = a.openEvents (cons i).processor ++ h') : a.opened ≤ e.act.time := by
  have hm : (⟨a.opened, .withTimeout (cons i).cfg.timeout, ()⟩ :
      Ev R) ∈ hist i r := by
    rw [hh]
    simp [Opening.openEvents, not_le.mpr hpos]
  exact h.event_time_le he hm

section

variable (ht : Timely cons tr)
include ht

variable {x : Leased} {h' : History R} {t : Int} {ev : Ev R} {c₀ : Moment ι R}

theorem Timely.begins (hpos : 0 < (cons i).cfg.timeout) (he : e :: r <:+ tr)
    (ha : e.act = .proc i ⟨t, .handle x, ()⟩)
    (hh : hist i r = a.openEvents (cons i).processor ++ h') :
    t ≤ a.checked + (cons i).cfg.timeout := by
  have hstep := ht.steps e r he
  rw [ha] at hstep
  simpa [InTime, hh, Opening.openEvents, Opening.pollEvents, hpos, not_le.mpr hpos] using hstep

theorem Timely.in_handler (hpos : 0 < (cons i).cfg.timeout)
    (he : e :: r <:+ tr)
    (hh : hist i r = ⟨t, .handle x, ()⟩ :: (a.openEvents (cons i).processor ++ h')) :
    e.act.time ≤ a.opened + (cons i).cfg.timeout := by
  refine ht.handler e r he i _ ?_
  simp [handlerDeadline, hh, Opening.openEvents, not_le.mpr hpos]

theorem Timely.marks (he : e :: r <:+ tr) (ha : e.act = .proc i ev)
    (hm : ev.op.marked ≠ none) {t₀ : Int}
    (hh : hist i r = ⟨t₀, .withTimeout markTimeout, ()⟩ :: h') : ev.time ≤ t₀ + markTimeout := by
  have hstep := ht.steps e r he
  obtain ⟨t, o, ans⟩ := ev
  rw [ha] at hstep
  cases o with
  | markDone => simpa [InTime, hh, Call.marked] using hstep
  | markFailed => simpa [InTime, hh, Call.marked] using hstep
  | _ => exact absurd rfl hm

theorem Timely.returns (he : e :: r <:+ tr) (ha : e.act = .proc i ⟨t, .cancel, ()⟩)
    (hm : ev.op.marked ≠ none) {t₀ : Int}
    (hh : hist i r = ev :: ⟨t₀, .withTimeout markTimeout, ()⟩ :: h') : t ≤ t₀ + markTimeout := by
  have hstep := ht.steps e r he
  rw [ha] at hstep
  simpa [InTime, hh, hm] using hstep

/-- While a drain is inside a handler, its lease on the task has not run out. -/
theorem Timely.handling (hcfg : SharedConfig cons)
    (h : Run (workers cons) tr c) (he : e :: r <:+ tr)
    (hx : Handling (hist i (e :: r)) x) :
    ∃ start, Claimed (hist i (e :: r)) start x ∧ ¬ Spent (hist i (e :: r)) x ∧
      e.act.time < start + (cons i).cfg.lease := by
  obtain ⟨t, h', hh⟩ := hx
  obtain ⟨c₁, h₁⟩ := h.of_suffix he
  have hpos := hcfg.pos i
  have hsuf : ⟨t, .handle x, ()⟩ :: h' <:+ hist i (e :: r) := by simp [hh]
  obtain ⟨e₀, r₀, hs₀, ha₀, hr₀⟩ := exists_suffix_of_hist hsuf
  have he₀ : e₀ :: r₀ <:+ tr := hs₀.trans he
  obtain ⟨b, a, rest, hb, hf, -, hopen⟩ := admits h he₀ ha₀
  have hh' : hist i (e :: r) = ⟨t, .handle x, ()⟩ :: (a.openEvents (cons i).processor ++
      b.hist (cons i).processor) := by
    rw [hh, ← hr₀, hopen]
  have hbegan : t ≤ a.checked + (cons i).cfg.timeout := ht.begins hpos he₀ ha₀ hopen
  have hcheck : a.checked < b.start + (cons i).cfg.timeout :=
    (ht.clock.of_suffix he).check_lt hpos hf (X := [_]) hh'
  have hopened : a.opened ≤ t := by
    have := opened_le h hpos he₀ hopen
    rwa [ha₀] at this
  have htime : e.act.time ≤ a.checked + 2 * (cons i).cfg.timeout := by
    rcases suffix_cons_iff.mp hs₀ with heq | hs₀
    · obtain ⟨rfl, rfl⟩ := List.cons.inj heq
      rw [ha₀]
      change t ≤ _
      omega
    · -- the handler was started before `e`, which still finds the drain inside it
      have hr : hist i r = hist i (e :: r) := by
        have hsuf := hist_suffix (i := i) hs₀
        rw [hist_cons_self ha₀, hr₀, ← hh] at hsuf
        exact (hist_suffix (suffix_cons e r)).eq_of_length_le hsuf.length_le
      have := ht.in_handler hpos he (hr.trans hh')
      omega
  refine ⟨b.start, ?_, ?_, ?_⟩
  · rw [hh']
    exact (Batch.claims (hb.mem_items mem_cons_self)).mono
      ((suffix_append _ _).trans (suffix_cons _ _))
  · refine not_spent h₁ (X := _ :: a.openEvents (cons i).processor) hb (by simpa using hh') ?_
    intro ev hev
    rcases mem_cons.mp hev with rfl | hev
    · rfl
    · exact Opening.settles_openEvents hev
  · rw [hcfg.lease_eq]
    unfold second
    omega

/-- A handler ends within three times `Timeout` of the start of its batch. -/
theorem Timely.ended_lt (hcfg : SharedConfig cons) (h : Run (workers cons) tr c) (hr : r <:+ tr)
    {a : Attempt Int Leased R} (hf : a.Fresh (cons i).processor b.start)
    (hs : a.events (cons i).processor ++ h' <:+ hist i r) :
    a.ended < b.start + 3 * (cons i).cfg.timeout := by
  have hpos := hcfg.pos i
  obtain ⟨l, hl⟩ := a.handleEvents_suffix (cons i).processor
  have hs' : ⟨a.ended, .handled a.item, a.answer⟩ :: (⟨a.began, .handle a.item, ()⟩ ::
      (a.openEvents (cons i).processor ++ h')) <:+ hist i r := by
    refine IsSuffix.trans ⟨l ++ [⟨a.closed, .cancel, ()⟩], ?_⟩ hs
    rw [← hl]
    simp [Attempt.handleEvents, not_le.mpr hpos]
  -- the end and the start of the handler, as entries of the run
  obtain ⟨e₁, r₁, hr₁, ha₁, hh₁⟩ := exists_suffix_of_hist hs'
  obtain ⟨e₂, r₂, hr₂, ha₂, hh₂⟩ := exists_suffix_of_hist ((suffix_cons _ _).trans hs')
  have hended : a.ended ≤ a.opened + (cons i).cfg.timeout := by
    have := ht.in_handler (a := a.toOpening) hpos (hr₁.trans hr) hh₁
    rwa [ha₁] at this
  have hbegan : a.began ≤ a.checked + (cons i).cfg.timeout :=
    ht.begins (a := a.toOpening) hpos (hr₂.trans hr) ha₂ hh₂
  have hopened : a.opened ≤ a.began := by
    have := opened_le h hpos (hr₂.trans hr) hh₂
    rwa [ha₂] at this
  have hcheck : a.checked < b.start + (cons i).cfg.timeout := by
    refine (ht.clock.of_suffix ((suffix_cons _ _).trans (hr₂.trans hr))).check_lt hpos hf
      (X := []) (Y := h') ?_
    simpa using hh₂
  omega

/-- A mark is begun so early that its timeout ends before the lease does. -/
theorem Timely.mark_begun (hp : Prompt cons tr) (hcfg : SharedConfig cons)
    (h : Run (workers cons) tr c) (he : e :: r <:+ tr) (ha : e.act = .proc i ev)
    (hm : ev.op.marked = some x) :
    ∃ start t₀ h', hist i r = ⟨t₀, .withTimeout markTimeout, ()⟩ :: h' ∧
      Claimed (hist i r) start x ∧ ¬ Spent (hist i r) x ∧
      t₀ + markTimeout < start + (cons i).cfg.lease := by
  obtain ⟨b, a, rest, t₀, hb, hf, -, hh⟩ := (admits h he ha).mark hm
  obtain ⟨c₀, c₁, h₀, -⟩ := h.at_entry he
  have hr : r <:+ tr := (suffix_cons _ _).trans he
  have hs : ⟨t₀, .withTimeout markTimeout, ()⟩ :: (a.events (cons i).processor ++
      b.hist (cons i).processor) <:+ hist i r := by rw [hh]
  obtain ⟨e₁, r₁, hr₁, ha₁, hh₁⟩ := exists_suffix_of_hist hs
  have hsettle : t₀ ≤ a.ended + markTimeout := hp e₁ r₁ i a t₀ _ (hr₁.trans hr) ha₁ hh₁
  have hended := ht.ended_lt hcfg h hr hf ((suffix_cons _ _).trans hs)
  refine ⟨b.start, t₀, _, hh, ?_, ?_, ?_⟩
  · rw [hh]
    exact (Batch.claims (hb.mem_items mem_cons_self)).mono
      ((suffix_append _ _).trans (suffix_cons _ _))
  · refine not_spent h₀ (X := _ :: a.events (cons i).processor) hb (by simpa using hh) ?_
    intro ev hev
    rcases mem_cons.mp hev with rfl | hev
    · rfl
    · exact Attempt.settles_events hev
  · rw [hcfg.lease_eq]
    unfold markTimeout second at *
    omega

/-- A drain that has not settled a task and is within its lease holds the task. -/
theorem Timely.holds (hcfg : SharedConfig cons) (hr : r <:+ tr)
    (h₀ : Run (workers cons) r c₀) {start : Int} (hc : Claimed (hist i r) start x)
    (hs : ¬ Spent (hist i r) x) (htime : ∀ e ∈ r, e.act.time ≤ start + (cons i).cfg.lease) :
    Holds c₀.store.table (cons i).cfg.queue start x := by
  rcases holds_lease hcfg h₀ (ht.clock.of_suffix hr) hc with hs' | ⟨e, he, hlt⟩ | hh
  · exact absurd hs' hs
  · have := htime e he
    omega
  · exact hh

/-- A drain inside a handler holds the task. -/
theorem Timely.handling_holds (hcfg : SharedConfig cons)
    (h : Run (workers cons) tr c) (he : e :: r <:+ tr)
    (h₀ : Run (workers cons) (e :: r) c₀) (hx : Handling (hist i (e :: r)) x) :
    ∃ start, Claimed (hist i (e :: r)) start x ∧
      Holds c₀.store.table (cons i).cfg.queue start x := by
  obtain ⟨start, hc, hs, hlt⟩ := ht.handling hcfg h he hx
  refine ⟨start, hc, ht.holds hcfg he h₀ hc hs fun e' he' => ?_⟩
  have hle : e'.act.time ≤ e.act.time := by
    rcases mem_cons.mp he' with rfl | he'
    · exact le_refl _
    · exact h.time_le he he'
  omega

end

/-- No task is handled by two drains at once. Every mark that is begun in time finds its task
under its own lease and returns before that lease has run out. -/
theorem no_double_handling (hcfg : SharedConfig cons) (h : Run (workers cons) tr c)
    (ht : Timely cons tr) :
    (∀ r i j x x', r <:+ tr → i ≠ j → Handling (hist i r) x → Handling (hist j r) x' →
      x.id ≠ x'.id) ∧
    (Prompt cons tr →
      (∀ e r i ev x, e :: r <:+ tr → e.act = .proc i ev → ev.op.marked = some x →
        ∃ start, Claimed (hist i r) start x ∧
          ev.time < start + (3 * (cons i).cfg.timeout + 10 * second) ∧
          ∃ row, e.pre.table.find x.id = some row ∧ row.leaseID = some x.leaseID) ∧
      (∀ e r i t ev h' x, e :: r <:+ tr → e.act = .proc i ⟨t, .cancel, ()⟩ →
        hist i r = ev :: h' → ev.op.marked = some x → ∃ start, Claimed (hist i r) start x ∧
          t < start + (3 * (cons i).cfg.timeout + 10 * second))) := by
  refine ⟨?_, fun hp => ⟨?_, ?_⟩⟩
  · intro r i j x x' hr hij hx hx' hid
    cases r with
    | nil =>
      obtain ⟨t, h', hh⟩ := hx
      cases hh
    | cons e r =>
      obtain ⟨c₀, h₀⟩ := h.of_suffix hr
      obtain ⟨s, hc, row, hf, hl, -⟩ := ht.handling_holds hcfg h hr h₀ hx
      obtain ⟨s', hc', row', hf', hl', -⟩ := ht.handling_holds hcfg h hr h₀ hx'
      rw [hid, hf'] at hf
      obtain rfl := Option.some.inj hf
      exact hij (drain_of_lease h₀ hc hc' (Option.some.inj (hl.symm.trans hl')))
  · intro e r i ev x he ha hm
    obtain ⟨start, t₀, h', hh, hc, hs, hlt⟩ := ht.mark_begun hp hcfg h he ha hm
    have htime := ht.marks he ha (by simp [hm]) hh
    obtain ⟨c₀, c₁, h₀, hst⟩ := h.at_entry he
    refine ⟨start, hc, by rw [← hcfg.lease_eq]; omega, ?_⟩
    obtain ⟨row, hf, hl, -⟩ := ht.holds hcfg ((suffix_cons _ _).trans he) h₀ hc hs
      fun e' he' => by
        have := h.time_le he he'
        rw [ha] at this
        change _ ≤ ev.time at this
        omega
    exact ⟨row, by rwa [hst.pre_eq], hl⟩
  · intro e r i t ev h' x he ha hh hm
    have hsuf : ev :: h' <:+ hist i r := by rw [hh]
    obtain ⟨e₀, r₀, hr₀, ha₀, hh₀⟩ := exists_suffix_of_hist hsuf
    have hr : r <:+ tr := (suffix_cons _ _).trans he
    obtain ⟨start, t₀, h'', hh'', hc, -, hlt⟩ := ht.mark_begun hp hcfg h (hr₀.trans hr) ha₀ hm
    rw [hh₀] at hh''
    have htime := ht.returns he ha (by simp [hm] : ev.op.marked ≠ none) (by rw [hh, hh''])
    refine ⟨start, hc.mono ?_, by rw [← hcfg.lease_eq]; omega⟩
    exact hist_suffix ((suffix_cons _ _).trans hr₀)

theorem Prompt.of_short (now : Int)
    (hshort : ∀ e ∈ tr, now ≤ e.act.time ∧ e.act.time ≤ now + markTimeout) : Prompt cons tr := by
  intro e r i a t h he ha hh
  have hmem : (⟨a.ended, .handled a.item, a.answer⟩ : Ev R) ∈
      hist i r := by
    rw [hh]
    exact mem_append_left _ (a.handled_mem_events _)
  obtain ⟨e', he', ha'⟩ := mem_hist.mp hmem
  have hended := (hshort e' (he.mem (mem_cons_of_mem _ he'))).1
  have hbegun := (hshort e (he.mem mem_cons_self)).2
  rw [ha'] at hended
  rw [ha] at hbegun
  exact hbegun.trans (Int.add_le_add_right hended _)

end Exclusion

section FailedAttempt

/-- A consumer whose handler ends as the world says. -/
def plainConsumer : Consumer Outcome where
  cfg := Config.withDefaults ⟨"mail", 0, 0, 0, 0⟩
  h := fun _ outcome => outcome
  backoff := ⟨0, fun _ => 2 * second, fun _ => two_seconds_nonneg⟩
  onPanic := false
  sanitize := fun msg => msg

def mailTask : Leased := ⟨⟨1, "mail", "send", "", [], 0, 0, 0, ""⟩, "a"⟩

/-- A task is scheduled and claimed at time 0, and its handler is started. -/
def startedScript : Script Bool Int (Call Leased) (Ans Leased Outcome) Env Store :=
  [(.env 0 (.schedule ⟨"mail", "send", "", [], 0⟩ 0 0),
      (·.run (.schedule ⟨"mail", "send", "", [], 0⟩ 0 0))),
    (.proc false ⟨0, .now, 0⟩, id),
    (.proc false ⟨0, .claim 0 1, .ok [mailTask]⟩,
      (·.run (plainConsumer.claim 0 1 "a" fun _ => false))),
    (.proc false ⟨0, .ctxErr, false⟩, id), (.proc false ⟨0, .now, 0⟩, id),
    (.proc false ⟨0, .now, 0⟩, id), (.proc false ⟨0, .withTimeout (30 * second), ()⟩, id),
    (.proc false ⟨0, .handle mailTask, ()⟩, id)]

/-- The handler fails at `ended`, and the failure is recorded. -/
def failedScript (ended : Int) : Script Bool Int (Call Leased) (Ans Leased Outcome) Env Store :=
  startedScript ++
  [(.proc false ⟨ended, .handled mailTask, .returned (some (.text "refused"))⟩, id),
    (.proc false ⟨ended, .cancel, ()⟩, id),
    (.proc false ⟨ended, .withTimeout markTimeout, ()⟩, id),
    (.proc false ⟨ended, .markFailed mailTask "refused" false 0, none⟩,
      (·.run (plainConsumer.markFailed mailTask "refused" false 0)))]

theorem plainConsumer_config : SharedConfig fun _ : Bool => plainConsumer :=
  ⟨fun _ _ _ => rfl, fun _ => by decide, fun _ => by decide⟩

theorem failedScript_fits (ended : Int) :
    (failedScript ended).Fits (workers fun _ => plainConsumer) ⟨.empty, []⟩ := by
  refine ⟨rfl, .inside rfl, .replied (.claim "a" fun _ => false) ?_ .claim, .inside rfl,
    .inside rfl, .inside rfl, .inside rfl, .inside rfl, .inside rfl, .inside rfl, .inside rfl,
    .replied .markFailed ?_ .markFailed, trivial⟩
  · simp [Consumer.claim, Sent, Drawn, Store.run, Stmt.entry, Stmt.draws]
  · simp [Consumer.markFailed, Sent, mailTask]

/-- The task of `failedScript` as its second claim returns it. -/
def retriedTask : Leased :=
  ⟨⟨1, "mail", "send", "", [], 0, 2 * second, 1, "refused"⟩, "b"⟩

/-- After the failed attempt another drain claims the task at `later`. -/
def retriedScript (ended later : Int) :
    Script Bool Int (Call Leased) (Ans Leased Outcome) Env Store :=
  failedScript ended ++ [(.proc true ⟨later, .now, later⟩, id),
    (.proc true ⟨later, .claim later 1, .ok [retriedTask]⟩,
      (·.run (plainConsumer.claim later 1 "b" fun _ => false)))]

def retriedRun (ended later : Int) : Trace Bool Outcome :=
  (retriedScript ended later).record ⟨.empty, []⟩ []

/-- The store in which the task is claimed. -/
def claimedStore : Store :=
  (Store.run ⟨.empty, []⟩ (.schedule ⟨"mail", "send", "", [], 0⟩ 0 0)).run
    (plainConsumer.claim 0 1 "a" fun _ => false)

/-- The store that the failed attempt leaves, whenever its handler ended. -/
def failedStore : Store := claimedStore.run (plainConsumer.markFailed mailTask "refused" false 0)

theorem retriedRun_runs (ended later : Int)
    (hplay : ((retriedScript ended later).playAll
      (workers fun _ => plainConsumer).prog).isSome = true)
    (hlast : ((plainConsumer.claim later 1 "b" fun _ => false).exec failedStore.table).1 =
      .claimed (.ok [retriedTask]))
    (htimes : ((retriedScript ended later).map (·.1.time)).Pairwise (· ≤ ·)) :
    ∃ c, Run (workers fun _ => plainConsumer) (retriedRun ended later) c := by
  have hfits : (retriedScript ended later).Fits (workers fun _ => plainConsumer) ⟨.empty, []⟩ := by
    obtain ⟨h₁, h₂, h₃, h₄, h₅, h₆, h₇, h₈, h₉, h₁₀, h₁₁, h₁₂, -⟩ := failedScript_fits ended
    refine ⟨h₁, h₂, h₃, h₄, h₅, h₆, h₇, h₈, h₉, h₁₀, h₁₁, h₁₂, .inside rfl,
      .replied (.claim "b" fun _ => false) ?_ ?_, trivial⟩
    · simp [Consumer.claim, Consumer.markFailed, Sent, Drawn, Store.run, Stmt.entry, Stmt.draws]
    · change Answers _ ((plainConsumer.claim later 1 "b" fun _ => false).exec failedStore.table).1 _
      rw [hlast]
      exact .claim
  exact (Run.init rfl).extend hplay hfits htimes (by simp)

/-- A handler fails after a second, and its mark finds the lease it was claimed under; two
seconds later another drain claims the task. -/
theorem no_double_handling_failed : ∃ tr c, Run (workers fun _ : Bool => plainConsumer) tr c ∧
    Timely (fun _ => plainConsumer) tr ∧ Prompt (fun _ => plainConsumer) tr ∧
    ∃ e r, e :: r <:+ tr ∧ e.act.time = second ∧
      ∃ row, e.pre.table.find 1 = some row ∧ row.leaseID = some "a" := by
  obtain ⟨c, h⟩ := retriedRun_runs second (3 * second) (by decide +kernel) rfl (by decide)
  have htimely : Timely (fun _ => plainConsumer) (retriedRun second (3 * second)) := by
    refine ⟨?_, ?_, ?_⟩
    · simp [SharedClock, retriedRun, retriedScript, failedScript, startedScript, Script.record]
    · rw [forall_suffix_iff]
      decide +kernel
    · rw [forall_suffix_iff]
      decide +kernel
  have hprompt : Prompt (fun _ => plainConsumer) (retriedRun second (3 * second)) := by
    refine .of_short 0 ?_
    simp [retriedRun, retriedScript, failedScript, startedScript, Script.record, Act.time]
    decide
  refine ⟨_, c, h, htimely, hprompt, _, _, ⟨[_, _], rfl⟩, rfl, ?_⟩
  obtain ⟨start, -, -, hrow⟩ := ((no_double_handling plainConsumer_config h htimely).2 hprompt).1
    _ _ false ⟨second, .markFailed mailTask "refused" false 0, none⟩ mailTask ⟨[_, _], rfl⟩ rfl rfl
  exact hrow

/-- The consumer with an `OnPanic`, which runs under no timeout of its own. -/
def panickyConsumer : Consumer Outcome := { plainConsumer with onPanic := true }

def takenTask : Leased := { mailTask with leaseID := "b" }

/-- The handler panics after a second and `OnPanic` takes until 200s. Meanwhile the lease runs
out, and another drain claims the task. -/
def panickedScript : Script Bool Int (Call Leased) (Ans Leased Outcome) Env Store :=
  startedScript ++
  [(.proc false ⟨second, .handled mailTask, .panicked "nil map"⟩, id),
    (.proc false ⟨second, .cancel, ()⟩, id),
    (.proc true ⟨150 * second, .now, 150 * second⟩, id),
    (.proc true ⟨150 * second, .claim (150 * second) 1, .ok [takenTask]⟩,
      (·.run (panickyConsumer.claim (150 * second) 1 "b" fun _ => false))),
    (.proc false ⟨200 * second, .onPanic mailTask "nil map", some (.text "reported")⟩, id),
    (.proc false ⟨200 * second, .withTimeout markTimeout, ()⟩, id),
    (.proc false ⟨200 * second, .markFailed mailTask "reported" false 0, some errLeaseLost⟩,
      (·.run (panickyConsumer.markFailed mailTask "reported" false 0)))]

theorem panickedScript_fits :
    panickedScript.Fits (workers fun _ => panickyConsumer) ⟨.empty, []⟩ := by
  refine ⟨rfl, .inside rfl, .replied (.claim "a" fun _ => false) ?_ .claim, .inside rfl,
    .inside rfl, .inside rfl, .inside rfl, .inside rfl, .inside rfl, .inside rfl, .inside rfl,
    .replied (.claim "b" fun _ => false) ?_ .claim, .inside rfl, .inside rfl,
    .replied .markFailed ?_ .markFailed, trivial⟩
  · simp [Consumer.claim, Sent, Drawn, Store.run, Stmt.entry, Stmt.draws]
  · simp [Consumer.claim, Sent, Drawn, Store.run, Stmt.entry, Stmt.draws]
  · simp [Consumer.markFailed, Sent, mailTask]

/-- Handlers, marks and starts keep their time, and yet a mark comes after its lease has run
out and finds the task under the lease of another drain. -/
theorem marked_after_takeover : SharedConfig (fun _ : Bool => panickyConsumer) ∧
    ∃ tr c, Run (workers fun _ : Bool => panickyConsumer) tr c ∧
      Timely (fun _ => panickyConsumer) tr ∧
      ∃ e r t, e :: r = tr ∧
        e.act = .proc false ⟨t, .markFailed mailTask "reported" false 0, some errLeaseLost⟩ ∧
        Claimed (hist false r) 0 mailTask ∧ 0 + panickyConsumer.cfg.lease < t ∧
        ∃ row, e.pre.table.find 1 = some row ∧ row.leaseID = some "b" := by
  have hplay : (panickedScript.playAll (workers fun _ => panickyConsumer).prog).isSome = true := by
    decide +kernel
  obtain ⟨c, h⟩ := (Run.init rfl).extend hplay panickedScript_fits (by decide) (by simp)
  refine ⟨⟨fun _ _ _ => rfl, plainConsumer_config.pos, plainConsumer_config.range⟩, _, c, h,
    ⟨?_, ?_, ?_⟩, _, _, _, rfl, rfl, ?_, by decide, ?_⟩
  · simp [SharedClock, panickedScript, startedScript, Script.record]
  · rw [forall_suffix_iff]
    decide +kernel
  · rw [forall_suffix_iff]
    decide +kernel
  · exact ⟨0, 1, [mailTask], mem_of_getElem? (i := 9) rfl, mem_singleton_self _⟩
  · exact ⟨_, rfl, rfl⟩

end FailedAttempt

end Skit.Queue
