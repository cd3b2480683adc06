import Skit.Queue.Delivery

/-!
# Tasks as they were scheduled

Nothing between a `Schedule` and the calls of the handler touches what a task is: a handler gets
the queue, the kind, the key and the payload that its producer gave, of one `Schedule` of the run.
-/
namespace Skit.Queue
open Lib Worker Table

/-- What a task is, in a row. -/
def Row.content (r : Row) : String × String × Option String × List UInt8 :=
  (r.queue, r.kind, r.key, r.payload)

def Params.content (p : Params) : String × String × Option String × List UInt8 :=
  (p.queue, p.kind, if p.key = "" then none else some p.key, p.payload)

/-- The task of the params, as its handler gets it. -/
def Task.Of (t : Task) (p : Params) : Prop :=
  (t.queue, t.kind, t.key, t.payload) = (p.queue, p.kind, p.key, p.payload)

section Rows

variable {p : Params} {r r' : Row}

theorem RowStep.content_eq {t : Table} {id : Nat} {s : Stmt}
    (h : RowStep t id s (some r) (some r')) : r'.content = r.content := by
  cases h <;> rfl

theorem Task.Of.lent (hr : r.content = p.content) (leaseID : String) (now : Int) :
    (toLeased (lend leaseID now r)).toTask.Of p := by
  simp only [Row.content, Params.content, Prod.mk.injEq] at hr
  obtain ⟨hqueue, hkind, hkey, hpayload⟩ := hr
  change (r.queue, r.kind, r.key.getD "", r.payload) = _
  rw [hqueue, hkind, hkey, hpayload]
  split_ifs with hempty
  · rw [hempty]
    rfl
  · rfl

/-- A row at the next id was inserted. -/
theorem insert_of_find {t : Table} {now dbNow : Int}
    (hf : (t.insert p now dbNow).2.find t.nextID = some r) :
    (t.insert p now dbNow).1 = .ok true := by
  have hfree : ∀ {row}, t.find t.nextID ≠ some row := fun hrow => lt_irrefl _ (t.lt_of_find hrow)
  unfold Table.insert at hf ⊢
  split_ifs at hf ⊢
  · exact absurd hf hfree
  · exact absurd hf hfree
  · exact absurd hf hfree
  · rfl

end Rows

section Runs

variable {ι R : Type} {cons : ι → Consumer R} {tr r l l' : Trace ι R}
  {c : Moment ι R}
  {e : Point ι R} {id : Nat} {p p' : Params}

/-- The run up to `l` ends with a `Schedule` that inserted the task `id` for `p`. -/
def Scheduled (tr l : Trace ι R) (id : Nat) (p : Params) : Prop :=
  l <:+ tr ∧ ∃ e r t now dbNow, l = e :: r ∧ e.act = .env t (.schedule p now dbNow) ∧
    e.pre.table.nextID = id ∧ (e.pre.table.insert p now dbNow).1 = .ok true

theorem Scheduled.suffix (h : Scheduled r l id p) (hr : r <:+ tr) : Scheduled tr l id p :=
  ⟨h.1.trans hr, h.2⟩

theorem executes_schedule {act : Act ι Int (Call Leased) (Ans Leased R) Env} {now dbNow : Int}
    (h : Executes cons act (.schedule p now dbNow)) :
    ∃ t, act = .env t (.schedule p now dbNow) := by
  cases h with
  | @env t x _ hs =>
    cases x with
    | schedule p now dbNow => cases hs; exact ⟨t, rfl⟩
    | cleanup queue now => cases hs
  | @proc i ev _ hr =>
    obtain ⟨t, o, a⟩ := ev
    cases hr

variable [DecidableEq ι]

section

variable (h : Run (workers cons) tr c)
include h

/-- Every row is the task of a `Schedule`. -/
theorem row_scheduled : ∀ id row, c.store.table.find id = some row →
      ∃ l p, Scheduled tr l id p ∧ row.content = p.content := by
  refine h.invariant (fun tr s => ∀ id row, s.table.find id = some row →
    ∃ l p, Scheduled tr l id p ∧ row.content = p.content) ?_ ?_
  · rintro s rfl id row hf
    cases hf
  · intro tr c e c' _ h' hst ih id row hf
    rw [← (step_cases hst).1] at ih
    have hkept : ∀ {row₀}, e.pre.table.find id = some row₀ → row.content = row₀.content →
        ∃ l p, Scheduled (e :: tr) l id p ∧ row.content = p.content := by
      intro row₀ hf₀ heq
      obtain ⟨l, p, hs, hp⟩ := ih id row₀ hf₀
      exact ⟨l, p, hs.suffix (List.suffix_cons _ _), heq.trans hp⟩
    rcases row_cases h' (List.suffix_refl _) id with heq | ⟨st, hx, -, hstep⟩
    · exact hkept (heq ▸ hf) rfl
    · rw [hf] at hstep
      cases hpre : e.pre.table.find id with
      | some row₀ =>
        rw [hpre] at hstep
        exact hkept hpre hstep.content_eq
      | none =>
        rw [hpre] at hstep
        cases hstep with
        | @inserted p now dbNow hid =>
          obtain ⟨t, ha⟩ := executes_schedule hx
          refine ⟨_, p, ⟨List.suffix_refl _, e, tr, t, now, dbNow, rfl, ha, hid.symm, ?_⟩, rfl⟩
          rw [step_env hst ha, hid] at hf
          exact insert_of_find hf

/-- A task that a drain has claimed is that of a `Schedule` for its queue. -/
theorem claimed_scheduled {i : ι} {start : Int} {task : Leased}
    (hc : Claimed (hist i tr) start task) :
    ∃ l p, Scheduled tr l task.id p ∧ task.toTask.Of p ∧ p.queue = (cons i).cfg.queue := by
  obtain ⟨t, limit, tasks, hm, ht⟩ := hc
  obtain ⟨e, r, he, ha⟩ := exists_entry hm
  obtain ⟨c₀, c₁, h₀, hst⟩ := h.at_entry he
  obtain ⟨leaseID, locked, -, -, htasks⟩ := step_claim hst ha
  rw [← htasks] at ht
  obtain ⟨_, _, _, _, _, _, row, hclaim, hrow, hready, rfl, -⟩ := mem_issued ht
  cases hclaim
  rw [(step_cases hst).1] at hrow
  obtain ⟨l, p, hs, hp⟩ := row_scheduled h₀ _ row hrow
  refine ⟨l, p, hs.suffix ((List.suffix_cons _ _).trans he), .lent hp _ _, ?_⟩
  exact (congrArg Prod.fst hp).symm.trans (ready_iff.mp hready).1

/-- The ids of a run only grow. -/
theorem nextID_le {e' : Point ι R} {r' : Trace ι R} (he : e :: r <:+ tr) (he' : e' :: r' <:+ r) :
    e'.post.table.nextID ≤ e.pre.table.nextID := by
  obtain ⟨c₀, c₁, h₀, hst⟩ := h.at_entry he
  rw [hst.pre_eq]
  refine h₀.since (P := fun _ s => e'.post.table.nextID ≤ s.table.nextID) he' (le_refl _) ?_
  intro b l hb _ hle
  rcases (entry_cases h₀ hb).2 with heq | ⟨st, -, -, heq⟩
  · rwa [heq]
  · rw [heq]
    exact le_trans hle (nextID_le_exec st _)

/-- A task id is given once. -/
theorem scheduled_once (hp : Scheduled tr l id p)
    (hp' : Scheduled tr l' id p') : l = l' ∧ p = p' := by
  obtain ⟨he, e, r, t, now, dbNow, rfl, ha, hid, hok⟩ := hp
  obtain ⟨he', e', r', t', now', dbNow', rfl, ha', hid', hok'⟩ := hp'
  -- after an insert the sequence is past the id
  have hpast : ∀ {b l q t now dbNow}, b :: l <:+ tr → b.act = .env t (.schedule q now dbNow) →
      b.pre.table.nextID = id → (b.pre.table.insert q now dbNow).1 = .ok true →
      id < b.post.table.nextID := by
    intro b l q t now dbNow hb hact hnext hins
    obtain ⟨_, _, _, hst⟩ := h.at_entry hb
    rw [step_env hst hact]
    exact Table.lt_of_find _ (hnext ▸ (insert_true hins).1)
  rcases suffix_trichotomy he he' with heq | hs | hs
  · obtain ⟨rfl, -⟩ := List.cons.inj heq
    cases ha.symm.trans ha'
    exact ⟨heq, rfl⟩
  · have hle := nextID_le h he' hs
    have hlt := hpast he ha hid hok
    omega
  · have hle := nextID_le h he hs
    have hlt := hpast he' ha' hid' hok'
    omega

theorem Attempted.claimed {i : ι} {a : Attempt Int Leased R}
    (ha : Attempted (cons i) a (hist i tr)) : ∃ start, Claimed (hist i tr) start a.item := by
  obtain ⟨e, r, he, hact⟩ := exists_entry (ha.mem (a.handled_mem_events _))
  obtain ⟨start, hc⟩ := claimed_of_mem_items h he hact List.mem_cons_self
  exact ⟨start, hc.mono (hist_suffix ((List.suffix_cons e r).trans he))⟩

end

/-- In every run, whatever fails or crashes, a handler is given the queue, the kind, the key and the
payload of the one `Schedule` that inserted its task, and a consumer those of its own queue only. -/
theorem handled_as_scheduled (h : Run (workers cons) tr c) {i : ι} {a : Attempt Int Leased R}
    (ha : Attempted (cons i) a (hist i tr)) :
    ∃ l p, (∀ l' p', Scheduled tr l' a.item.id p' ↔ l' = l ∧ p' = p) ∧ a.item.toTask.Of p ∧
      p.queue = (cons i).cfg.queue := by
  obtain ⟨start, hc⟩ := ha.claimed h
  obtain ⟨l, p, hsched, hof, hqueue⟩ := claimed_scheduled h hc
  refine ⟨l, p, fun l' p' => ⟨fun hp' => scheduled_once h hp' hsched, ?_⟩, hof, hqueue⟩
  rintro ⟨rfl, rfl⟩
  exact hsched

def recoveredAttempt : Attempt Int Leased Unit where
  item := recoveredTask
  polled := 1
  checked := 1
  check := 1
  read := 1
  now := 1
  opened := 1
  began := 1
  ended := 2
  answer := ()
  closed := 2
  asked := 2
  verdict := none

theorem handled_as_scheduled_recovered : ∃ l p, Scheduled recoveredRun l 1 p ∧
    recoveredTask.toTask.Of p ∧ p.queue = "mail" := by
  obtain ⟨c, h⟩ := recoveredRun_runs
  have ha : Attempted recoveringConsumer recoveredAttempt (hist () recoveredRun) :=
    ⟨[⟨3, .markDone recoveredTask 1, none⟩, ⟨2, .withTimeout markTimeout, ()⟩],
      [⟨1, .claim 1 1, .ok [recoveredTask]⟩, ⟨1, .now, 1⟩], rfl⟩
  obtain ⟨l, p, hs, hof, hqueue⟩ := handled_as_scheduled h ha
  exact ⟨l, p, (hs l p).mpr ⟨rfl, rfl⟩, hof, hqueue⟩

end Runs

end Skit.Queue
