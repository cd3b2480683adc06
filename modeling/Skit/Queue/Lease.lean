import Skit.Queue.Statements

/-!
# Lease ownership

A `Log` is any sequence of statements on the table that `EnsureSchema` creates, of
any number of consumers. What the consumers promise is that a claim draws a lease
id no claim has drawn before it, and that marks and releases carry tasks that a
claim has handed out. `LeaseInv` is what holds of every table reached.
-/
namespace Skit.Queue
open Table List

/-- An executed statement, between the tables before and after it. -/
structure LogEntry where
  stmt : Stmt
  reply : Reply
  pre : Table
  post : Table

/-- The statement took effect on the row of `id`. -/
def LogEntry.Changes (e : LogEntry) (id : Nat) : Prop := e.post.find id ≠ e.pre.find id

instance (e : LogEntry) (id : Nat) : Decidable (e.Changes id) := inferInstanceAs (Decidable (_ ≠ _))

def Issued (log : List LogEntry) (task : Leased) : Prop := ∃ e ∈ log, task ∈ e.reply.issued

def Drawn (log : List LogEntry) (L : String) : Prop := ∃ e ∈ log, e.stmt.draws = some L

/-- What a consumer may run after `log`. An attempt count that does not fit the
`INT` column fails to encode, so its statement is never run. -/
def Admissible (log : List LogEntry) : Stmt → Prop
  | .claim _ _ _ _ leaseID _ => ¬ Drawn log leaseID
  | .markDone task => Issued log task
  | .markFailed task _ _ _ _ => Issued log task ∧ task.attempts + 1 < 2 ^ 31
  | .release tasks => ∀ task ∈ tasks, Issued log task
  | _ => True

/-- The entry of a statement run on `t`. -/
def Stmt.entry (s : Stmt) (t : Table) : LogEntry := ⟨s, (s.exec t).1, t, (s.exec t).2⟩

/-- The statements run so far, latest first, and the table they left. -/
inductive Log : List LogEntry → Table → Prop
  | empty : Log [] .empty
  | step {log : List LogEntry} {t : Table} (s : Stmt) : Log log t → Admissible log s →
      Log (s.entry t :: log) (s.exec t).2

variable {task : Leased} {log log' : List LogEntry} {t : Table} {s : Stmt}

theorem Issued.mono (h : Issued log task) (hs : log <:+ log') : Issued log' task :=
  h.imp fun _ he => ⟨hs.mem he.1, he.2⟩

theorem Drawn.mono {L : String} (h : Drawn log L) (hs : log <:+ log') : Drawn log' L :=
  h.imp fun _ he => ⟨hs.mem he.1, he.2⟩

theorem issued_cons {log : List LogEntry} (h : Issued (s.entry t :: log) task) :
    task ∈ (s.exec t).1.issued ∨ Issued log task := by
  obtain ⟨e, he, hm⟩ := h
  rcases mem_cons.mp he with rfl | he
  · exact .inl hm
  · exact .inr ⟨e, he, hm⟩

theorem drawn_of_mem_issued (h : task ∈ (s.exec t).1.issued) : s.draws = some task.leaseID := by
  obtain ⟨_, _, _, _, _, _, _, rfl, _, _, rfl, _⟩ := mem_issued h
  rfl

theorem eq_of_mem_issued {task task' : Leased}
    (h : task ∈ (s.exec t).1.issued) (h' : task' ∈ (s.exec t).1.issued) (hid : task.id = task'.id) :
    task = task' := by
  obtain ⟨queue, now, lease, limit, leaseID, locked, r, rfl, hf, -, rfl, -⟩ := mem_issued h
  obtain ⟨_, _, _, _, _, _, r', hs, hf', -, rfl, -⟩ := mem_issued h'
  cases hs
  rw [hid, hf', Option.some.injEq] at hf
  rw [hf]

theorem nextID_le_exec (s : Stmt) (t : Table) : t.nextID ≤ (s.exec t).2.nextID := by
  cases s with
  | schedule p now dbNow =>
    simp only [Stmt.exec, Table.insert]
    split_ifs <;> simp [skipID, insertRow]
  | claim queue now lease limit leaseID locked =>
    simp only [Stmt.exec, claim]
    split_ifs <;> simp [updateWhere]
  | markDone task => exact le_refl _
  | markFailed task errMsg dead now runAt => exact le_refl _
  | release tasks => cases tasks <;> exact le_refl _
  | cleanup queue before => exact le_refl _

theorem lt_nextID_of_changes {id : Nat} (h : (s.entry t).Changes id) :
    id < (s.exec t).2.nextID := by
  change (s.exec t).2.find id ≠ t.find id at h
  cases hf : t.find id with
  | some r => exact lt_of_lt_of_le (t.lt_of_find hf) (nextID_le_exec s t)
  | none =>
    cases hf' : (s.exec t).2.find id with
    | none => exact absurd (hf'.trans hf.symm) h
    | some r => exact Table.lt_of_find _ hf'

namespace Log

variable {r : List LogEntry}

theorem of_suffix (h : Log log t) (hr : r <:+ log) : ∃ t', Log r t' := by
  induction h with
  | empty => exact ⟨_, by rw [suffix_nil.mp hr]; exact .empty⟩
  | @step log t s h ha ih =>
    rcases suffix_cons_iff.mp hr with rfl | hr
    · exact ⟨_, .step s h ha⟩
    · exact ih hr

theorem at_entry (h : Log log t) {e : LogEntry} (he : e :: r <:+ log) :
    Log r e.pre ∧ Admissible r e.stmt ∧ e = e.stmt.entry e.pre := by
  obtain ⟨t', h'⟩ := h.of_suffix he
  cases h' with
  | step s h₀ ha => exact ⟨h₀, ha, rfl⟩

theorem table_eq (h : Log log t) : t = (log.head?.map (·.post)).getD .empty := by
  cases h <;> rfl

theorem table_unique (h : Log log t) {t' : Table} (h' : Log log t') : t = t' :=
  h.table_eq.trans h'.table_eq.symm

/-- What holds at one point of a log, and is kept by every later statement, holds
from then on. -/
theorem since {P : Table → Prop} {t₀ : Table} (h : Log log t)
    (h₀ : Log r t₀) (hr : r <:+ log) (hP : P t₀)
    (hs : ∀ log' t' s, Log log' t' → r <:+ log' → Admissible log' s → P t' → P (s.exec t').2) :
    P t := by
  induction h with
  | empty =>
    obtain rfl := suffix_nil.mp hr
    rwa [Log.empty.table_unique h₀]
  | @step log t s h ha ih =>
    rcases suffix_cons_iff.mp hr with rfl | hr
    · rwa [(Log.step s h ha).table_unique h₀]
    · exact hs log t s h hr ha (ih hr)

end Log

/-- The failed attempts recorded on the row of `id`. -/
def failures (id : Nat) (log : List LogEntry) : Nat :=
  log.countP fun e => e.stmt.isMarkFailed && e.Changes id

/-- What every log keeps. `held` is the heart of it: the lease on a row was issued
by a claim that read the attempts the row still has, and `unspent` says that no mark
or release under it has taken effect yet. -/
structure LeaseInv (log : List LogEntry) (t : Table) : Prop where
  leased : ∀ id r, t.find id = some r → (r.leaseID = none ↔ r.leasedAt = none)
  dead : ∀ id r, t.find id = some r → r.doneAt ≠ none → r.leaseID = none
  held : ∀ id r L, t.find id = some r → r.leaseID = some L →
    ∃ task, Issued log task ∧ task.id = id ∧ task.leaseID = L ∧ task.attempts = r.attempts
  unspent : ∀ id r L, t.find id = some r → r.leaseID = some L →
    ∀ e ∈ log, e.stmt.Under id L → ¬ e.Changes id
  drawn : ∀ task, Issued log task → Drawn log task.leaseID
  unique : ∀ task task', Issued log task → Issued log task' → task.id = task'.id →
    task.leaseID = task'.leaseID → task = task'
  attempts : ∀ id r, t.find id = some r → r.attempts = failures id log
  allocated : ∀ e ∈ log, ∀ id, e.Changes id → id < t.nextID
  carried : ∀ e ∈ log, ∀ L, e.stmt.carries = some L → Drawn log L

theorem LeaseInv.empty : LeaseInv [] .empty := by
  have hnone : ∀ id, Table.empty.find id = none := fun _ => rfl
  constructor <;> simp [hnone, Issued]

section Preservation

variable {id : Nat} {r : Row} {L : String}

theorem issued_of_carries (ha : Admissible log s) (hc : s.carries = some L) :
    ∃ task, Issued log task ∧ task.leaseID = L := by
  cases s with
  | schedule p now dbNow => cases hc
  | claim queue now lease limit leaseID locked => cases hc
  | markDone task => exact ⟨task, ha, Option.some.inj hc⟩
  | markFailed task errMsg dead now runAt => exact ⟨task, ha.1, Option.some.inj hc⟩
  | release tasks =>
    cases tasks with
    | nil => cases hc
    | cons task rest => exact ⟨task, ha task mem_cons_self, Option.some.inj hc⟩
  | cleanup queue before => cases hc

/-- A mark or a release changes a row only while the row is under its lease. -/
theorem lease_of_changes (hc : s.carries = some L) (hch : (s.entry t).Changes id) :
    ∃ r, t.find id = some r ∧ r.leaseID = some L := by
  have hstep := exec_rowStep s t id
  change (s.exec t).2.find id ≠ t.find id at hch
  generalize t.find id = pre at *
  generalize (s.exec t).2.find id = post at *
  cases hstep with
  | same => exact absurd rfl hch
  | inserted => cases hc
  | claimed => cases hc
  | cleaned => cases hc
  | @done task r hid hl => exact ⟨r, rfl, hl.trans hc⟩
  | @failed task _ _ _ _ r hid hl => exact ⟨r, rfl, hl.trans hc⟩
  | @released task rest r hid hl => exact ⟨r, rfl, hl.trans hc⟩

/-- Once a mark or a release took effect, the row is no longer under its lease. -/
theorem lease_after_changes (hc : s.carries = some L) (hch : (s.entry t).Changes id)
    (hf : (s.exec t).2.find id = some r) : r.leaseID = none := by
  have hstep := exec_rowStep s t id
  change (s.exec t).2.find id ≠ t.find id at hch
  rw [hf] at hch hstep
  generalize t.find id = pre at *
  cases hstep with
  | same => exact absurd rfl hch
  | inserted => rfl
  | claimed => cases hc
  | failed => rfl
  | released => rfl

theorem lease_cases (hf : (s.exec t).2.find id = some r) (hl : r.leaseID = some L) :
    t.find id = some r ∨ s.draws = some L ∧ toLeased r ∈ (s.exec t).1.issued := by
  have hstep := exec_rowStep s t id
  rw [hf] at hstep
  generalize t.find id = pre at *
  cases hstep with
  | same => exact .inl rfl
  | inserted => cases hl
  | claimed hr hm => exact .inr ⟨hl, hm⟩
  | failed => cases hl
  | released => cases hl

theorem not_drawn_of_draws (ha : Admissible log s) (hd : s.draws = some L) : ¬ Drawn log L := by
  cases s with
  | claim queue now lease limit leaseID locked =>
    obtain rfl : leaseID = L := Option.some.inj hd
    exact ha
  | _ => cases hd

theorem leased_exec (hi : LeaseInv log t) (hf : (s.exec t).2.find id = some r) :
    (r.leaseID = none ↔ r.leasedAt = none) ∧ (r.doneAt ≠ none → r.leaseID = none) := by
  have hstep := exec_rowStep s t id
  rw [hf] at hstep
  generalize hpre : t.find id = pre at *
  cases hstep with
  | same => exact ⟨hi.leased id r hpre, hi.dead id r hpre⟩
  | inserted => simp [newRow]
  | claimed hr _ =>
    simp [lend, (ready_iff.mp hr).2.1]
  | failed => simp [fail]
  | released => simp [unlend]

theorem attempts_exec (hi : LeaseInv log t) (ha : Admissible log s)
    (hf : (s.exec t).2.find id = some r) : r.attempts = failures id (s.entry t :: log) := by
  have hcount : failures id (s.entry t :: log) =
      failures id log + if s.isMarkFailed && (s.entry t).Changes id then 1 else 0 := by
    rw [failures, countP_cons]
    rfl
  have hsame : s.isMarkFailed = false ∨ (s.exec t).2.find id = t.find id →
      failures id (s.entry t :: log) = failures id log := by
    rintro (h | h)
    · simp [hcount, h]
    · have : ¬ (s.entry t).Changes id := fun hc => hc h
      simp [hcount, this]
  have hstep := exec_rowStep s t id
  rw [hf] at hstep
  generalize hpre : t.find id = pre at *
  cases hstep with
  | same => rw [hsame (.inr hf), hi.attempts id r hpre]
  | inserted hid =>
    rw [hsame (.inl rfl)]
    refine (countP_eq_zero.mpr fun e he => ?_).symm
    have : ¬ e.Changes id := fun hc => by have := hi.allocated e he id hc; omega
    simp [this]
  | @claimed _ _ _ _ _ _ r₀ _ _ => rw [hsame (.inl rfl), ← hi.attempts id r₀ hpre]; rfl
  | @released task rest r₀ _ _ => rw [hsame (.inl rfl), ← hi.attempts id r₀ hpre]; rfl
  | @failed task errMsg dead now runAt r₀ hid hl =>
    -- the row still has the attempts that the claim of its lease read
    obtain ⟨task₀, hiss, hid₀, hl₀, hatt⟩ := hi.held id r₀ _ hpre hl
    obtain rfl : task = task₀ := hi.unique _ _ ha.1 hiss (hid.trans hid₀.symm) hl₀.symm
    have hch : (Stmt.entry (.markFailed task errMsg dead now runAt) t).Changes id := by
      change _ ≠ _
      intro he
      have he' := (hf.symm.trans he).trans hpre
      rw [← Option.some.inj he'] at hl
      cases hl
    rw [hcount, ← hi.attempts id r₀ hpre, ← hatt]
    simp [Stmt.isMarkFailed, hch, fail]

theorem LeaseInv.step (hi : LeaseInv log t) (ha : Admissible log s) :
    LeaseInv (s.entry t :: log) (s.exec t).2 where
  leased id r hf := (leased_exec hi hf).1
  dead id r hf := (leased_exec hi hf).2
  held id r L hf hl := by
    rcases lease_cases hf hl with hpre | ⟨-, hm⟩
    · obtain ⟨task, hiss, h⟩ := hi.held id r L hpre hl
      exact ⟨task, hiss.mono (suffix_cons _ _), h⟩
    · refine ⟨toLeased r, ⟨_, mem_cons_self, hm⟩, Table.find_id _ hf, ?_, rfl⟩
      simp [toLeased, hl]
  unspent id r L hf hl e he hu hc := by
    rcases mem_cons.mp he with rfl | he
    · rw [lease_after_changes hu.1 hc hf] at hl
      cases hl
    · rcases lease_cases hf hl with hpre | ⟨hd, -⟩
      · exact hi.unspent id r L hpre hl e he hu hc
      · exact not_drawn_of_draws ha hd (hi.carried e he L hu.1)
  drawn task hiss := by
    rcases issued_cons hiss with hm | hiss
    · exact ⟨_, mem_cons_self, drawn_of_mem_issued hm⟩
    · exact (hi.drawn task hiss).mono (suffix_cons _ _)
  unique task task' hiss hiss' hid hL := by
    rcases issued_cons hiss with hm | hiss <;> rcases issued_cons hiss' with hm' | hiss'
    · exact eq_of_mem_issued hm hm' hid
    · exact absurd (hL ▸ hi.drawn _ hiss') (not_drawn_of_draws ha (drawn_of_mem_issued hm))
    · exact absurd (hL ▸ hi.drawn _ hiss) (not_drawn_of_draws ha (drawn_of_mem_issued hm'))
    · exact hi.unique task task' hiss hiss' hid hL
  attempts id r hf := attempts_exec hi ha hf
  allocated e he id hc := by
    rcases mem_cons.mp he with rfl | he
    · exact lt_nextID_of_changes hc
    · exact lt_of_lt_of_le (hi.allocated e he id hc) (nextID_le_exec s t)
  carried e he L hc := by
    rcases mem_cons.mp he with rfl | he
    · obtain ⟨task, hiss, rfl⟩ := issued_of_carries ha hc
      exact (hi.drawn task hiss).mono (suffix_cons _ _)
    · exact (hi.carried e he L hc).mono (suffix_cons _ _)

theorem Log.leaseInv (h : Log log t) : LeaseInv log t := by
  induction h with
  | empty => exact .empty
  | step s _ ha ih => exact ih.step ha

end Preservation

section Ownership

variable {r : List LogEntry} {t₀ : Table} {id : Nat} {L : String}

/-- A row that is not under a lease already drawn is never under it again. -/
theorem Log.lease_lost (h : Log log t) (h₀ : Log r t₀) (hr : r <:+ log) (hd : Drawn r L)
    (hl : ∀ row, t₀.find id = some row → row.leaseID ≠ some L) :
    ∀ row, t.find id = some row → row.leaseID ≠ some L := by
  refine h.since (P := fun t => ∀ row, t.find id = some row → row.leaseID ≠ some L) h₀ hr hl ?_
  intro log' t' s _ hr' ha hP row hf hrow
  rcases lease_cases hf hrow with hpre | ⟨hdraw, -⟩
  · exact hP row hpre hrow
  · exact not_drawn_of_draws ha hdraw (hd.mono hr')

/-- A dead row stays dead, and its id is not used again. -/
theorem Log.stays_dead (h : Log log t) (h₀ : Log r t₀) (hr : r <:+ log) (hlt : id < t₀.nextID)
    (hd : ∀ row, t₀.find id = some row → row.doneAt ≠ none) :
    id < t.nextID ∧ ∀ row, t.find id = some row → row.doneAt ≠ none := by
  refine h.since
    (P := fun t => id < t.nextID ∧ ∀ row, t.find id = some row → row.doneAt ≠ none) h₀ hr
    ⟨hlt, hd⟩ ?_
  rintro log' t' s hlog - ha ⟨hlt', hP⟩
  refine ⟨lt_of_lt_of_le hlt' (nextID_le_exec s t'), fun row hf => ?_⟩
  have hstep := exec_rowStep s t' id
  rw [hf] at hstep
  generalize hpre : t'.find id = pre at *
  cases hstep with
  | same => exact hP row rfl
  | inserted hid => omega
  | claimed hready _ => exact absurd (ready_iff.mp hready).2.1 (hP _ rfl)
  | @failed task errMsg dead now runAt r₀ _ hl =>
    exact absurd (hlog.leaseInv.dead id r₀ hpre (hP r₀ rfl)) (by simp [hl])
  | @released task rest r₀ _ _ => exact hP r₀ rfl

/-- The lease guard of a mark: without the lease it reports that the lease is lost. -/
theorem marked_lost {s : Stmt} (hu : s.Under id L)
    (hl : ∀ row, t.find id = some row → row.leaseID ≠ some L) {err : Option Err}
    (hm : (s.exec t).1 = .marked err) : err = some errLeaseLost := by
  have hlost : ∀ task : Leased, task.leaseID = L → id = task.id →
      t.markErr task = some errLeaseLost := by
    rintro task rfl rfl
    rw [markErr, if_neg]
    intro hany
    obtain ⟨row, hrow, hg⟩ := any_eq_true.mp hany
    obtain ⟨hid, hlease⟩ := guarded_iff.mp hg
    exact hl row (t.find_eq_some.mpr ⟨hrow, hid⟩) hlease
  obtain ⟨hc, hn⟩ := hu
  cases s with
  | markDone task =>
    rw [← Reply.marked.inj hm]
    exact hlost task (Option.some.inj hc) (mem_singleton.mp hn)
  | markFailed task errMsg dead now runAt =>
    rw [← Reply.marked.inj hm]
    exact hlost task (Option.some.inj hc) (mem_singleton.mp hn)
  | release tasks => cases hm
  | _ => cases hc

/-- A task that was handed out again is out of reach of its first lease. -/
theorem Log.reclaimed {c c' m : LogEntry} {r₀ r₁ r₂ : List LogEntry} (h : Log log t)
    (h₁ : c :: r₀ <:+ r₁) (h₂ : c' :: r₁ <:+ r₂) (h₃ : m :: r₂ <:+ log) {task task' : Leased}
    (ht : task ∈ c.reply.issued) (ht' : task' ∈ c'.reply.issued) (hid : task'.id = task.id)
    (hu : m.stmt.Under task.id task.leaseID) :
    ¬ m.Changes task.id ∧ ∀ err, m.reply = .marked err → err = some errLeaseLost := by
  obtain ⟨hm, -, hme⟩ := h.at_entry h₃
  obtain ⟨hc', ha', hce'⟩ := hm.at_entry h₂
  have hdrawn : Drawn r₁ task.leaseID :=
    hc'.leaseInv.drawn task ⟨c, h₁.mem mem_cons_self, ht⟩
  -- the second claim lends the row under a lease of its own
  rw [hce'] at ht'
  obtain ⟨queue, now, lease, limit, leaseID, locked, row, hs, -, -, rfl, hpost⟩ := mem_issued ht'
  have hne : leaseID ≠ task.leaseID := by
    rintro rfl
    exact not_drawn_of_draws ha' (by rw [hs]; rfl) hdrawn
  have hlost : ∀ row, m.pre.find task.id = some row → row.leaseID ≠ some task.leaseID := by
    refine hm.lease_lost (Log.step _ hc' ha') (hce' ▸ h₂) (hdrawn.mono (suffix_cons _ _)) ?_
    intro row' hf
    rw [← hid] at hf
    rw [Option.some.inj (hf.symm.trans hpost)]
    simpa [lend] using hne
  refine ⟨fun hch => ?_, fun err herr => ?_⟩
  · rw [hme] at hch
    obtain ⟨row', hf, hl⟩ := lease_of_changes hu.1 hch
    exact hlost row' hf hl
  · rw [hme] at herr
    exact marked_lost hu hlost herr

/-- Of the marks and releases under one lease of a task at most one takes effect. -/
theorem Log.spent_once (h : Log log t) (id : Nat) (L : String) :
    (log.filter fun e => e.stmt.Under id L ∧ e.Changes id).length ≤ 1 := by
  induction h with
  | empty => simp
  | @step log t s h ha ih =>
    by_cases hs : (s.entry t).stmt.Under id L ∧ (s.entry t).Changes id
    · obtain ⟨row, hf, hl⟩ := lease_of_changes hs.1.1 hs.2
      have hnone : log.filter (fun e => e.stmt.Under id L ∧ e.Changes id) = [] := by
        refine filter_eq_nil_iff.mpr fun e he => ?_
        simpa using h.leaseInv.unspent id row L hf hl e he
      rw [filter_cons, hnone]
      split_ifs <;> simp
    · rwa [filter_cons, if_neg (mt of_decide_eq_true hs)]

theorem Log.dead_not_issued {c : LogEntry} {r₀ r₁ : List LogEntry} (h : Log log t)
    (h₀ : Log r₀ t₀) (hr : r₀ <:+ r₁) (hc : c :: r₁ <:+ log) {row : Row} (hrow : row ∈ t₀.rows)
    (hd : row.doneAt ≠ none) {task : Leased} (ht : task ∈ c.reply.issued) : task.id ≠ row.id := by
  intro hid
  obtain ⟨hpre, -, hce⟩ := h.at_entry hc
  have hf₀ : t₀.find row.id = some row := t₀.find_eq_some.mpr ⟨hrow, rfl⟩
  have hdead := (hpre.stays_dead h₀ hr (t₀.lt_of_find hf₀) fun row' hf' => by
    rwa [← Option.some.inj (hf₀.symm.trans hf')]).2
  rw [hce] at ht
  obtain ⟨_, _, _, _, _, _, row', _, hf', hready, _, _⟩ := mem_issued ht
  exact hdead row' (hid ▸ hf') (ready_iff.mp hready).2.1

/-- Lease ownership, for any interleaving of the statements: a mark or a release
takes effect only under its own lease, a reclaimed task is out of reach of its
first lease, a lease is spent at most once, the lease columns agree, a dead row is
never handed out again, and `attempts` counts the failed attempts recorded. -/
theorem lease_ownership (h : Log log t) :
    (∀ e ∈ log, ∀ L id, e.stmt.carries = some L → e.Changes id →
      ∃ row, e.pre.find id = some row ∧ row.leaseID = some L) ∧
    (∀ c r₀ c' r₁ m r₂, c :: r₀ <:+ r₁ → c' :: r₁ <:+ r₂ → m :: r₂ <:+ log →
      ∀ task ∈ c.reply.issued, ∀ task' ∈ c'.reply.issued, task'.id = task.id →
      m.stmt.Under task.id task.leaseID →
      ¬ m.Changes task.id ∧ ∀ err, m.reply = .marked err → err = some errLeaseLost) ∧
    (∀ id L, (log.filter fun e => e.stmt.Under id L ∧ e.Changes id).length ≤ 1) ∧
    (∀ row ∈ t.rows, (row.leaseID = none ↔ row.leasedAt = none) ∧
      (row.doneAt ≠ none → row.leaseID = none)) ∧
    (∀ r₀ t₀ c r₁, Log r₀ t₀ → r₀ <:+ r₁ → c :: r₁ <:+ log →
      ∀ row ∈ t₀.rows, row.doneAt ≠ none → ∀ task ∈ c.reply.issued, task.id ≠ row.id) ∧
    (∀ row ∈ t.rows, row.attempts = failures row.id log) := by
  have hi := h.leaseInv
  have hfind : ∀ row ∈ t.rows, t.find row.id = some row := fun row hrow =>
    t.find_eq_some.mpr ⟨hrow, rfl⟩
  refine ⟨?_, ?_, h.spent_once, ?_, ?_, fun row hrow => hi.attempts _ _ (hfind row hrow)⟩
  · intro e he L id hc hch
    obtain ⟨l₁, r, rfl⟩ := append_of_mem he
    obtain ⟨-, -, hee⟩ := h.at_entry ⟨l₁, rfl⟩
    rw [hee] at hch
    exact lease_of_changes hc hch
  · intro c r₀ c' r₁ m r₂ h₁ h₂ h₃ task ht task' ht' hid hu
    exact h.reclaimed h₁ h₂ h₃ ht ht' hid hu
  · exact fun row hrow => ⟨hi.leased _ _ (hfind row hrow), hi.dead _ _ (hfind row hrow)⟩
  · intro r₀ t₀ c r₁ h₀ hr hc row hrow hd task ht
    exact h.dead_not_issued h₀ hr hc hrow hd ht

/-- A task is claimed, reclaimed after its lease ran out, marked in vain under the
first lease and failed under the second. -/
theorem lease_ownership_reclaimed : ∃ log t, Log log t ∧ (t.rows.map (·.attempts)) = [1] ∧
    log.length = 5 ∧ ∀ row ∈ t.rows, row.attempts = failures row.id log := by
  let task (L : String) : Leased := ⟨⟨1, "mail", "send", "", [], 0, 0, 0, ""⟩, L⟩
  have h₁ := Log.empty.step (.schedule ⟨"mail", "send", "", [], 0⟩ 0 0) trivial
  have h₂ := h₁.step (.claim "mail" 0 second 1 "a" fun _ => false)
    (by simp [Admissible, Drawn, Stmt.entry, Stmt.draws])
  have h₃ := h₂.step (.claim "mail" (2 * second) second 1 "b" fun _ => false)
    (by simp [Admissible, Drawn, Stmt.entry, Stmt.draws])
  have h₄ := h₃.step (.markDone (task "a"))
    ⟨_, mem_cons_of_mem _ mem_cons_self, by decide⟩
  have h₅ := h₄.step (.markFailed (task "b") "refused" false (2 * second) (4 * second))
    ⟨⟨_, mem_cons_of_mem _ mem_cons_self, by decide⟩, by decide⟩
  exact ⟨_, _, h₅, by decide, rfl, (lease_ownership h₅).2.2.2.2.2⟩

end Ownership

end Skit.Queue
