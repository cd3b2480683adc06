import Skit.Lib.Run
import Skit.Queue.Lease
import Skit.Worker.Settling

/-!
# The workers of the queues

A worker loop drains its queue again and again, and keeps nothing from one drain
to the next. So a run of the workers is a run of drains: any number of them, of any
consumers, interleaved in any order. Producers and cleaners are the environment.

A statement of a drain runs and answers, or runs with its answer lost, or does not
run at all; in the last two cases the drain sees an error. A drain that makes no
further call has crashed.
-/
namespace Skit.Queue
open Lib Worker Table List

/-- `Permanent`. -/
def permanent : Option Err → Option Err := Option.map .permanent

/-- `Halt`. -/
def halt : Option Err → Option Err := Option.map .halt

def isPermanent (err : Err) : Bool :=
  (err.asType fun | .permanent e => some e | _ => none).isSome

def isHalt (err : Err) : Bool :=
  (err.asType fun | .halt e => some e | _ => none).isSome

structure Config where
  queue : String
  concurrency : Int
  batch : Int
  timeout : Int
  poll : Int

def Config.withDefaults (c : Config) : Config :=
  { c with
    concurrency := cmpOr c.concurrency 1
    batch := cmpOr c.batch 1
    timeout := cmpOr c.timeout (30 * second)
    poll := cmpOr c.poll second }

/-- How long a claimed task stays leased. -/
def Config.lease (c : Config) : Int := wrap64 (3 * c.timeout + 10 * second)

/-- `retry.Backoff` as the queue uses it: without jitter `Next` is a function of the
attempt, which the source computes in floating point and clamps at zero. -/
structure Backoff where
  maxAttempts : Int
  next : Int → Int
  next_nonneg : ∀ n, 0 ≤ next n

def Backoff.exhausted (b : Backoff) (attempts : Int) : Bool :=
  0 < b.maxAttempts && b.maxAttempts ≤ attempts

/-- The consumer of one queue. `h` is the handler: what it makes of a task and of the
answer of the world. `onPanic` says whether `WithOnPanic` is given. -/
structure Consumer (R : Type) where
  cfg : Config
  h : Task → R → Outcome
  backoff : Backoff
  onPanic : Bool
  sanitize : String → String

namespace Consumer

variable {R : Type} (c : Consumer R)

/-- `Handle` returns a panic of the handler as an error. -/
def handle (task : Leased) (answer : R) : Outcome :=
  .returned (safetickCall (c.h task.toTask answer))

def claim (now limit : Int) (leaseID : String) (locked : Nat → Bool) : Stmt :=
  .claim c.cfg.queue now c.cfg.lease limit leaseID locked

def markFailed (task : Leased) (errMsg : String) (terminal : Bool) (now : Int) : Stmt :=
  let attempts := task.attempts + 1
  .markFailed task errMsg (terminal || c.backoff.exhausted attempts) now
    (now + c.backoff.next attempts)

/-- `newProcessor`. -/
def processor : Processor Leased R :=
  newProcessor c.handle true c.sanitize
    { name := "queue-" ++ c.cfg.queue
      batchSize := c.cfg.batch
      handleTimeout := c.cfg.timeout
      batchTimeout := c.cfg.timeout
      isTerminal := some isPermanent
      isHalt := some isHalt
      onPanic := c.onPanic }

@[simp] theorem processor_onPanic : c.processor.cfg.onPanic = c.onPanic := rfl

@[simp] theorem processor_handleTimeout : c.processor.cfg.handleTimeout = c.cfg.timeout := rfl

@[simp] theorem processor_batchTimeout : c.processor.cfg.batchTimeout = c.cfg.timeout := rfl

@[simp] theorem processor_isTerminal (e : Err) : c.processor.isTerminal e = isPermanent e := rfl

/-- The statement that a call of the processor runs. -/
inductive Runs : Call Leased → Stmt → Prop
  | claim {now limit : Int} (leaseID : String) (locked : Nat → Bool) :
      Runs (.claim now limit) (c.claim now limit leaseID locked)
  | markDone {task : Leased} {now : Int} : Runs (.markDone task now) (.markDone task)
  | markFailed {task : Leased} {errMsg : String} {terminal : Bool} {now : Int} :
      Runs (.markFailed task errMsg terminal now) (c.markFailed task errMsg terminal now)
  | release {rest : List Leased} : Runs (.release rest) (.release rest)

end Consumer

/-- The calls that run a statement. -/
def isStatement : Call Leased → Bool
  | .claim _ _ => true
  | .markDone _ _ => true
  | .markFailed _ _ _ _ => true
  | .release _ => true
  | _ => false

/-- The answer that a reply makes of a call. -/
inductive Answers {R : Type} : (o : Call Leased) → Reply → Ans Leased R o → Prop
  | claim {now limit : Int} {r : Except Err (List Leased)} :
      Answers (.claim now limit) (.claimed r) r
  | markDone {task : Leased} {now : Int} {err : Option Err} :
      Answers (.markDone task now) (.marked err) err
  | markFailed {task : Leased} {errMsg : String} {terminal : Bool} {now : Int}
      {err : Option Err} : Answers (.markFailed task errMsg terminal now) (.marked err) err
  | release {rest : List Leased} {err : Option Err} :
      Answers (.release rest) (.released err) err

/-- The answers of a call whose statement did not run or whose reply was lost. -/
inductive Fails {R : Type} : (o : Call Leased) → Ans Leased R o → Prop
  | claim {now limit : Int} (err : Err) : Fails (.claim now limit) (.error err)
  | markDone {task : Leased} {now : Int} (err : Err) : Fails (.markDone task now) (some err)
  | markFailed {task : Leased} {errMsg : String} {terminal : Bool} {now : Int} (err : Err) :
      Fails (.markFailed task errMsg terminal now) (some err)
  | release {rest : List Leased} (err : Err) : Fails (.release rest) (some err)

/-- The table, with the statements that were run on it. -/
structure Store where
  table : Table
  log : List LogEntry

def Store.run (s : Store) (st : Stmt) : Store := ⟨(st.exec s.table).2, st.entry s.table :: s.log⟩

/-- Lease ids are fresh, and an attempt count that does not fit its column is not
sent. -/
def Sent (log : List LogEntry) : Stmt → Prop
  | .claim _ _ _ _ leaseID _ => ¬ Drawn log leaseID
  | .markFailed task _ _ _ _ => task.attempts + 1 < 2 ^ 31
  | _ => True

/-- A call of a drain with its answer. -/
abbrev Ev (R : Type) := Event Int (Call Leased) (Ans Leased R)

/-- What a call of a drain does. -/
inductive Sem {R : Type} (c : Consumer R) (s : Store) :
    Ev R → Store → Prop
  | inside {ev : Ev R} : isStatement ev.op = false → Sem c s ev s
  | replied {ev : Ev R} {st : Stmt} : c.Runs ev.op st →
      Sent s.log st → Answers ev.op (st.exec s.table).1 ev.ans → Sem c s ev (s.run st)
  | lost {ev : Ev R} {st : Stmt} : c.Runs ev.op st →
      Sent s.log st → Fails ev.op ev.ans → Sem c s ev (s.run st)
  | failed {ev : Ev R} {st : Stmt} : c.Runs ev.op st →
      Fails ev.op ev.ans → Sem c s ev s

/-- `deadRetention` is how long a dead task stays in the table. -/
def deadRetention : Int := 7 * 24 * 3600 * second

/-- The statements of producers and cleaners, with the clock readings they use. -/
inductive Env
  | schedule (p : Params) (now dbNow : Int)
  | cleanup (queue : String) (now : Int)

def Env.stmt : Env → Stmt
  | .schedule p now dbNow => .schedule p now dbNow
  | .cleanup queue now => .cleanup queue (now - deadRetention)

/-- The drains `ι` of the given consumers, over the table that `EnsureSchema` creates. -/
def workers {ι R : Type} (cons : ι → Consumer R) :
    System ι Int (Call Leased) (Ans Leased R) Env Store (Pace × Option Err) where
  prog i := (cons i).processor.drain
  init s := s = ⟨.empty, []⟩
  sem i := Sem (cons i)
  env s _ x s' := s' = s.run x.stmt

section Runs

variable {ι R : Type} {cons : ι → Consumer R}

/-- Histories of a drain. -/
abbrev History (R : Type) := List (Ev R)

/-- An entry of a run of the workers. -/
abbrev Point (ι R : Type) := Entry ι Int (Call Leased) (Ans Leased R) Env Store

/-- Runs of the workers, latest entry first. -/
abbrev Trace (ι R : Type) := List (Point ι R)

/-- The workers and their table at one moment. -/
abbrev Moment (ι R : Type) :=
  Lib.Config ι (Call Leased) (Ans Leased R) Store (Pace × Option Err)

/-- The statement that an action runs, if it does run. -/
inductive Executes (cons : ι → Consumer R) :
    Act ι Int (Call Leased) (Ans Leased R) Env → Stmt → Prop
  | proc {i : ι} {ev : Ev R} {st : Stmt} :
      (cons i).Runs ev.op st → Executes cons (.proc i ev) st
  | env {t : Int} {x : Env} {st : Stmt} : x.stmt = st → Executes cons (.env t x) st

section Inversion

variable {act : Act ι Int (Call Leased) (Ans Leased R) Env} {task : Leased} {queue : String}

theorem executes_markDone (h : Executes cons act (.markDone task)) :
    ∃ i t now err, act = .proc i ⟨t, .markDone task now, err⟩ := by
  cases h with
  | env hs => rename_i x; cases x <;> cases hs
  | @proc i ev _ hr =>
    obtain ⟨t, o, a⟩ := ev
    cases hr with
    | markDone => exact ⟨i, t, _, a, rfl⟩

theorem executes_markFailed {errMsg : String} {dead : Bool} {now runAt : Int}
    (h : Executes cons act (.markFailed task errMsg dead now runAt)) :
    ∃ i t terminal err, act = .proc i ⟨t, .markFailed task errMsg terminal now, err⟩ ∧
      dead = (terminal || (cons i).backoff.exhausted (task.attempts + 1)) ∧
      runAt = now + (cons i).backoff.next (task.attempts + 1) := by
  cases h with
  | env hs => rename_i x; cases x <;> cases hs
  | @proc i ev _ hr =>
    obtain ⟨t, o, a⟩ := ev
    cases hr with
    | markFailed => exact ⟨i, t, _, a, rfl, rfl, rfl⟩

theorem executes_claim {now lease limit : Int} {leaseID : String}
    {locked : Nat → Bool} (h : Executes cons act (.claim queue now lease limit leaseID locked)) :
    ∃ i t a, act = .proc i ⟨t, .claim now limit, a⟩ ∧ queue = (cons i).cfg.queue ∧
      lease = (cons i).cfg.lease := by
  cases h with
  | env hs => rename_i x; cases x <;> cases hs
  | @proc i ev _ hr =>
    obtain ⟨t, o, a⟩ := ev
    cases hr with
    | claim => exact ⟨i, t, a, rfl, rfl, rfl⟩

theorem executes_release {rest : List Leased} (h : Executes cons act (.release rest)) :
    ∃ i t err, act = .proc i ⟨t, .release rest, err⟩ := by
  cases h with
  | env hs => rename_i x; cases x <;> cases hs
  | @proc i ev _ hr =>
    obtain ⟨t, o, a⟩ := ev
    cases hr with
    | release => exact ⟨i, t, a, rfl⟩

theorem executes_cleanup {before : Int} (h : Executes cons act (.cleanup queue before)) :
    ∃ t now, act = .env t (.cleanup queue now) ∧ before = now - deadRetention := by
  cases h with
  | @env t x _ hs =>
    cases x with
    | schedule p now dbNow => cases hs
    | cleanup queue now => cases hs; exact ⟨t, now, rfl, rfl⟩
  | @proc i ev _ hr =>
    obtain ⟨t, o, a⟩ := ev
    cases hr

end Inversion

/-- The drain claimed `task` at the reading `start`. -/
def Claimed (h : History R) (start : Int) (task : Leased) : Prop :=
  ∃ t limit tasks, ⟨t, .claim start limit, .ok tasks⟩ ∈ h ∧ task ∈ tasks

variable {task : Leased}

theorem Claimed.mono {h h' : History R} {start : Int} (hc : Claimed h start task)
    (hs : h <:+ h') : Claimed h' start task := by
  obtain ⟨t, limit, tasks, hm, ht⟩ := hc
  exact ⟨t, limit, tasks, hs.mem hm, ht⟩

theorem Claimed.cases [DecidableEq ι] {e : Point ι R}
    {r : Trace ι R} {i : ι} {start : Int}
    (hc : Claimed (hist i (e :: r)) start task) :
    Claimed (hist i r) start task ∨ ∃ t limit tasks,
      e.act = .proc i ⟨t, .claim start limit, .ok tasks⟩ ∧ task ∈ tasks := by
  obtain ⟨t, limit, tasks, hm, ht⟩ := hc
  obtain ⟨e', he', ha⟩ := mem_hist.mp hm
  rcases mem_cons.mp he' with rfl | he'
  · exact .inr ⟨t, limit, tasks, ha, ht⟩
  · exact .inl ⟨t, limit, tasks, mem_hist.mpr ⟨e', he', ha⟩, ht⟩

theorem Batch.claims {p : Processor Leased R} {b : Batch Int Leased R}
    (ht : task ∈ b.items) : Claimed (b.hist p) b.start task :=
  ⟨b.claimed, p.cfg.batchSize, b.items, by simp [Batch.hist], ht⟩

/-- All readings come from one clock, which the times of the run are read off; a
producer or a cleaner reads it before its statement. -/
def SharedClock (tr : Trace ι R) : Prop :=
  ∀ e ∈ tr, match e.act with
    | .proc _ ⟨t, .now, reading⟩ => reading = t
    | .proc _ _ => True
    | .env t (.schedule _ now _) => now ≤ t
    | .env t (.cleanup _ now) => now ≤ t

theorem SharedClock.of_suffix {tr r : Trace ι R} (h : SharedClock tr) (hr : r <:+ tr) :
    SharedClock r :=
  fun e he => h e (hr.mem he)

variable [DecidableEq ι] {tr r : Trace ι R}
  {c c' : Moment ι R}
  {e : Point ι R} {i : ι}
  {ev : Ev R}

theorem step_cases (hst : Step (workers cons) c e c') :
    e.pre = c.store ∧ (e.post = e.pre ∨
      ∃ st, Executes cons e.act st ∧ Sent e.pre.log st ∧ e.post = e.pre.run st) := by
  cases hst with
  | env hx => exact ⟨rfl, .inr ⟨_, .env rfl, by rename_i x _; cases x <;> trivial, hx⟩⟩
  | proc hp hs =>
    refine ⟨rfl, ?_⟩
    cases hs with
    | inside _ => exact .inl rfl
    | replied hr hsent _ => exact .inr ⟨_, .proc hr, hsent, rfl⟩
    | lost hr hsent _ => exact .inr ⟨_, .proc hr, hsent, rfl⟩
    | failed _ _ => exact .inl rfl

theorem step_env (hst : Step (workers cons) c e c') {t : Int} {x : Env} (ha : e.act = .env t x) :
    e.post = e.pre.run x.stmt := by
  cases hst with
  | env hx =>
    cases ha
    exact hx
  | proc hp hs => cases ha

/-- A claim that returned tasks ran, and these are the tasks it issued. -/
theorem step_claim (hst : Step (workers cons) c e c') {t now limit : Int} {tasks : List Leased}
    (ha : e.act = .proc i ⟨t, .claim now limit, .ok tasks⟩) :
    ∃ leaseID locked, ¬ Drawn e.pre.log leaseID ∧
      e.post = e.pre.run ((cons i).claim now limit leaseID locked) ∧
      (((cons i).claim now limit leaseID locked).exec e.pre.table).1.issued = tasks := by
  cases hst with
  | env hx => cases ha
  | proc hp hs =>
    obtain ⟨rfl, hev⟩ := Act.proc.inj ha
    rw [hev] at hs
    cases hs with
    | inside hno => cases hno
    | replied hr hsent hans =>
      cases hr with
      | claim leaseID locked =>
        refine ⟨leaseID, locked, hsent, rfl, ?_⟩
        generalize Stmt.exec _ _ = x at hans
        obtain ⟨reply, t'⟩ := x
        dsimp only at hans
        cases hans
        rfl
    | lost hr _ hf => cases hf
    | failed _ hf => cases hf

theorem admits (h : Run (workers cons) tr c) (he : e :: r <:+ tr) (ha : e.act = .proc i ev) :
    Admits (cons i).processor (hist i r) ev.op :=
  h.admitted (J := fun i => Admits (cons i).processor) (Q := fun i => Drained (cons i).processor)
    (fun _ => wp_drain _) he ha

theorem claimed_of_mem_items (h : Run (workers cons) tr c) (he : e :: r <:+ tr)
    (ha : e.act = .proc i ev) (ht : task ∈ ev.op.items) :
    ∃ start, Claimed (hist i r) start task := by
  obtain ⟨b, hm, hs⟩ := (admits h he ha).mem_batch ht
  exact ⟨b.start, (Batch.claims hm).mono hs⟩

theorem admissible_of_sent {st : Stmt} (h : Run (workers cons) tr c) (he : e :: r <:+ tr)
    (hiss : ∀ i start task, Claimed (hist i r) start task → Issued e.pre.log task)
    (hx : Executes cons e.act st) (hsent : Sent e.pre.log st) : Admissible e.pre.log st := by
  generalize ha : e.act = act at hx
  cases hx with
  | env hs => rename_i x; cases x <;> cases hs <;> trivial
  | @proc i ev st hr =>
    have hissued : ∀ task ∈ ev.op.items, Issued e.pre.log task := by
      intro task ht
      obtain ⟨start, hc⟩ := claimed_of_mem_items h he ha ht
      exact hiss i start task hc
    obtain ⟨t, o, a⟩ := ev
    cases hr with
    | claim leaseID locked => exact hsent
    | markDone => exact hissued _ mem_cons_self
    | markFailed => exact ⟨hissued _ mem_cons_self, hsent⟩
    | release => exact hissued

/-- What the drains of a run have claimed was issued by the log of the table. -/
theorem run_log (h : Run (workers cons) tr c) : Log c.store.log c.store.table ∧
    ∀ i start task, Claimed (hist i tr) start task → Issued c.store.log task := by
  refine h.invariant (fun tr s => Log s.log s.table ∧
    ∀ i start task, Claimed (hist i tr) start task → Issued s.log task) ?_ ?_
  · rintro s rfl
    refine ⟨.empty, ?_⟩
    rintro i start task ⟨_, _, _, hm, _⟩
    exact absurd hm not_mem_nil
  · rintro tr c e c' h h' hst ⟨hlog, hiss⟩
    obtain ⟨hpre, hcases⟩ := step_cases hst
    rw [← hpre] at hlog hiss
    have hgrow : Log e.post.log e.post.table ∧ e.pre.log <:+ e.post.log := by
      rcases hcases with heq | ⟨st, hx, hsent, heq⟩
      · rw [heq]
        exact ⟨hlog, suffix_refl _⟩
      · have hadm := admissible_of_sent h' (suffix_refl _) hiss hx hsent
        rw [heq]
        exact ⟨hlog.step st hadm, suffix_cons _ _⟩
    refine ⟨hgrow.1, ?_⟩
    intro i start task hc
    rcases hc.cases with hc | ⟨t, limit, tasks, ha, ht⟩
    · exact (hiss i start task hc).mono hgrow.2
    · obtain ⟨leaseID, locked, -, heq, htasks⟩ := step_claim hst ha
      rw [heq]
      exact ⟨_, mem_cons_self, htasks ▸ ht⟩

/-- An entry of a run leaves the store as it is, or runs one admissible statement on
the table its log has left. -/
theorem entry_cases (h : Run (workers cons) tr c) (he : e :: r <:+ tr) :
    Log e.pre.log e.pre.table ∧ (e.post = e.pre ∨
      ∃ st, Executes cons e.act st ∧ Admissible e.pre.log st ∧ e.post = e.pre.run st) := by
  obtain ⟨c₀, c₁, h₀, hst⟩ := h.at_entry he
  obtain ⟨hpre, hcases⟩ := step_cases hst
  obtain ⟨hlog, hiss⟩ := run_log h₀
  rw [← hpre] at hlog hiss
  refine ⟨hlog, hcases.imp id ?_⟩
  rintro ⟨st, hx, hsent, heq⟩
  exact ⟨st, hx, admissible_of_sent h he hiss hx hsent, heq⟩

theorem row_cases (h : Run (workers cons) tr c) (he : e :: r <:+ tr) (id : Nat) :
    e.post.table.find id = e.pre.table.find id ∨ ∃ st, Executes cons e.act st ∧
      Admissible e.pre.log st ∧
      RowStep e.pre.table id st (e.pre.table.find id) (e.post.table.find id) := by
  rcases (entry_cases h he).2 with heq | ⟨st, hx, hadm, heq⟩
  · exact .inl (by rw [heq])
  · refine .inr ⟨st, hx, hadm, ?_⟩
    rw [heq]
    exact exec_rowStep st _ id

theorem SharedClock.now_eq (h : SharedClock tr) {t reading : Int}
    (hm : (⟨t, .now, reading⟩ : Ev R) ∈ hist i tr) :
    reading = t := by
  obtain ⟨e, he, ha⟩ := mem_hist.mp hm
  have := h e he
  rwa [ha] at this

end Runs

end Skit.Queue
