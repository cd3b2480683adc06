import Skit.Basic
import Mathlib.Data.List.Nodup
import Mathlib.Data.List.Sort
import Mathlib.Tactic.SplitIfs

/-!
# The table of the queues

`queue_tasks` with the statements of `PG`. The constraints of the schema are
fields of `Table`: ids come from a sequence, no two rows share an id, and the
partial index keeps the keys of a queue apart. Times in rows are stamps.

Every statement is a function of the table it runs on. What another transaction
has locked is an argument of `claim`, whose `FOR UPDATE SKIP LOCKED` passes over it.
-/
namespace Skit.Queue
open List

/-- A row of `queue_tasks`. -/
structure Row where
  id : Nat
  queue : String
  kind : String
  key : Option String
  payload : List UInt8
  createdAt : Int
  runAt : Int
  attempts : Nat
  leasedAt : Option Int
  leaseID : Option String
  lastError : Option String
  doneAt : Option Int
  deriving DecidableEq, Repr

/-- Two rows that the unique index on `(queue, key)` does not allow together. -/
def Row.SameKey (r r' : Row) : Prop := r.queue = r'.queue ∧ r.key = r'.key ∧ r.key ≠ none

instance (r r' : Row) : Decidable (r.SameKey r') := inferInstanceAs (Decidable (_ ∧ _ ∧ _))

/-- A task as its handler sees it. -/
structure Task where
  id : Nat
  queue : String
  kind : String
  key : String
  payload : List UInt8
  createdAt : Int
  runAt : Int
  attempts : Nat
  lastError : String
  deriving DecidableEq, Repr

/-- A task under the lease of the claim that returned it. -/
structure Leased extends Task where
  leaseID : String
  deriving DecidableEq, Repr

structure Params where
  queue : String
  kind : String
  key : String
  payload : List UInt8
  delay : Int
  deriving DecidableEq, Repr

/-- The instant a stamp stands for. -/
def instant (s : Int) : Int := 1000 * s

/-- NULL columns become zero values. -/
def toLeased (r : Row) : Leased where
  id := r.id
  queue := r.queue
  kind := r.kind
  key := r.key.getD ""
  payload := r.payload
  createdAt := instant r.createdAt
  runAt := instant r.runAt
  attempts := r.attempts
  lastError := r.lastError.getD ""
  leaseID := r.leaseID.getD ""

structure Table where
  rows : List Row
  nextID : Nat
  ids_lt : ∀ r ∈ rows, r.id < nextID
  ids_nodup : (rows.map Row.id).Nodup
  keys : rows.Pairwise fun r r' => ¬ r.SameKey r'

namespace Table

variable {id : Nat} {r : Row} (t : Table)

/-- The table that `EnsureSchema` creates. -/
def empty : Table := ⟨[], 1, by simp, by simp, by simp⟩

def find (id : Nat) : Option Row := t.rows.find? fun r => r.id = id

theorem find_eq_some : t.find id = some r ↔ r ∈ t.rows ∧ r.id = id := by
  constructor
  · intro h
    exact ⟨mem_of_find?_eq_some h, by simpa using find?_some h⟩
  · rintro ⟨hm, rfl⟩
    cases hf : t.find r.id with
    | none => simpa using find?_eq_none.mp hf r hm
    | some r' =>
      have hm' := mem_of_find?_eq_some hf
      have hid : r'.id = r.id := by simpa using find?_some hf
      rw [inj_on_of_nodup_map t.ids_nodup hm' hm hid]

theorem find_eq_none : t.find id = none ↔ ∀ r ∈ t.rows, r.id ≠ id := by
  simp [find]

theorem find_id (h : t.find id = some r) : r.id = id :=
  (t.find_eq_some.mp h).2

theorem lt_of_find (h : t.find id = some r) : id < t.nextID := by
  obtain ⟨hm, rfl⟩ := t.find_eq_some.mp h
  exact t.ids_lt r hm

section Statements

/-- `UPDATE … WHERE q`, of columns no constraint is about. -/
def updateWhere (q : Row → Bool) (f : Row → Row)
    (hf : ∀ r, (f r).id = r.id ∧ (f r).queue = r.queue ∧ (f r).key = r.key) : Table where
  rows := t.rows.map fun r => if q r then f r else r
  nextID := t.nextID
  ids_lt := by
    intro r hr
    obtain ⟨r', hm, rfl⟩ := mem_map.mp hr
    have := t.ids_lt r' hm
    split_ifs <;> simpa [hf] using this
  ids_nodup := by
    have : (fun r => (if q r then f r else r : Row).id) = Row.id := by
      funext r
      split_ifs <;> simp [hf]
    simpa [map_map, Function.comp_def, this] using t.ids_nodup
  keys := by
    refine pairwise_map.mpr (t.keys.imp fun {r r'} h => ?_)
    have hc : ∀ r : Row, (if q r then f r else r).queue = r.queue ∧
        (if q r then f r else r).key = r.key := fun r => by
      split_ifs <;> simp [hf]
    simpa only [Row.SameKey, (hc r).1, (hc r).2, (hc r').1, (hc r').2] using h

/-- `DELETE … WHERE q`. -/
def deleteWhere (q : Row → Bool) : Table where
  rows := t.rows.filter fun r => !q r
  nextID := t.nextID
  ids_lt := fun r hr => t.ids_lt r (mem_of_mem_filter hr)
  ids_nodup := t.ids_nodup.sublist ((filter_sublist).map _)
  keys := t.keys.sublist filter_sublist

/-- The sequence of the ids moves on, also for a row that is not inserted. -/
def skipID : Table := { t with
  nextID := t.nextID + 1
  ids_lt := fun r hr => Nat.lt_succ_of_lt (t.ids_lt r hr) }

def insertRow (r : Row) (hid : r.id = t.nextID) (hk : ∀ r' ∈ t.rows, ¬ r.SameKey r') : Table where
  rows := r :: t.rows
  nextID := t.nextID + 1
  ids_lt := by
    intro r' hr'
    rcases mem_cons.mp hr' with rfl | hm
    · omega
    · exact Nat.lt_succ_of_lt (t.ids_lt r' hm)
  ids_nodup := by
    refine nodup_cons.mpr ⟨?_, t.ids_nodup⟩
    intro hm
    obtain ⟨r', hr', he⟩ := mem_map.mp hm
    have := t.ids_lt r' hr'
    omega
  keys := pairwise_cons.mpr ⟨hk, t.keys⟩

theorem find_updateWhere {q : Row → Bool} {f : Row → Row}
    (hf : ∀ r, (f r).id = r.id ∧ (f r).queue = r.queue ∧ (f r).key = r.key) (id : Nat) :
    (t.updateWhere q f hf).find id = (t.find id).map fun r => if q r then f r else r := by
  have hp : ((fun r : Row => decide (r.id = id)) ∘ fun r => if q r then f r else r) =
      fun r => decide (r.id = id) := by
    funext r
    by_cases h : q r <;> simp [h, hf]
  simp only [find, updateWhere, find?_map, hp]

theorem find_deleteWhere (q : Row → Bool) (id : Nat) :
    (t.deleteWhere q).find id = (t.find id).filter fun r => !q r := by
  cases hf : t.find id with
  | none =>
    rw [Option.filter_none, find_eq_none]
    intro r hr
    exact t.find_eq_none.mp hf r (mem_of_mem_filter hr)
  | some r =>
    obtain ⟨hm, rfl⟩ := t.find_eq_some.mp hf
    by_cases hq : q r
    · rw [Option.filter_some_neg (by simpa using hq), find_eq_none]
      intro r' hr' hid
      have hm' := mem_filter.mp hr'
      obtain rfl : r' = r := inj_on_of_nodup_map t.ids_nodup hm'.1 hm hid
      simp [hq] at hm'
    · rw [Option.filter_some_pos (by simpa using hq), find_eq_some]
      exact ⟨mem_filter.mpr ⟨hm, by simpa using hq⟩, rfl⟩

theorem find_insertRow {r : Row} (hid : r.id = t.nextID) (hk : ∀ r' ∈ t.rows, ¬ r.SameKey r')
    (id : Nat) : (t.insertRow r hid hk).find id = if id = t.nextID then some r else t.find id := by
  simp only [find, insertRow, find?_cons, hid]
  by_cases h : t.nextID = id
  · simp [h]
  · simp [h, Ne.symm h]

end Statements

section Methods

/-- The row `insert` writes; an empty key is NULL. -/
def newRow (id : Nat) (p : Params) (now dbNow : Int) : Row where
  id := id
  queue := p.queue
  kind := p.kind
  key := if p.key = "" then none else some p.key
  payload := p.payload
  createdAt := stamp dbNow
  runAt := stamp (now + p.delay)
  attempts := 0
  leasedAt := none
  leaseID := none
  lastError := none
  doneAt := none

@[simp] theorem newRow_id (id : Nat) (p : Params) (now dbNow : Int) :
    (newRow id p now dbNow).id = id := rfl

/-- `insert` at the clock reading `now`; `dbNow` is the default of `created_at`. The
answer says whether the task was inserted. -/
def insert (p : Params) (now dbNow : Int) : Except Err Bool × Table :=
  if p.queue = "" then (.error (.text "queue schedule: queue is required"), t)
  else if p.kind = "" then (.error (.text "queue schedule: kind is required"), t)
  else if h : ∃ r ∈ t.rows, (newRow t.nextID p now dbNow).SameKey r then (.ok false, t.skipID)
  else
    (.ok true,
      t.insertRow (newRow t.nextID p now dbNow) (newRow_id ..) fun r hr hk => h ⟨r, hr, hk⟩)

variable {now dbNow : Int} {p : Params}

variable {t} in
theorem insert_true (h : (t.insert p now dbNow).1 = .ok true) :
    (t.insert p now dbNow).2.find t.nextID = some (newRow t.nextID p now dbNow) ∧
      ∀ r ∈ t.rows, ¬ (newRow t.nextID p now dbNow).SameKey r := by
  unfold insert at h ⊢
  split_ifs at h ⊢ with hq hk hc
  · cases h
  · refine ⟨?_, fun r hr hs => hc ⟨r, hr, hs⟩⟩
    dsimp only
    rw [find_insertRow, if_pos rfl]

variable {t} in
theorem insert_error {err : Err}
    (h : (t.insert p now dbNow).1 = .error err) : (t.insert p now dbNow).2 = t := by
  unfold insert at h ⊢
  split_ifs at h ⊢
  · rfl
  · rfl

variable {t} in
theorem insert_keyless {b : Bool} (hkey : p.key = "")
    (h : (t.insert p now dbNow).1 = .ok b) : b = true := by
  unfold insert at h
  split_ifs at h with hq hk hc
  · obtain ⟨r, -, hsame⟩ := hc
    exact absurd (if_pos hkey) hsame.2.2
  · exact (Except.ok.inj h).symm

/-- The condition of `claim` on a row; a comparison with a NULL `leased_at` is not
true. -/
def ready (queue : String) (now lease : Int) (r : Row) : Bool :=
  r.queue = queue && r.doneAt = none && r.runAt ≤ stamp now &&
    (r.leaseID = none || r.leasedAt.any (· < stamp (now + wrap64 (-lease))))

theorem ready_iff {queue : String} {now lease : Int} {r : Row} :
    ready queue now lease r = true ↔ r.queue = queue ∧ r.doneAt = none ∧ r.runAt ≤ stamp now ∧
      (r.leaseID = none ∨ ∃ l, r.leasedAt = some l ∧ l < stamp (now + wrap64 (-lease))) := by
  simp [ready, and_assoc, Option.any_eq_true]

/-- `ORDER BY run_at, id`. -/
def runBefore (r r' : Row) : Prop := r.runAt < r'.runAt ∨ r.runAt = r'.runAt ∧ r.id ≤ r'.id

instance : DecidableRel runBefore := fun _ _ => inferInstanceAs (Decidable (_ ∨ _ ∧ _))

/-- The rows a claim takes. -/
def next (queue : String) (now lease limit : Int) (locked : Nat → Bool) : List Row :=
  (((t.rows.filter (ready queue now lease)).insertionSort runBefore).filter
    fun r => !locked r.id).take limit.toNat

/-- The claimed row. -/
def lend (leaseID : String) (now : Int) (r : Row) : Row :=
  { r with leaseID := some leaseID, leasedAt := some (stamp now) }

/-- `claim` under the fresh lease id `leaseID`. -/
def claim (queue : String) (now lease limit : Int) (leaseID : String) (locked : Nat → Bool) :
    Except Err (List Leased) × Table :=
  if limit < 0 then
    (.error (.wrap "queue claim: ERROR: LIMIT must not be negative (SQLSTATE 2201W)"
      (.text "ERROR: LIMIT must not be negative (SQLSTATE 2201W)")), t)
  else
    let ids := (t.next queue now lease limit locked).map Row.id
    let t' := t.updateWhere (fun r => r.id ∈ ids) (lend leaseID now) fun _ => ⟨rfl, rfl, rfl⟩
    (.ok (((t'.rows.filter fun r => r.id ∈ ids).insertionSort runBefore).map toLeased), t')

section Claim

variable {t} {queue : String} {lease limit : Int} {leaseID : String} {locked : Nat → Bool}

theorem mem_next {r : Row} (h : r ∈ t.next queue now lease limit locked) :
    r ∈ t.rows ∧ ready queue now lease r = true := by
  have hs := mem_of_mem_filter (mem_of_mem_take h)
  exact mem_filter.mp ((mem_insertionSort _).mp hs)

theorem mem_next_ids {r : Row} (hr : r ∈ t.rows) :
    r.id ∈ (t.next queue now lease limit locked).map Row.id ↔
      r ∈ t.next queue now lease limit locked := by
  constructor
  · intro h
    obtain ⟨r', hr', he⟩ := mem_map.mp h
    rwa [← inj_on_of_nodup_map t.ids_nodup (mem_next hr').1 hr he]
  · exact mem_map_of_mem

theorem mem_claim {task : Leased} (hl : 0 ≤ limit) :
    (∃ tasks, (t.claim queue now lease limit leaseID locked).1 = .ok tasks ∧ task ∈ tasks) ↔
      ∃ r ∈ t.next queue now lease limit locked, task = toLeased (lend leaseID now r) := by
  have hid : ∀ ids : List Nat, ∀ r : Row,
      (if r.id ∈ ids then lend leaseID now r else r).id = r.id := by
    intro ids r
    split_ifs <;> rfl
  simp only [claim, if_neg (not_lt.mpr hl), Except.ok.injEq, exists_eq_left',
    mem_map (b := task), mem_insertionSort, mem_filter, updateWhere,
    decide_eq_true_eq]
  constructor
  · rintro ⟨r', ⟨hm, hids⟩, rfl⟩
    obtain ⟨r, hr, rfl⟩ := mem_map.mp hm
    rw [hid] at hids
    refine ⟨r, (mem_next_ids hr).mp hids, ?_⟩
    rw [if_pos hids]
  · rintro ⟨r, hr, rfl⟩
    have hrow := (mem_next hr).1
    have hids := (mem_next_ids hrow).mpr hr
    refine ⟨lend leaseID now r, ⟨mem_map.mpr ⟨r, hrow, ?_⟩, hids⟩, rfl⟩
    rw [if_pos hids]

theorem claim_nodup {tasks : List Leased}
    (h : (t.claim queue now lease limit leaseID locked).1 = .ok tasks) :
    (tasks.map (·.id)).Nodup := by
  unfold claim at h
  split_ifs at h with hl
  obtain rfl := Except.ok.inj h
  rw [map_map]
  change (List.map Row.id _).Nodup
  refine ((perm_insertionSort _ _).map Row.id).nodup_iff.mpr ?_
  exact (Table.ids_nodup _).sublist (filter_sublist.map _)

/-- The claim changes the rows it takes and no others. -/
theorem find_claim (hl : 0 ≤ limit) (id : Nat) :
    (t.claim queue now lease limit leaseID locked).2.find id =
      (t.find id).map fun r =>
        if r ∈ t.next queue now lease limit locked then lend leaseID now r else r := by
  simp only [claim, if_neg (not_lt.mpr hl), find_updateWhere]
  cases hf : t.find id with
  | none => rfl
  | some r =>
    simp only [Option.map_some, decide_eq_true_eq, mem_next_ids (t.find_eq_some.mp hf).1]

end Claim

/-- `errLeaseLost`. -/
def errLeaseLost : Err := .text "queue: lease lost"

/-- The lease guard of the marks. -/
def guarded (task : Leased) (r : Row) : Bool := r.id = task.id && r.leaseID = some task.leaseID

/-- A mark that matched no row has lost its lease. -/
def markErr (task : Leased) : Option Err :=
  if t.rows.any (guarded task) then none else some errLeaseLost

def markDone (task : Leased) : Option Err × Table :=
  (t.markErr task, t.deleteWhere (guarded task))

/-- The row of a failed task: dead, or to run again at `runAt`. -/
def fail (task : Leased) (errMsg : String) (dead : Bool) (now runAt : Int) (r : Row) : Row :=
  { r with
    leaseID := none
    leasedAt := none
    attempts := task.attempts + 1
    lastError := some errMsg
    doneAt := if dead then some (stamp now) else r.doneAt
    runAt := if dead then r.runAt else stamp runAt }

def markFailed (task : Leased) (errMsg : String) (dead : Bool) (now runAt : Int) :
    Option Err × Table :=
  (t.markErr task,
    t.updateWhere (guarded task) (fail task errMsg dead now runAt) fun _ => ⟨rfl, rfl, rfl⟩)

/-- The released row. -/
def unlend (r : Row) : Row := { r with leaseID := none, leasedAt := none }

/-- `release` works under the lease of its first task. -/
def release (tasks : List Leased) : Option Err × Table :=
  match tasks with
  | [] => (none, t)
  | task :: rest =>
    (none, t.updateWhere
      (fun r => r.id ∈ (task :: rest).map (·.id) && r.leaseID = some task.leaseID) unlend
      fun _ => ⟨rfl, rfl, rfl⟩)

/-- The rows `cleanup` removes. -/
def stale (queue : String) (before : Int) (r : Row) : Bool :=
  r.queue = queue && r.doneAt.any (· < stamp before)

/-- `cleanup` and the number of rows it removed. -/
def cleanup (queue : String) (before : Int) : Nat × Table :=
  (t.rows.countP (stale queue before), t.deleteWhere (stale queue before))

end Methods

end Table

end Skit.Queue
