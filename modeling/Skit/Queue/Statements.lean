import Skit.Queue.Table

/-!
# What a statement does to one row

`Stmt` is one execution of a statement of `PG`, with the readings and the ids it
was given. `exec_rowStep` is the inversion that everything about rows rests on: it
lists the ways in which a statement changes the row of an id.
-/
namespace Skit.Queue
open Table Option

inductive Stmt
  | schedule (p : Params) (now dbNow : Int)
  | claim (queue : String) (now lease limit : Int) (leaseID : String) (locked : Nat → Bool)
  | markDone (task : Leased)
  | markFailed (task : Leased) (errMsg : String) (dead : Bool) (now runAt : Int)
  | release (tasks : List Leased)
  | cleanup (queue : String) (before : Int)

inductive Reply
  | scheduled (r : Except Err Bool)
  | claimed (r : Except Err (List Leased))
  | marked (err : Option Err)
  | released (err : Option Err)
  | cleaned (n : Nat)

/-- The tasks a claim hands out. -/
def Reply.issued : Reply → List Leased
  | .claimed (.ok tasks) => tasks
  | _ => []

namespace Stmt

def exec : Stmt → Table → Reply × Table
  | .schedule p now dbNow, t =>
    let r := t.insert p now dbNow
    (.scheduled r.1, r.2)
  | .claim queue now lease limit leaseID locked, t =>
    let r := t.claim queue now lease limit leaseID locked
    (.claimed r.1, r.2)
  | .markDone task, t =>
    let r := t.markDone task
    (.marked r.1, r.2)
  | .markFailed task errMsg dead now runAt, t =>
    let r := t.markFailed task errMsg dead now runAt
    (.marked r.1, r.2)
  | .release tasks, t =>
    let r := t.release tasks
    (.released r.1, r.2)
  | .cleanup queue before, t =>
    let r := t.cleanup queue before
    (.cleaned r.1, r.2)

/-- The lease id that a mark or a release carries. -/
def carries : Stmt → Option String
  | .markDone task => some task.leaseID
  | .markFailed task _ _ _ _ => some task.leaseID
  | .release tasks => tasks.head?.map (·.leaseID)
  | _ => none

/-- The task ids that a mark or a release names. -/
def names : Stmt → List Nat
  | .markDone task => [task.id]
  | .markFailed task _ _ _ _ => [task.id]
  | .release tasks => tasks.map (·.id)
  | _ => []

/-- A mark or a release of task `id` under lease `L`. -/
def Under (s : Stmt) (id : Nat) (L : String) : Prop := s.carries = some L ∧ id ∈ s.names

instance (s : Stmt) (id : Nat) (L : String) : Decidable (s.Under id L) :=
  inferInstanceAs (Decidable (_ ∧ _))

/-- The lease id that a claim draws. -/
def draws : Stmt → Option String
  | .claim _ _ _ _ leaseID _ => some leaseID
  | _ => none

def isMarkFailed : Stmt → Bool
  | .markFailed _ _ _ _ _ => true
  | _ => false

end Stmt

/-- The ways a statement run on `t` changes the row of `id`. -/
inductive RowStep (t : Table) (id : Nat) : Stmt → Option Row → Option Row → Prop
  | same {s : Stmt} {r : Option Row} : RowStep t id s r r
  | inserted {p : Params} {now dbNow : Int} : id = t.nextID →
      RowStep t id (.schedule p now dbNow) none (some (newRow id p now dbNow))
  | claimed {queue : String} {now lease limit : Int} {leaseID : String} {locked : Nat → Bool}
      {r : Row} : ready queue now lease r = true →
      toLeased (lend leaseID now r) ∈
        ((Stmt.claim queue now lease limit leaseID locked).exec t).1.issued →
      RowStep t id (.claim queue now lease limit leaseID locked) (some r)
        (some (lend leaseID now r))
  | done {task : Leased} {r : Row} : task.id = id → r.leaseID = some task.leaseID →
      RowStep t id (.markDone task) (some r) none
  | failed {task : Leased} {errMsg : String} {dead : Bool} {now runAt : Int} {r : Row} :
      task.id = id → r.leaseID = some task.leaseID →
      RowStep t id (.markFailed task errMsg dead now runAt) (some r)
        (some (fail task errMsg dead now runAt r))
  | released {task : Leased} {rest : List Leased} {r : Row} : id ∈ (task :: rest).map (·.id) →
      r.leaseID = some task.leaseID →
      RowStep t id (.release (task :: rest)) (some r) (some (unlend r))
  | cleaned {queue : String} {before : Int} {r : Row} : stale queue before r = true →
      RowStep t id (.cleanup queue before) (some r) none

section Inversion

variable {t : Table} {id : Nat} {task : Leased} {s : Stmt} {q : Row → Bool}

theorem Reply.mem_issued_claimed {r : Except Err (List Leased)} :
    task ∈ (Reply.claimed r).issued ↔ ∃ tasks, r = .ok tasks ∧ task ∈ tasks := by
  cases r <;> simp [Reply.issued]

theorem claim_negative {queue : String} {now lease limit : Int} {leaseID : String}
    {locked : Nat → Bool} (hl : limit < 0) :
    ((Stmt.claim queue now lease limit leaseID locked).exec t).1.issued = [] ∧
      ((Stmt.claim queue now lease limit leaseID locked).exec t).2 = t := by
  simp [Stmt.exec, claim, hl, Reply.issued]

/-- A task that a statement hands out is the row it has just lent. -/
theorem mem_issued (h : task ∈ (s.exec t).1.issued) : ∃ queue now lease limit leaseID locked r,
      s = .claim queue now lease limit leaseID locked ∧ t.find task.id = some r ∧
      ready queue now lease r = true ∧ task = toLeased (lend leaseID now r) ∧
      (s.exec t).2.find task.id = some (lend leaseID now r) := by
  cases s with
  | claim queue now lease limit leaseID locked =>
    by_cases hl : limit < 0
    · rw [(claim_negative hl).1] at h
      exact absurd h List.not_mem_nil
    · have hl : 0 ≤ limit := not_lt.mp hl
      obtain ⟨r, hr, rfl⟩ := (mem_claim hl).mp (Reply.mem_issued_claimed.mp h)
      obtain ⟨hrow, hready⟩ := mem_next hr
      have hfind : t.find r.id = some r := t.find_eq_some.mpr ⟨hrow, rfl⟩
      refine ⟨queue, now, lease, limit, leaseID, locked, r, rfl, hfind, hready, rfl, ?_⟩
      change (t.claim queue now lease limit leaseID locked).2.find r.id = _
      rw [find_claim hl, hfind, map_some, if_pos hr]
  | schedule p now dbNow => simp [Stmt.exec, Reply.issued] at h
  | markDone task => simp [Stmt.exec, Reply.issued] at h
  | markFailed task errMsg dead now runAt => simp [Stmt.exec, Reply.issued] at h
  | release tasks => simp [Stmt.exec, Reply.issued] at h
  | cleanup queue before => simp [Stmt.exec, Reply.issued] at h

theorem RowStep.deleteWhere
    (h : ∀ r, t.find id = some r → q r = true → RowStep t id s (some r) none) :
    RowStep t id s (t.find id) ((t.deleteWhere q).find id) := by
  rw [find_deleteWhere]
  cases hf : t.find id with
  | none => exact .same
  | some r =>
    by_cases hq : q r = true
    · rw [filter_some_neg (by simpa using hq)]
      exact h r hf hq
    · rw [filter_some_pos (by simpa using hq)]
      exact .same

theorem RowStep.updateWhere {f : Row → Row}
    (hkeeps : ∀ r, (f r).id = r.id ∧ (f r).queue = r.queue ∧ (f r).key = r.key)
    (h : ∀ r, t.find id = some r → q r = true → RowStep t id s (some r) (some (f r))) :
    RowStep t id s (t.find id) ((t.updateWhere q f hkeeps).find id) := by
  rw [find_updateWhere]
  cases hf : t.find id with
  | none => exact .same
  | some r =>
    rw [map_some]
    split_ifs with hq
    · exact h r hf hq
    · exact .same

theorem guarded_iff {r : Row} :
    guarded task r = true ↔ r.id = task.id ∧ r.leaseID = some task.leaseID := by
  simp [guarded]

theorem exec_rowStep (s : Stmt) (t : Table) (id : Nat) :
    RowStep t id s (t.find id) ((s.exec t).2.find id) := by
  cases s with
  | schedule p now dbNow =>
    simp only [Stmt.exec, Table.insert]
    split_ifs with hq hk hc
    · exact .same
    · exact .same
    · exact .same
    · dsimp only
      rw [find_insertRow]
      split_ifs with hid
      · have hnone : t.find id = none := by
          cases hf : t.find id with
          | none => rfl
          | some r => exact absurd (t.lt_of_find hf) (by omega)
        rw [hnone, ← hid]
        exact .inserted hid
      · exact .same
  | claim queue now lease limit leaseID locked =>
    by_cases hl : limit < 0
    · rw [(claim_negative hl).2]
      exact .same
    · have hl : 0 ≤ limit := not_lt.mp hl
      change RowStep t id _ _ ((t.claim queue now lease limit leaseID locked).2.find id)
      rw [find_claim hl]
      cases hf : t.find id with
      | none => exact .same
      | some r =>
        simp only [map_some]
        split_ifs with hr
        · exact .claimed (mem_next hr).2
            (Reply.mem_issued_claimed.mpr ((mem_claim hl).mpr ⟨r, hr, rfl⟩))
        · exact .same
  | markDone task =>
    refine RowStep.deleteWhere fun r hf hg => ?_
    obtain ⟨hid, hlease⟩ := guarded_iff.mp hg
    exact .done (hid ▸ t.find_id hf) hlease
  | markFailed task errMsg dead now runAt =>
    refine RowStep.updateWhere ?_ fun r hf hg => ?_
    · exact fun _ => ⟨rfl, rfl, rfl⟩
    · obtain ⟨hid, hlease⟩ := guarded_iff.mp hg
      exact .failed (hid ▸ t.find_id hf) hlease
  | release tasks =>
    cases tasks with
    | nil => exact .same
    | cons task rest =>
      refine RowStep.updateWhere ?_ fun r hf hg => ?_
      · exact fun _ => ⟨rfl, rfl, rfl⟩
      · have hg' : r.id ∈ (task :: rest).map (·.id) ∧ r.leaseID = some task.leaseID := by
          simpa using hg
        exact .released (t.find_id hf ▸ hg'.1) hg'.2
  | cleanup queue before => exact RowStep.deleteWhere fun r _ hg => .cleaned hg

theorem RowStep.keeps {r r' : Row} (h : RowStep t id s (some r) (some r')) :
    r'.queue = r.queue ∧ r'.key = r.key := by
  cases h <;> exact ⟨rfl, rfl⟩

theorem RowStep.kind {r r' : Row} (h : RowStep t id s (some r) (some r')) : r'.kind = r.kind := by
  cases h <;> rfl

end Inversion

end Skit.Queue
