import Skit.Basic
import Mathlib.Data.List.Sort
import Mathlib.Data.List.Dedup
import Mathlib.Tactic.SplitIfs

/-!
# The table of the audit log

`audit_log` with the statements of `auditpg.Store`. The unique constraint on
`(model_type, model_id, version)` is a field of `Table`. The proofs see a table as the
versions it has of every model: each statement comes with what it answers about `Has`
and how it changes it.
-/
namespace Skit.Auditlog
open List

/-- What names a model: `model_type` and `model_id`. -/
structure Model where
  modelType : String
  modelID : String
  deriving DecidableEq, Repr

def Model.path (m : Model) : String := m.modelType ++ "/" ++ m.modelID

/-- A row. `P` is what a JSONB column keeps of a snapshot. -/
structure AuditLog (P : Type) extends Model where
  id : Int
  version : Int
  method : String
  path : String
  payload : P
  createdAt : Int
  createdBy : String
  deriving DecidableEq, Repr

/-- The row that is kept, but for its serial id: `created_at` has whole microseconds. -/
def AuditLog.stored {P : Type} (al : AuditLog P) : AuditLog P :=
  { al with id := 0, createdAt := 1000 * stamp al.createdAt }

structure ModelRef extends Model where
  versions : Nat
  deriving DecidableEq, Repr

def errNotFound : Err := .sentinel "audit log not found"

/-- `dbx.ErrDBDuplicatedEntry`. -/
def errDBDuplicatedEntry : Err := .sentinel "duplicated entry"

def isNotFound (err : Err) : Bool := err.is errNotFound.error

def isDuplicatedEntry (err : Err) : Bool := err.is errDBDuplicatedEntry.error

structure Table (P : Type) where
  rows : List (AuditLog P)
  unique : rows.Pairwise fun r r' => ¬ (r.toModel = r'.toModel ∧ r.version = r'.version)

namespace Table

variable {P : Type} (t : Table P)

/-- The table that `EnsureSchema` creates. -/
def empty : Table P := ⟨[], List.Pairwise.nil⟩

/-- The table has a row of this version of the model. -/
def Has (m : Model) (v : Int) : Prop := ∃ r ∈ t.rows, r.toModel = m ∧ r.version = v

instance (m : Model) (v : Int) : Decidable (t.Has m v) :=
  inferInstanceAs (Decidable (∃ r ∈ t.rows, _ ∧ _))

@[simp] theorem not_has_empty (m : Model) (v : Int) : ¬ (empty : Table P).Has m v := by
  simp [Has, empty]

section Statements

/-- `WHERE model_type = … AND model_id = … ORDER BY version ASC`. -/
def history (m : Model) : List (AuditLog P) :=
  (t.rows.filter fun r => r.toModel = m).insertionSort fun r r' => r.version ≤ r'.version

def versions (m : Model) : List Int := (t.history m).map AuditLog.version

/-- `QueryLastByModelID`. -/
def queryLast (m : Model) : Except Err (AuditLog P) :=
  match (t.history m).getLast? with
  | none => .error (.wrap ("querylastbymodelid: " ++ errNotFound.error) errNotFound)
  | some r => .ok r

/-- The table with a row more. -/
def insert (al : AuditLog P) (h : ¬ t.Has al.toModel al.version) : Table P where
  rows := al :: t.rows
  unique := pairwise_cons.mpr
    ⟨fun r hr he => h ⟨r, hr, he.1.symm, he.2.symm⟩, t.unique⟩

def errOutOfRange : Err := .text "integer out of range"

def errDuplicateKey : Err :=
  let err := Err.text "duplicate key value violates unique constraint"
  .join (errDBDuplicatedEntry.error ++ ": " ++ err.error) errDBDuplicatedEntry err

/-- `Save`; the database draws `id`. The column of the version is an `INT`. -/
def save (id : Int) (al : AuditLog P) : Option Err × Table P :=
  if al.version < -2 ^ 31 ∨ 2 ^ 31 ≤ al.version then
    (some (.wrap ("save: " ++ errOutOfRange.error) errOutOfRange), t)
  else if h : t.Has al.toModel al.version then
    (some (.wrap ("save: " ++ errDuplicateKey.error) errDuplicateKey), t)
  else (none, t.insert { al.stored with id := id } h)

def deletes (m : Model) (vers : List Int) (r : AuditLog P) : Bool :=
  r.toModel = m && r.version ∈ vers

/-- `DeleteVersions`, with the number of rows it removes. -/
def deleteVersions (m : Model) (vers : List Int) : Nat × Table P :=
  (t.rows.countP (deletes m vers), ⟨t.rows.filter fun r => !deletes m vers r, t.unique.filter _⟩)

/-- `GROUP BY model_type, model_id HAVING count(*) > threshold`. -/
def groups (threshold : Int) : List ModelRef :=
  ((t.rows.map AuditLog.toModel).dedup.map fun m =>
    ⟨m, t.rows.countP fun r => r.toModel = m⟩).filter fun ref => threshold < ref.versions

/-- The answers of `OverThreshold`; the database may order models with as many versions
either way. -/
def OverThreshold (threshold limit : Int) (refs : List ModelRef) : Prop :=
  ∃ l : List ModelRef, l.Perm (t.groups threshold) ∧
    l.Pairwise (fun a b => b.versions ≤ a.versions) ∧ refs = l.take limit.toNat

end Statements

end Table

/-- The version that `Create` goes on from; the zero `AuditLog` stands for no row. -/
def lastVersion {P : Type} : Except Err (AuditLog P) → Int
  | .ok r => r.version
  | .error _ => 0

namespace Table

variable {P : Type} {t : Table P} {m : Model} {v : Int} {r : AuditLog P} {vers : List Int}

theorem mem_history : r ∈ t.history m ↔ r ∈ t.rows ∧ r.toModel = m := by
  simp [history, mem_insertionSort]

theorem mem_versions : v ∈ t.versions m ↔ t.Has m v := by
  simp [versions, mem_history, Has, and_assoc]

theorem history_sorted : (t.history m).Pairwise fun r r' => r.version ≤ r'.version :=
  pairwise_insertionSort _ _

theorem history_distinct : (t.history m).Pairwise fun r r' => r.version ≠ r'.version := by
  refine (perm_insertionSort _ _).symm.pairwise ?_ fun h => Ne.symm h
  refine (t.unique.filter _).imp_of_mem fun {r r'} hr hr' hne heq => hne ⟨?_, heq⟩
  have hm : r.toModel = m := by simpa using (mem_filter.mp hr).2
  have hm' : r'.toModel = m := by simpa using (mem_filter.mp hr').2
  exact hm.trans hm'.symm

theorem versions_sorted : (t.versions m).Pairwise (· < ·) :=
  pairwise_map.mpr
    ((history_sorted.and history_distinct).imp fun h => lt_of_le_of_ne h.1 h.2)

theorem queryLast_eq_ok (h : t.queryLast m = .ok r) : (t.history m).getLast? = some r := by
  unfold queryLast at h
  split at h
  · cases h
  · cases h
    assumption

theorem le_lastVersion (h : t.Has m v) : v ≤ lastVersion (t.queryLast m) := by
  obtain ⟨r, hr, hm, rfl⟩ := h
  have hmem : r ∈ t.history m := mem_history.mpr ⟨hr, hm⟩
  cases hq : t.queryLast m with
  | error err =>
    have hne : t.history m ≠ [] := ne_nil_of_mem hmem
    simp [queryLast, getLast?_eq_some_getLast hne] at hq
  | ok last =>
    obtain ⟨l, hl⟩ := getLast?_eq_some_iff.mp (queryLast_eq_ok hq)
    have hsorted := hl ▸ history_sorted (t := t) (m := m)
    rw [hl, mem_append] at hmem
    rcases hmem with hmem | hmem
    · exact (pairwise_append.mp hsorted).2.2 r hmem last (by simp)
    · exact le_of_eq (by rw [mem_singleton.mp hmem]; rfl)

theorem queryLast_of_has (h : t.Has m v) : ∃ r, t.queryLast m = .ok r := by
  obtain ⟨r, hr, hm, -⟩ := h
  have hne : t.history m ≠ [] := ne_nil_of_mem (mem_history.mpr ⟨hr, hm⟩)
  simp [queryLast, getLast?_eq_some_getLast hne]

theorem has_lastVersion (h : t.queryLast m = .ok r) : t.Has m r.version := by
  obtain ⟨hr, hm⟩ := mem_history.mp (mem_of_getLast? (queryLast_eq_ok h))
  exact ⟨r, hr, hm, rfl⟩

theorem has_insert (al : AuditLog P) (h : ¬ t.Has al.toModel al.version) :
    (t.insert al h).Has m v ↔ (al.toModel = m ∧ al.version = v) ∨ t.Has m v := by
  simp [Has, insert]

theorem has_save (id : Int) (al : AuditLog P) :
    (∀ m v, (t.save id al).2.Has m v ↔ t.Has m v) ∨
      ∀ m v, (t.save id al).2.Has m v ↔ (al.toModel = m ∧ al.version = v) ∨ t.Has m v := by
  unfold save
  split_ifs with hr hh
  · exact .inl fun _ _ => Iff.rfl
  · exact .inl fun _ _ => Iff.rfl
  · exact .inr fun _ _ => has_insert { al.stored with id := id } hh

theorem not_deletes : (!deletes m vers r) = true ↔ ¬ (r.toModel = m ∧ r.version ∈ vers) := by
  rw [Bool.not_eq_true', ← Bool.not_eq_true]
  simp only [deletes, Bool.and_eq_true, decide_eq_true_eq]

theorem has_deleteVersions {m' : Model} :
    (t.deleteVersions m' vers).2.Has m v ↔ t.Has m v ∧ ¬ (m = m' ∧ v ∈ vers) := by
  simp only [Has, deleteVersions, mem_filter, not_deletes]
  constructor
  · rintro ⟨r, ⟨hr, hd⟩, rfl, rfl⟩
    exact ⟨⟨r, hr, rfl, rfl⟩, hd⟩
  · rintro ⟨⟨r, hr, rfl, rfl⟩, hd⟩
    exact ⟨r, ⟨hr, hd⟩, rfl, rfl⟩

end Table

end Skit.Auditlog
