import Skit.Auditlog.Compact
import Skit.Auditlog.Table
import Skit.Lib.Run

/-!
# Calls of an audit log

`Create`, `Compact` and `CompactBatch` are programs over the statements of the pool
store. A run interleaves any number of them, of any number of cores, over one table,
every statement on its own. A statement runs and answers, or runs with its answer lost,
or does not run at all; in the last two cases the caller sees an error.
-/
namespace Skit.Auditlog
open Lib

/-- The statements of the store, and the clock that `Create` reads. -/
inductive Call (P : Type)
  | queryLast (m : Model)
  | now
  | save (al : AuditLog P)
  | versions (m : Model)
  | deleteVersions (m : Model) (vers : List Int)
  | overThreshold (threshold limit : Int)
  deriving DecidableEq

abbrev Ans {P : Type} : Call P → Type
  | .queryLast _ => Except Err (AuditLog P)
  | .now => Int
  | .save _ => Option Err
  | .versions _ => Except Err (List Int)
  | .deleteVersions _ _ => Except Err Nat
  | .overThreshold _ _ => Except Err (List ModelRef)

/-- The options of a `Core`, and its comparison of two snapshots. -/
structure Core (P : Type) where
  autoCompactEvery : Int
  autoCompactOpts : CompactOptions
  payloadsEqual : P → P → Except Err Bool

/-- The input of `Create`; `body` is what its payload is encoded to. -/
structure NewAuditLog (P : Type) extends Model where
  method : String
  path : String
  body : Except Err P
  createdBy : String

structure CompactBatchOptions where
  threshold : Int
  limit : Int
  compact : CompactOptions

structure CompactResult where
  models : Nat
  deleted : Nat
  deriving DecidableEq, Repr

variable {P : Type}

abbrev ask (o : Call P) : Prog (Call P) Ans (Ans o) := Prog.ask o

def compact (m : Model) (opts : CompactOptions) : Prog (Call P) Ans (Except Err Nat) := do
  match ← ask (Call.versions m) with
  | Except.error err =>
    return .error (.wrap ("auditlog: compact " ++ m.path ++ ": " ++ err.error) err)
  | Except.ok vers =>
    let del := versionsToDelete vers opts
    if del = [] then return .ok 0
    else
      match ← ask (Call.deleteVersions m del) with
      | Except.error err =>
        return .error (.wrap ("auditlog: compact " ++ m.path ++ ": " ++ err.error) err)
      | Except.ok n => return .ok n

/-- The loop of `CompactBatch`, which stops at the first error. -/
def compactEach (opts : CompactOptions) :
    List ModelRef → CompactResult → Prog (Call P) Ans (CompactResult × Option Err)
  | [], res => return (res, none)
  | ref :: refs, res => do
    match ← compact ref.toModel opts with
    | .error err => return (res, some err)
    | .ok n =>
      if 0 < n then compactEach opts refs ⟨res.models + 1, res.deleted + n⟩
      else compactEach opts refs res

def compactBatch (opts : CompactBatchOptions) :
    Prog (Call P) Ans (CompactResult × Option Err) := do
  let limit := if opts.limit ≤ 0 then 100 else opts.limit
  match ← ask (Call.overThreshold opts.threshold limit) with
  | Except.error err =>
    return (⟨0, 0⟩, some (.wrap ("auditlog: compact batch: " ++ err.error) err))
  | Except.ok refs => compactEach opts.compact refs ⟨0, 0⟩

namespace Core

variable (c : Core P)

/-- A failure is logged, not returned. -/
def maybeAutoCompact (entry : AuditLog P) : Prog (Call P) Ans Unit :=
  if c.autoCompactEvery ≤ 0 ∨ entry.version % c.autoCompactEvery ≠ 0 then return ()
  else do
    let _ ← compact entry.toModel c.autoCompactOpts
    return ()

def maxCreateAttempts : Nat := 3

/-- `Core.QueryLastByModelID`. -/
def queryLast (m : Model) : Prog (Call P) Ans (Except Err (AuditLog P)) := do
  match ← ask (Call.queryLast m) with
  | Except.error err =>
    return .error (.wrap ("auditlog: query last " ++ m.path ++ ": " ++ err.error) err)
  | Except.ok last => return .ok last

/-- The error that ends `Create`: a model without a row is none. -/
def readError : Except Err (AuditLog P) → Option Err
  | .error err => if isNotFound err then none else some err
  | .ok _ => none

/-- Whether the snapshot is the one of the last version, if there is one. -/
def unchanged (body : P) : Except Err (AuditLog P) → Except Err Bool
  | .error _ => .ok false
  | .ok last => if last.version ≠ 0 then c.payloadsEqual body last.payload else .ok false

/-- The row that an attempt inserts. -/
def entry (new : NewAuditLog P) (body : P) (version now : Int) : AuditLog P where
  toModel := new.toModel
  id := 0
  version := version
  method := new.method
  path := new.path
  payload := body
  createdAt := now
  createdBy := new.createdBy

/-- One turn of the loop of `Create`; `again` is the rest of the loop, if the turn may
continue. It returns the stored row, and `none` for the zero `AuditLog`. -/
def attempt (new : NewAuditLog P) (body : P)
    (again : Option (Prog (Call P) Ans (Except Err (Option (AuditLog P))))) :
    Prog (Call P) Ans (Except Err (Option (AuditLog P))) := do
  let last ← queryLast new.toModel
  match readError last, c.unchanged body last with
  | some err, _ => return .error err
  | none, .error err => return .error err
  | none, .ok true => return .ok none
  | none, .ok false =>
    let now ← ask Call.now
    let e := entry new body (lastVersion last + 1) now
    match ← ask (Call.save e) with
    | none =>
      c.maybeAutoCompact e
      return .ok (some e)
    | some err =>
      match again, isDuplicatedEntry err with
      | some rest, true => rest
      | _, _ =>
        return .error (.wrap ("auditlog: save " ++ new.toModel.path ++ " v" ++
          toString e.version ++ ": " ++ err.error) err)

/-- The loop of `Create`, with `left` turns to go after this one. -/
def attempts (new : NewAuditLog P) (body : P) :
    Nat → Prog (Call P) Ans (Except Err (Option (AuditLog P)))
  | 0 => c.attempt new body none
  | left + 1 => c.attempt new body (some (attempts new body left))

def create (new : NewAuditLog P) : Prog (Call P) Ans (Except Err (Option (AuditLog P))) :=
  match new.body with
  | .error err => return .error (.wrap ("auditlog: encode payload: " ++ err.error) err)
  | .ok body => c.attempts new body (maxCreateAttempts - 1)

end Core

/-- One call on an audit log, and what it returns. -/
inductive Job (P : Type)
  | create (c : Core P) (new : NewAuditLog P)
  | compact (m : Model) (opts : CompactOptions)
  | compactBatch (opts : CompactBatchOptions)

inductive Result (P : Type)
  | created (res : Except Err (Option (AuditLog P)))
  | compacted (res : Except Err Nat)
  | batch (res : CompactResult) (err : Option Err)

def Job.prog : Job P → Prog (Call P) Ans (Result P)
  | .create c new => do return .created (← c.create new)
  | .compact m opts => do return .compacted (← Auditlog.compact m opts)
  | .compactBatch opts => do
    let (res, err) ← Auditlog.compactBatch opts
    return .batch res err

section Runs

/-- `DeleteVersions` binds every version, and the two parts of the model. -/
def Bindable (vers : List Int) : Prop := vers.length + 2 ≤ maxBinds

instance (vers : List Int) : Decidable (Bindable vers) := inferInstanceAs (Decidable (_ ≤ _))

/-- A statement that is answered. -/
inductive Replies (t : Table P) : (o : Call P) → Ans o → Table P → Prop
  | queryLast (m : Model) : Replies t (.queryLast m) (t.queryLast m) t
  | now (x : Int) : Replies t .now x t
  | save (id : Int) (al : AuditLog P) : Replies t (.save al) (t.save id al).1 (t.save id al).2
  | versions (m : Model) : Replies t (.versions m) (.ok (t.versions m)) t
  | deleteVersions (m : Model) {vers : List Int} : Bindable vers →
      Replies t (.deleteVersions m vers) (.ok (t.deleteVersions m vers).1)
        (t.deleteVersions m vers).2
  | refused (m : Model) {vers : List Int} (err : Err) : ¬ Bindable vers →
      Replies t (.deleteVersions m vers) (.error (.wrap ("deleteversions: " ++ err.error) err)) t
  | overThreshold {threshold limit : Int} {refs : List ModelRef} :
      t.OverThreshold threshold limit refs → Replies t (.overThreshold threshold limit) (.ok refs) t

/-- The answers of a statement that failed; no failure is taken for a missing row or for a
collision. -/
def Fails : (o : Call P) → Ans o → Prop
  | .queryLast _, a => ∃ err, a = .error err ∧ isNotFound err = false
  | .now, _ => False
  | .save _, a => ∃ err, a = some err ∧ isDuplicatedEntry err = false
  | .versions _, a => ∃ err, a = .error err
  | .deleteVersions _ _, a => ∃ err, a = .error err
  | .overThreshold _ _, a => ∃ err, a = .error err

def Runs (t : Table P) (o : Call P) (a : Ans o) (t' : Table P) : Prop :=
  Replies t o a t' ∨ Fails o a ∧ (t' = t ∨ ∃ a', Replies t o a' t')

/-- Any jobs over one table, from the one that `EnsureSchema` creates. -/
def calls {ι : Type} (jobs : ι → Job P) :
    System ι Int (Call P) Ans Empty (Table P) (Result P) where
  prog i := (jobs i).prog
  init t := t = .empty
  sem _ t ev t' := Runs t ev.op ev.ans t'
  env _ _ _ _ := False

variable {t t' : Table P} {o : Call P} {a : Ans o} {m : Model} {v : Int}

theorem Replies.kept (h : Replies t o a t') (hv : t.Has m v) :
    t'.Has m v ∨ ∃ vers, o = .deleteVersions m vers ∧ v ∈ vers := by
  cases h with
  | save id al =>
    rcases Table.has_save (t := t) id al with hs | hs
    · exact .inl ((hs m v).mpr hv)
    · exact .inl ((hs m v).mpr (.inr hv))
  | @deleteVersions m' vers _ =>
    by_cases hd : m = m' ∧ v ∈ vers
    · exact .inr ⟨vers, by rw [hd.1], hd.2⟩
    · exact .inl (Table.has_deleteVersions.mpr ⟨hv, hd⟩)
  | _ => exact .inl hv

theorem Replies.added (h : Replies t o a t') (hv : t'.Has m v) :
    t.Has m v ∨ ∃ al, o = .save al ∧ al.toModel = m ∧ al.version = v := by
  cases h with
  | save id al =>
    rcases Table.has_save (t := t) id al with hs | hs
    · exact .inl ((hs m v).mp hv)
    · rcases (hs m v).mp hv with hal | hv
      · exact .inr ⟨al, rfl, hal⟩
      · exact .inl hv
  | deleteVersions m' _ => exact .inl (Table.has_deleteVersions.mp hv).1
  | _ => exact .inl hv

/-- What a statement did, whether or not its answer arrived. -/
theorem Runs.effect (h : Runs t o a t') : t' = t ∨ ∃ a', Replies t o a' t' := by
  rcases h with h | h
  · exact .inr ⟨a, h⟩
  · exact h.2

/-- A row leaves the table only by a statement that deletes its version. -/
theorem Runs.kept (h : Runs t o a t') (hv : t.Has m v) :
    t'.Has m v ∨ ∃ vers, o = .deleteVersions m vers ∧ v ∈ vers := by
  rcases h.effect with rfl | ⟨a', h⟩
  · exact .inl hv
  · exact h.kept hv

/-- A row enters the table only by a statement that saves it. -/
theorem Runs.added (h : Runs t o a t') (hv : t'.Has m v) :
    t.Has m v ∨ ∃ al, o = .save al ∧ al.toModel = m ∧ al.version = v := by
  rcases h.effect with rfl | ⟨a', h⟩
  · exact .inl hv
  · exact h.added hv

theorem Runs.read {a : Except Err (AuditLog P)} (h : Runs t (.queryLast m) a t')
    (hr : Core.readError a = none) : a = t.queryLast m := by
  rcases h with h | ⟨⟨err, rfl, hf⟩, -⟩
  · cases h
    rfl
  · simp [Core.readError, hf] at hr

theorem Runs.listed {vers : List Int} (h : Runs t (.versions m) (.ok vers) t') :
    vers = t.versions m := by
  rcases h with h | ⟨⟨err, herr⟩, -⟩
  · cases h
    rfl
  · cases herr

end Runs

end Skit.Auditlog
