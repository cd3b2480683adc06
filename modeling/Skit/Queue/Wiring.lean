import Skit.Queue.Registry
import Mathlib.Logic.Relation

/-!
# Checked wiring

At startup types are registered in the registry and handlers in the muxes of the queues. What
`Check` has passed holds of every task that is scheduled afterwards: it keeps the kind of its
route until a claim hands it out, and the mux has the handler of that kind.
-/
namespace Skit.Queue

variable {ι R Ctx B D : Type} [DecidableEq ι] [DecidableEq B] [ToString B]

/-- A call of `Register`, of the registry or of a mux. -/
inductive Registration (ι R Ctx B D : Type)
  | route (t : GoType B) (queue kind : String) (opts : List (RouteOption Ctx B D))
  | handler (i : ι) (kind : String) (fn : Option (JobFunc R))

structure Wiring (ι R Ctx B D : Type) where
  reg : Registry Ctx B D
  muxes : ι → Mux R

/-- The calls of `Register` that were made, latest first; all of them succeeded. -/
inductive Wired (marshal : Option (Value B D) → Except Err (List UInt8))
    (opts : ι → List (MuxOption R)) :
    List (Registration ι R Ctx B D) → Wiring ι R Ctx B D → Prop
  | new : Wired marshal opts [] ⟨newRegistry, fun i => newMux (opts i)⟩
  | route {calls : List (Registration ι R Ctx B D)} {w : Wiring ι R Ctx B D} {t : GoType B}
      {queue kind : String} {os : List (RouteOption Ctx B D)} {reg : Registry Ctx B D} :
      Wired marshal opts calls w → w.reg.register marshal t queue kind os = .ok reg →
      Wired marshal opts (.route t queue kind os :: calls) { w with reg := reg }
  | handler {calls : List (Registration ι R Ctx B D)} {w : Wiring ι R Ctx B D} {i : ι}
      {kind : String} {fn : Option (JobFunc R)} {m : Mux R} :
      Wired marshal opts calls w → (w.muxes i).register kind fn = .ok m →
      Wired marshal opts (.handler i kind fn :: calls)
        { w with muxes := Function.update w.muxes i m }

section Wired

variable {marshal : Option (Value B D) → Except Err (List UInt8)}
  {opts : ι → List (MuxOption R)} {calls : List (Registration ι R Ctx B D)}
  {w : Wiring ι R Ctx B D}

theorem Wired.handler_iff (h : Wired marshal opts calls w) {i : ι} {kind : String}
    {fn : JobFunc R} :
    (w.muxes i).routes.lookup kind = some fn ↔ .handler i kind (some fn) ∈ calls := by
  induction h with
  | new => simp [newMux_routes]
  | route _ _ ih => simpa using ih
  | @handler calls w j kind' fn' m h hreg ih =>
    obtain ⟨f, rfl, hfree, rfl⟩ := Mux.register_ok hreg
    rw [List.mem_cons, ← ih]
    dsimp only
    by_cases hi : i = j
    · subst hi
      rw [Function.update_self]
      by_cases hk : kind = kind'
      · subst hk
        rw [Finmap.lookup_insert]
        simp [hfree, eq_comm]
      · rw [Finmap.lookup_insert_of_ne _ hk]
        simp [hk]
    · rw [Function.update_of_ne hi]
      simp [hi]

end Wired

section Row

/-- What any statements make of a table. -/
def Later : Table → Table → Prop :=
  Relation.ReflTransGen fun t t' => ∃ s : Stmt, t' = (s.exec t).2

/-- The id is taken, and a row that has it is a task of this queue and kind. -/
def Carries (id : Nat) (queue kind : String) (t : Table) : Prop :=
  id < t.nextID ∧ ∀ r, t.find id = some r → r.queue = queue ∧ r.kind = kind

variable {id : Nat} {queue kind : String} {t t' : Table} (h : Carries id queue kind t)
include h

theorem Carries.exec (s : Stmt) :
    Carries id queue kind (s.exec t).2 := by
  refine ⟨h.1.trans_le (nextID_le_exec s t), fun r' hr' => ?_⟩
  have hstep := exec_rowStep s t id
  rw [hr'] at hstep
  cases hr : t.find id with
  | none =>
    rw [hr] at hstep
    cases hstep with
    | inserted hid => exact absurd hid h.1.ne
  | some r =>
    rw [hr] at hstep
    obtain ⟨hqueue, hkind⟩ := h.2 r hr
    exact ⟨hstep.keeps.1.trans hqueue, hstep.kind.trans hkind⟩

theorem Carries.later (hl : Later t t') :
    Carries id queue kind t' := by
  induction hl with
  | refl => exact h
  | tail _ hs ih =>
    obtain ⟨s, rfl⟩ := hs
    exact ih.exec s

theorem Carries.issued {s : Stmt} {task : Leased}
    (htask : task ∈ (s.exec t).1.issued) (hid : task.id = id) :
    task.queue = queue ∧ task.kind = kind := by
  obtain ⟨_, _, _, _, _, _, r, -, hr, -, htask', -⟩ := mem_issued htask
  rw [hid] at hr
  rw [htask']
  exact h.2 r hr

end Row

/-- The task reaches the one handler that was registered for its kind, whatever the fallback is. -/
def Handled (calls : List (Registration ι R Ctx B D)) (i : ι) (m : Mux R) (task : Task) : Prop :=
  ∃ fn, (∀ fn', .handler i task.kind (some fn') ∈ calls ↔ fn' = fn) ∧
    ∀ fallback r, Mux.handle { m with fallback := fallback } task r = fn task r

/-- When `Check` passes, every task that is scheduled for the queue has its row and is handled by
the mux under every claim. A pointer has the route of what it points to. A `Schedule` that fails,
or of a dropped route, writes nothing. -/
theorem checked_task_handled {marshal : Option (Value B D) → Except Err (List UInt8)}
    {opts : ι → List (MuxOption R)} {calls : List (Registration ι R Ctx B D)}
    {w : Wiring ι R Ctx B D} (hw : Wired marshal opts calls w) :
    (∀ queue i, w.reg.check queue (some (w.muxes i)) = none →
      ∀ ctx v now dbNow fault t t', schedule w.reg ctx v now dbNow fault t = (none, t') →
      ∀ rt, w.reg.lookup v = .ok rt → rt.queue = queue → rt.drop = false →
        (∃ row, t'.find t.nextID = some row ∧ row.queue = queue ∧ row.kind = rt.kind) ∧
        ∀ later s task, Later t' later → task ∈ (Stmt.exec s later).1.issued →
          task.id = t.nextID → Handled calls i (w.muxes i) task.toTask) ∧
    (∀ v p : Value B D, PointerTo v.type p.type →
      w.reg.lookup (some p) = w.reg.lookup (some v)) ∧
    ∀ ctx v now dbNow fault t,
      (∀ err t', schedule w.reg ctx v now dbNow fault t = (some err, t') → t' = t) ∧
      ∀ rt, w.reg.lookup v = .ok rt → rt.drop = true →
        schedule w.reg ctx v now dbNow fault t = (none, t) := by
  refine ⟨fun queue i hcheck ctx v now dbNow fault t t' hsched rt hroute hqueue hdrop => ?_,
    fun v p hp => w.reg.lookup_pointer hp,
    fun ctx v now dbNow fault t => ⟨fun err t' h => schedule_error h,
      fun rt hroute hdrop => schedule_dropped hroute hdrop⟩⟩
  subst hqueue
  obtain ⟨row, hrow, hq, hk⟩ := schedule_inserted hroute hdrop hsched
  refine ⟨⟨row, hrow, hq, hk⟩, fun later s task hlater htask hid => ?_⟩
  have hcarries : Carries t.nextID rt.queue rt.kind t' := by
    refine ⟨t'.lt_of_find hrow, fun r hr => ?_⟩
    rw [hrow] at hr
    cases hr
    exact ⟨hq, hk⟩
  have hkind : task.kind = rt.kind := ((hcarries.later hlater).issued htask hid).2
  obtain ⟨key, hkey⟩ := w.reg.lookup_ok hroute
  obtain ⟨fn, hfn⟩ := Mux.has_iff.mp (w.reg.check_eq_none.mp hcheck key rt hkey rfl hdrop)
  rw [← hkind] at hfn
  refine ⟨fn, fun fn' => ?_, Mux.handle_eq hfn⟩
  rw [← hw.handler_iff, hfn, Option.some.injEq, eq_comm]

section Example

/-- A type is registered by its pointer. -/
def exampleCalls : List (Registration Unit Unit Unit Nat Unit) :=
  [.handler () "welcome" (some fun _ _ => .returned none),
    .route (.pointer (.base 0)) "mail" "welcome" []]

def exampleRoute : Route Unit Nat Unit := ⟨"mail", "welcome", encodeJSON fun _ => .ok [], false⟩

def exampleReg : Registry Unit Nat Unit := ⟨newRegistry.routes.insert (.base 0) exampleRoute⟩

def exampleMux : Mux Unit :=
  { newMux [] with routes := (newMux []).routes.insert "welcome" fun _ _ => .returned none }

theorem exampleWired : Wired (fun _ => .ok []) (fun _ => []) exampleCalls
    ⟨exampleReg, Function.update (fun _ => newMux []) () exampleMux⟩ := by
  refine .handler (.route .new ?_) ?_
  · rfl
  · rfl

theorem exampleCheck : exampleReg.check "mail" (some exampleMux) = none := by
  refine exampleReg.check_eq_none.mpr fun key rt hlookup _ _ => ?_
  by_cases hkey : key = .base 0
  · subst hkey
    cases hlookup
    rfl
  · rw [exampleReg, Finmap.lookup_insert_of_ne _ hkey] at hlookup
    cases hlookup

/-- A pointer to a pointer. -/
def exampleValue : Value Nat Unit := ⟨.pointer (.pointer (.base 0)), ()⟩

def exampleScheduled : Option Err × Table :=
  schedule exampleReg () (some exampleValue) 0 0 none .empty

def exampleTask : Leased :=
  toLeased (Table.lend "lease" 0 (Table.newRow 1 ⟨"mail", "welcome", "", [], 0⟩ 0 0))

end Example

theorem checked_task_handled_pointer :
    exampleTask ∈ ((Stmt.claim "mail" 0 0 1 "lease" fun _ => false).exec
      exampleScheduled.2).1.issued ∧
    Handled exampleCalls () exampleMux exampleTask.toTask := by
  have hissued : exampleTask ∈ ((Stmt.claim "mail" 0 0 1 "lease" fun _ => false).exec
      exampleScheduled.2).1.issued := by decide
  refine ⟨hissued, ?_⟩
  have hhandled := (checked_task_handled exampleWired).1 "mail" () exampleCheck
    () (some exampleValue) 0 0 none .empty exampleScheduled.2 rfl exampleRoute rfl rfl rfl
  exact hhandled.2 _ _ _ .refl hissued rfl

end Skit.Queue
