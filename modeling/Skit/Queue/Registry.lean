import Skit.Queue.Workers
import Mathlib.Data.Finmap
import Mathlib.Data.List.Destutter
import Mathlib.Data.Multiset.Sort
import Mathlib.Data.String.Basic

/-!
# Routes and handlers

A `Mux` has the handlers of a queue by kind, and a `Registry` the queue and the kind of a value by
its type. `Register` fills these maps, `Check` compares them, and `Schedule` writes the task of a
value. The order in which a map is ranged over is not given, so a map is a `Finmap`.
-/
namespace Skit.Queue

def errUnknownKind : String := "queue: no handler registered for kind"

/-- A handler, as a consumer has it. -/
abbrev JobFunc (R : Type) := Task → R → Outcome

structure Mux (R : Type) where
  routes : Finmap fun _ : String => JobFunc R
  fallback : JobFunc R

inductive MuxOption (R : Type)
  | withFallback (fn : Option (JobFunc R))

section Mux

variable {R : Type}

/-- A nil function keeps the fallback. -/
def MuxOption.apply : MuxOption R → Mux R → Mux R
  | withFallback (some fn), m => { m with fallback := fn }
  | withFallback none, m => m

def unknownKind : JobFunc R := fun t _ =>
  .returned (permanent (some
    (.wrap (errUnknownKind ++ ": " ++ t.kind.quote) (.sentinel errUnknownKind))))

def newMux (opts : List (MuxOption R)) : Mux R :=
  opts.foldl (fun m opt => opt.apply m) ⟨∅, unknownKind⟩

namespace Mux

variable (m : Mux R)

def has (kind : String) : Bool := (m.routes.lookup kind).isSome

def lookup (kind : String) : JobFunc R :=
  match m.routes.lookup kind with
  | some fn => fn
  | none => m.fallback

def handle : JobFunc R := fun t => m.lookup t.kind t

def register (kind : String) (fn : Option (JobFunc R)) : Except Err (Mux R) :=
  if kind = "" then .error (.text "queue: register: kind is required")
  else
    match fn with
    | none => .error (.text "queue: register: handler is nil")
    | some fn =>
      if m.has kind then
        .error (.text ("queue: register: kind " ++ kind.quote ++ " already registered"))
      else .ok { m with routes := m.routes.insert kind fn }

end Mux

theorem newMux_routes (opts : List (MuxOption R)) : (newMux opts).routes = ∅ := by
  suffices h : ∀ m : Mux R, (opts.foldl (fun m opt => opt.apply m) m).routes = m.routes from h _
  induction opts with
  | nil => exact fun m => rfl
  | cons opt opts ih =>
    intro m
    rw [List.foldl_cons, ih]
    match opt with
    | .withFallback (some fn) => rfl
    | .withFallback none => rfl

variable {kind : String}

theorem Mux.has_iff {m : Mux R} : m.has kind = true ↔ ∃ fn, m.routes.lookup kind = some fn :=
  Option.isSome_iff_exists

theorem Mux.register_ok {m m' : Mux R} {fn : Option (JobFunc R)} (h : m.register kind fn = .ok m') :
    ∃ f, fn = some f ∧ m.routes.lookup kind = none ∧
      m' = { m with routes := m.routes.insert kind f } := by
  unfold Mux.register at h
  split at h
  · cases h
  · match fn with
    | none => cases h
    | some f =>
      dsimp only at h
      split at h
      · cases h
      · next hhas =>
        refine ⟨f, rfl, ?_, (Except.ok.inj h).symm⟩
        simpa [Mux.has] using hhas

theorem Mux.handle_eq {m : Mux R} {t : Task} {fn : JobFunc R}
    (h : m.routes.lookup t.kind = some fn) (fallback : JobFunc R) (r : R) :
    Mux.handle { m with fallback := fallback } t r = fn t r := by
  rw [Mux.handle, Mux.lookup, h]

end Mux

/-- A type as `reflect` has it: a pointer type, which may be a defined one, or another type. A
pointer type that is its own element, at some depth, is none of them; `normalize` does not return
on it. -/
inductive GoType (B : Type)
  | base (b : B)
  | pointer (elem : GoType B)
  | defined (name : String) (elem : GoType B)
  deriving DecidableEq

/-- A value with its dynamic type. An `any` that is nil is `none`. -/
structure Value (B D : Type) where
  type : GoType B
  data : D

abbrev Encoder (Ctx B D : Type) := Ctx → Option (Value B D) → Except Err (List UInt8)

structure Route (Ctx B D : Type) where
  queue : String
  kind : String
  enc : Encoder Ctx B D
  drop : Bool

inductive RouteOption (Ctx B D : Type)
  | withEncoder (e : Option (Encoder Ctx B D))
  | drop

structure Registry (Ctx B D : Type) where
  routes : Finmap fun _ : GoType B => Route Ctx B D

section Types

variable {B : Type}

/-- The type as it is printed. -/
def GoType.string [ToString B] : GoType B → String
  | base b => toString b
  | pointer elem => "*" ++ elem.string
  | defined name _ => name

def normalize : GoType B → GoType B
  | .base b => .base b
  | .pointer elem => normalize elem
  | .defined _ elem => normalize elem

/-- `t` itself, or a pointer type with `t` at some depth. -/
inductive PointerTo (t : GoType B) : GoType B → Prop
  | refl : PointerTo t t
  | pointer {e : GoType B} : PointerTo t e → PointerTo t (.pointer e)
  | defined {e : GoType B} (name : String) : PointerTo t e → PointerTo t (.defined name e)

theorem PointerTo.normalize_eq {t p : GoType B} (h : PointerTo t p) :
    normalize p = normalize t := by
  induction h with
  | refl => rfl
  | pointer _ ih => exact ih
  | defined _ _ ih => exact ih

end Types

section Registry

variable {Ctx B D R : Type}

/-- A nil encoder keeps the default. -/
def RouteOption.apply : RouteOption Ctx B D → Route Ctx B D → Route Ctx B D
  | withEncoder (some e), rt => { rt with enc := e }
  | withEncoder none, rt => rt
  | drop, rt => { rt with drop := true }

/-- The default encoder over `json.Marshal`. -/
def encodeJSON (marshal : Option (Value B D) → Except Err (List UInt8)) : Encoder Ctx B D :=
  fun _ v => (marshal v).mapError fun err => .wrap ("json encoder: " ++ err.error) err

def newRegistry : Registry Ctx B D := ⟨∅⟩

namespace Registry

variable (r : Registry Ctx B D)

def register [DecidableEq B] [ToString B]
    (marshal : Option (Value B D) → Except Err (List UInt8)) (t : GoType B) (queue kind : String)
    (opts : List (RouteOption Ctx B D)) : Except Err (Registry Ctx B D) :=
  if queue = "" then .error (.text "queue: register: queue is required")
  else if kind = "" then .error (.text "queue: register: kind is required")
  else
    let rt := opts.foldl (fun rt opt => opt.apply rt) ⟨queue, kind, encodeJSON marshal, false⟩
    let key := normalize t
    if (r.routes.lookup key).isSome then
      .error (.text ("queue: register: type " ++ key.string ++ " already registered"))
    else .ok ⟨r.routes.insert key rt⟩

/-- `slices.Sort` and `slices.Compact` of the kinds. -/
def kinds (queue : String) : List String :=
  (((r.routes.entries.filter fun e => e.2.queue = queue ∧ e.2.drop = false).map
    fun e => e.2.kind).sort (· ≤ ·)).destutter (· ≠ ·)

def check (queue : String) : Option (Mux R) → Option Err
  | none => some (.text "queue: check: mux is nil")
  | some m =>
    let missing := (r.kinds queue).filter fun kind => !m.has kind
    if missing.length = 0 then none
    else
      some (.wrap ("queue: check " ++ queue ++ ": " ++ errUnknownKind ++ ": [" ++
        " ".intercalate (missing.map String.quote) ++ "]") (.sentinel errUnknownKind))

def lookup [DecidableEq B] [ToString B] : Option (Value B D) → Except Err (Route Ctx B D)
  | none => .error (.text "queue schedule: value is nil")
  | some v =>
    let key := normalize v.type
    match r.routes.lookup key with
    | some rt => .ok rt
    | none => .error (.text ("queue schedule: type " ++ key.string ++ " is not registered"))

theorem mem_kinds [DecidableEq B] {queue kind : String} : kind ∈ r.kinds queue ↔
    ∃ key rt, r.routes.lookup key = some rt ∧ rt.queue = queue ∧ rt.drop = false ∧
      rt.kind = kind := by
  have hsorted := Multiset.pairwise_sort ((r.routes.entries.filter fun e =>
    e.2.queue = queue ∧ e.2.drop = false).map fun e => e.2.kind) (· ≤ ·)
  rw [kinds, hsorted.destutter_eq_dedup, List.mem_dedup, Multiset.mem_sort, Multiset.mem_map]
  constructor
  · rintro ⟨⟨key, rt⟩, he, hkind⟩
    obtain ⟨hmem, hqueue, hdrop⟩ := Multiset.mem_filter.mp he
    exact ⟨key, rt, Finmap.lookup_eq_some_iff.mpr hmem, hqueue, hdrop, hkind⟩
  · rintro ⟨key, rt, hlookup, hqueue, hdrop, hkind⟩
    refine ⟨⟨key, rt⟩, Multiset.mem_filter.mpr ⟨?_, hqueue, hdrop⟩, hkind⟩
    exact Finmap.lookup_eq_some_iff.mp hlookup

/-- `Check` passes when every kind that is sent to the queue has a handler. -/
theorem check_eq_none [DecidableEq B] {queue : String} {m : Mux R} :
    r.check queue (some m) = none ↔ ∀ key rt, r.routes.lookup key = some rt →
      rt.queue = queue → rt.drop = false → m.has rt.kind = true := by
  have hcheck : r.check queue (some m) = none ↔ ∀ kind ∈ r.kinds queue, m.has kind = true := by
    simp [check, List.filter_eq_nil_iff]
  rw [hcheck]
  constructor
  · intro h key rt hlookup hqueue hdrop
    exact h rt.kind (r.mem_kinds.mpr ⟨key, rt, hlookup, hqueue, hdrop, rfl⟩)
  · intro h kind hkind
    obtain ⟨key, rt, hlookup, hqueue, hdrop, rfl⟩ := r.mem_kinds.mp hkind
    exact h key rt hlookup hqueue hdrop

theorem lookup_ok [DecidableEq B] [ToString B] {v : Option (Value B D)} {rt : Route Ctx B D}
    (h : r.lookup v = .ok rt) : ∃ key, r.routes.lookup key = some rt := by
  match v with
  | none => cases h
  | some v =>
    unfold lookup at h
    dsimp only at h
    split at h
    · next rt' hrt =>
      cases h
      exact ⟨_, hrt⟩
    · cases h

theorem lookup_pointer [DecidableEq B] [ToString B] {v p : Value B D}
    (h : PointerTo v.type p.type) : r.lookup (some p) = r.lookup (some v) := by
  unfold lookup
  dsimp only
  rw [h.normalize_eq]

end Registry

/-- `insert`, whose statement the database may refuse. -/
def tryInsert (t : Table) (p : Params) (now dbNow : Int) (fault : Option Err) :
    Except Err Bool × Table :=
  match t.insert p now dbNow, fault with
  | (.ok _, _), some err => (.error (.wrap ("queue schedule: " ++ err.error) err), t)
  | r, _ => r

/-- `Schedule` in a transaction that sees the table `t`. -/
def schedule [DecidableEq B] [ToString B] (reg : Registry Ctx B D) (ctx : Ctx)
    (v : Option (Value B D)) (now dbNow : Int) (fault : Option Err) (t : Table) :
    Option Err × Table :=
  match reg.lookup v with
  | .error err => (some err, t)
  | .ok rt =>
    if rt.drop then (none, t)
    else
      match rt.enc ctx v with
      | .error err =>
        (some (.wrap ("queue schedule " ++ rt.kind ++ ": encode: " ++ err.error) err), t)
      | .ok payload =>
        match tryInsert t ⟨rt.queue, rt.kind, "", payload, 0⟩ now dbNow fault with
        | (.error err, t') => (some err, t')
        | (.ok _, t') => (none, t')

section Schedule

variable [DecidableEq B] [ToString B] {reg : Registry Ctx B D} {ctx : Ctx} {v : Option (Value B D)}
  {now dbNow : Int} {fault : Option Err} {t : Table} {t' : Table} {rt : Route Ctx B D}

theorem tryInsert_ok {p : Params} {b : Bool} (hkey : p.key = "")
    (h : tryInsert t p now dbNow fault = (.ok b, t')) :
    t'.find t.nextID = some (Table.newRow t.nextID p now dbNow) := by
  have hins : t.insert p now dbNow = (.ok b, t') := by
    unfold tryInsert at h
    split at h
    · cases h
    · exact h
  have hreply : (t.insert p now dbNow).1 = .ok b := by rw [hins]
  rw [Table.insert_keyless hkey hreply] at hreply
  have hrow := (Table.insert_true hreply).1
  rwa [hins] at hrow

theorem tryInsert_error {p : Params} {err : Err}
    (h : tryInsert t p now dbNow fault = (.error err, t')) : t' = t := by
  unfold tryInsert at h
  split at h
  · exact (Prod.mk.inj h).2.symm
  · have hsame : (t.insert p now dbNow).2 = t := Table.insert_error (by rw [h])
    rwa [h] at hsame

theorem schedule_error {err : Err}
    (h : schedule reg ctx v now dbNow fault t = (some err, t')) : t' = t := by
  unfold schedule at h
  split at h
  · exact (Prod.mk.inj h).2.symm
  · split at h
    · cases h
    · split at h
      · exact (Prod.mk.inj h).2.symm
      · split at h
        · next hins =>
          cases h
          exact tryInsert_error hins
        · cases h

theorem schedule_dropped (hroute : reg.lookup v = .ok rt)
    (hdrop : rt.drop = true) : schedule reg ctx v now dbNow fault t = (none, t) := by
  rw [schedule, hroute]
  exact if_pos hdrop

theorem schedule_inserted (hroute : reg.lookup v = .ok rt)
    (hdrop : rt.drop = false) (h : schedule reg ctx v now dbNow fault t = (none, t')) :
    ∃ row, t'.find t.nextID = some row ∧ row.queue = rt.queue ∧ row.kind = rt.kind := by
  unfold schedule at h
  rw [hroute] at h
  dsimp only at h
  rw [if_neg (by simp [hdrop])] at h
  split at h
  · cases h
  · split at h
    · cases h
    · next hins =>
      cases h
      exact ⟨_, tryInsert_ok rfl hins, rfl, rfl⟩

end Schedule

end Registry

end Skit.Queue
