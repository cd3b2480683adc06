import Skit.Lib.Slog

/-!
# Nesting of logged context

`NewWithHandler` puts two handlers before the sink. The outer one keeps the steps from the first
group on and folds them into the record, so that the fields of the trace stay outside every group;
the inner one, for the events, keeps all steps that reach it and folds them into the record that a
callback gets.
-/
namespace Skit.Logger
open List

open Lib Slog

section Code

/-- The values of attributes; `V` are those of other kinds. -/
inductive Value (V : Type)
  | string (s : String)
  | other (v : V)

variable {V : Type}

abbrev Attrs (V : Type) : Type := List (Attr (Value V))

def string (key value : String) : Attr (Value V) := .leaf key (.string value)

structure Record (V : Type) where
  time : Int
  level : Int
  message : String
  pc : Nat
  attrs : Attrs V

namespace Record

/-- `slog.NewRecord`. -/
def new (time level : Int) (message : String) (pc : Nat) : Record V :=
  ⟨time, level, message, pc, []⟩

/-- `AddAttrs`, which omits empty groups. -/
def addAttrs (r : Record V) (attrs : Attrs V) : Record V :=
  { r with attrs := r.attrs ++ attrs.filter (!·.isEmptyGroup) }

end Record

/-- Whether there is a callback for a level. -/
structure Events where
  debug : Bool
  info : Bool
  warn : Bool
  error : Bool

namespace Events

def any (e : Events) : Bool := e.debug || e.info || e.warn || e.error

def fnFor (e : Events) (level : Int) : Bool :=
  if level = -4 then e.debug
  else if level = 0 then e.info
  else if level = 4 then e.warn
  else if level = 8 then e.error
  else false

end Events

/-- A step that a handler keeps: a group with a name, or attributes. -/
structure GroupOrAttrs (V : Type) where
  group : String
  attrs : Attrs V

def foldGOA : List (GroupOrAttrs V) → Attrs V → Attrs V
  | [], own => own
  | ga :: goas, own =>
    if ga.group ≠ "" then [.newGroup ga.group (foldGOA goas own)]
    else ga.attrs ++ foldGOA goas own

def foldRecord (goas : List (GroupOrAttrs V)) (r : Record V) : Record V :=
  (Record.new r.time r.level r.message r.pc).addAttrs (foldGOA goas r.attrs)

/-- The texts of the identifiers and flags of a valid span. -/
structure Span where
  traceID : String
  spanID : String
  traceFlags : String

/-- A stack of handlers over the sink, which is known by the steps that have reached it. -/
inductive Handler (V : Type)
  | sink (steps : List (Step (Value V)))
  | event (next : Handler V) (events : Events) (goas : List (GroupOrAttrs V))
  | trace (next : Handler V) (goas : List (GroupOrAttrs V))

/-- What leaves the stack: a record for a callback, or one for the sink after its steps. -/
inductive Delivery (V : Type)
  | event (r : Record V)
  | sink (steps : List (Step (Value V))) (r : Record V)

namespace Handler

def withAttrs : Handler V → Attrs V → Handler V
  | .sink steps, attrs => .sink (steps ++ [.attrs attrs])
  | .event next events goas, attrs =>
    if attrs.length = 0 then .event next events goas
    else .event (next.withAttrs attrs) events (goas ++ [⟨"", attrs⟩])
  | .trace next goas, attrs =>
    if attrs.length = 0 then .trace next goas
    else if goas.length = 0 then .trace (next.withAttrs attrs) []
    else .trace next (goas ++ [⟨"", attrs⟩])

def withGroup : Handler V → String → Handler V
  | .sink steps, name => .sink (steps ++ [.group name])
  | .event next events goas, name =>
    if name = "" then .event next events goas
    else .event (next.withGroup name) events (goas ++ [⟨name, []⟩])
  | .trace next goas, name =>
    if name = "" then .trace next goas else .trace next (goas ++ [⟨name, []⟩])

def recordWithContext (goas : List (GroupOrAttrs V)) (r : Record V) : Record V :=
  if goas.length = 0 then r else foldRecord goas r

/-- `Handle`, with the valid span of the context. -/
def handle (span : Option Span) : Handler V → Record V → List (Delivery V)
  | .sink steps, r => [.sink steps r]
  | .event next events goas, r =>
    (if events.fnFor r.level then [.event (recordWithContext goas r)] else []) ++
      next.handle span r
  | .trace next goas, r =>
    let r := if 0 < goas.length then foldRecord goas r else r
    match span with
    | none => next.handle span r
    | some sc =>
      next.handle span (r.addAttrs [string "trace_id" sc.traceID, string "span_id" sc.spanID,
        string "trace_flags" sc.traceFlags])

/-- A step of a logger. -/
def step (h : Handler V) : Step (Value V) → Handler V
  | .attrs attrs => h.withAttrs attrs
  | .group name => h.withGroup name

end Handler

structure Config where
  service : String
  version : String
  events : Events

def identity (cfg : Config) : Attrs V :=
  (if cfg.service ≠ "" then [string "service.name" cfg.service] else []) ++
    (if cfg.version ≠ "" then [string "service.version" cfg.version] else [])

def newWithHandler (h : Handler V) (cfg : Config) : Handler V :=
  let h := if cfg.events.any then .event h cfg.events [] else h
  let h := if 0 < (identity cfg : Attrs V).length then h.withAttrs (identity cfg) else h
  .trace h []

end Code

section Spec

variable {V : Type}

def traceAttrs : Option Span → Attrs V
  | none => []
  | some sc => [string "trace_id" sc.traceID, string "span_id" sc.spanID,
      string "trace_flags" sc.traceFlags]

/-- What the sink receives with the identity and the steps applied to it directly, and outside of
all groups the fields of the trace. -/
def wholeTree (cfg : Config) (steps : List (Step (Value V))) (span : Option Span) (r : Record V) :
    Attrs V :=
  tree (.attrs (identity cfg) :: steps) r.attrs ++ traceAttrs span

/-- After these steps the record has the tree, and is otherwise the one that was logged. -/
structure Carries (r : Record V) (t : Attrs V) (steps : List (Step (Value V))) (r' : Record V) :
    Prop where
  tree : tree steps r'.attrs = t
  time : r'.time = r.time
  level : r'.level = r.level
  message : r'.message = r.message
  pc : r'.pc = r.pc

/-- One record goes to the sink, and before it one to the callback if there is one for the level.
Both carry the whole tree. -/
def Nested (cfg : Config) (steps : List (Step (Value V))) (span : Option Span) (r : Record V)
    (deliveries : List (Delivery V)) : Prop :=
  ∃ seen calls sunk, Carries r (wholeTree cfg steps span r) [] seen ∧
    Carries r (wholeTree cfg steps span r) calls sunk ∧
    deliveries = (if cfg.events.fnFor r.level then [.event seen] else []) ++ [.sink calls sunk]

end Spec

section Folding

variable {V : Type} {goas : List (GroupOrAttrs V)} {own own' : Attrs V} {calls : List (Attrs V)}

theorem foldGOA_append (goas goas' : List (GroupOrAttrs V)) (own : Attrs V) :
    foldGOA (goas ++ goas') own = foldGOA goas (foldGOA goas' own) := by
  induction goas with
  | nil => rfl
  | cons ga goas ih => rw [cons_append, foldGOA, foldGOA, ih]

/-- Empty groups do not matter inside the steps. -/
theorem pruneAll_foldGOA (h : pruneAll own = pruneAll own') :
    pruneAll (foldGOA goas own) = pruneAll (foldGOA goas own') := by
  induction goas with
  | nil => exact h
  | cons ga goas ih =>
    rw [foldGOA, foldGOA]
    split_ifs
    · rw [pruneAll_singleton, pruneAll_singleton, prune_newGroup, prune_newGroup,
        prune_group_congr _ ih]
    · rw [pruneAll_append, pruneAll_append, ih]

theorem foldGOA_attrs (calls : List (Attrs V)) (own : Attrs V) :
    foldGOA (calls.map fun as => ⟨"", as⟩) own = calls.flatten ++ own := by
  induction calls with
  | nil => rfl
  | cons as calls ih =>
    rw [map_cons, foldGOA, if_neg (not_not_intro rfl), ih, flatten_cons,
      append_assoc]

theorem nest_attrs (calls : List (Attrs V)) (own : Attrs V) :
    nest (calls.map .attrs) own = calls.flatten ++ own := by
  induction calls with
  | nil => rfl
  | cons as calls ih => rw [map_cons, nest, ih, flatten_cons, append_assoc]

theorem pruneAll_foldRecord (goas : List (GroupOrAttrs V)) (r : Record V) :
    pruneAll (foldRecord goas r).attrs = pruneAll (foldGOA goas r.attrs) := by
  rw [foldRecord, Record.addAttrs, Record.new, nil_append, pruneAll_filter]

end Folding

section Stack

variable {V : Type} {cfg : Config} {steps : List (Step (Value V))} {h : Handler V}
  {calls : List (Attrs V)}

/-- The stack below the outer handler, after calls of `WithAttrs`. -/
def inner (cfg : Config) (calls : List (Attrs V)) : Handler V :=
  if cfg.events.any then
    .event (.sink (calls.map .attrs)) cfg.events (calls.map fun as => ⟨"", as⟩)
  else .sink (calls.map .attrs)

theorem inner_withAttrs {attrs : Attrs V} (hne : attrs.length ≠ 0) :
    (inner cfg calls).withAttrs attrs = inner cfg (calls ++ [attrs]) := by
  unfold inner
  split_ifs with hany
  · rw [Handler.withAttrs, if_neg hne, Handler.withAttrs]
    simp
  · rw [Handler.withAttrs]
    simp

theorem fnFor_of_not_any {e : Events} (h : ¬ e.any = true) (level : Int) :
    e.fnFor level = false := by
  simp only [Events.any, Bool.or_eq_true, not_or, Bool.not_eq_true] at h
  obtain ⟨⟨⟨hdebug, hinfo⟩, hwarn⟩, herror⟩ := h
  unfold Events.fnFor
  split_ifs
  all_goals first | assumption | rfl

theorem inner_handle (span : Option Span) (r : Record V) :
    (inner cfg calls).handle span r = (if cfg.events.fnFor r.level then
      [.event (Handler.recordWithContext (calls.map fun as => ⟨"", as⟩) r)] else []) ++
      [.sink (calls.map .attrs) r] := by
  unfold inner
  split_ifs with hany hfn hfn
  · rw [Handler.handle, if_pos hfn, Handler.handle]
  · rw [Handler.handle, if_neg hfn, Handler.handle]
  · rw [fnFor_of_not_any hany] at hfn
    cases hfn
  · rw [Handler.handle, nil_append]

/-- The steps are split between the inner stack and the outer handler. -/
def Stacked (cfg : Config) (steps : List (Step (Value V))) (h : Handler V) : Prop :=
  ∃ calls goas, h = .trace (inner cfg calls) goas ∧ ∀ own,
    pruneAll (nest (.attrs (identity cfg) :: steps) own) =
      pruneAll (calls.flatten ++ foldGOA goas own)

theorem stacked_new (cfg : Config) :
    Stacked cfg [] (newWithHandler (.sink [] : Handler V) cfg) := by
  have hinner : (if cfg.events.any then .event (.sink []) cfg.events [] else .sink []) =
      (inner cfg [] : Handler V) := rfl
  unfold newWithHandler
  rw [hinner]
  dsimp only
  split_ifs with hid
  · refine ⟨[identity cfg], [], ?_, fun own => ?_⟩
    · rw [inner_withAttrs (Nat.ne_of_gt hid), nil_append]
    · simp [nest, foldGOA]
  · refine ⟨[], [], rfl, fun own => ?_⟩
    have hnil : (identity cfg : Attrs V) = [] :=
      eq_nil_of_length_eq_zero (Nat.eq_zero_of_not_pos hid)
    simp [nest, foldGOA, hnil]

/-- The steps go on inside those before them. -/
theorem Stacked.concat {step : Step (Value V)} {calls : List (Attrs V)}
    {goas goas' : List (GroupOrAttrs V)}
    (hold : ∀ own, pruneAll (nest (.attrs (identity cfg) :: steps) own) =
      pruneAll (calls.flatten ++ foldGOA goas own))
    (hnew : ∀ own, pruneAll (foldGOA goas' own) = pruneAll (nest [step] own)) :
    ∀ own, pruneAll (nest (.attrs (identity cfg) :: (steps ++ [step])) own) =
      pruneAll (calls.flatten ++ foldGOA (goas ++ goas') own) := by
  intro own
  rw [← cons_append, nest_append, hold, foldGOA_append, pruneAll_append, pruneAll_append,
    pruneAll_foldGOA (hnew own)]

theorem Stacked.step (hs : Stacked cfg steps h) (step : Step (Value V)) :
    Stacked cfg (steps ++ [step]) (h.step step) := by
  obtain ⟨calls, goas, rfl, hold⟩ := hs
  cases step with
  | attrs attrs =>
    rw [Handler.step, Handler.withAttrs]
    split_ifs with hnil hgoas
    · refine ⟨calls, goas, rfl, ?_⟩
      have hnone : attrs = [] := eq_nil_of_length_eq_zero hnil
      intro own
      rw [← cons_append, nest_append, hold, hnone]
      rfl
    · obtain rfl : goas = [] := eq_nil_of_length_eq_zero hgoas
      refine ⟨calls ++ [attrs], [], by rw [inner_withAttrs hnil], fun own => ?_⟩
      rw [← cons_append, nest_append, hold]
      simp [nest, foldGOA]
    · refine ⟨calls, goas ++ [⟨"", attrs⟩], rfl, Stacked.concat hold fun own => ?_⟩
      rfl
  | group name =>
    rw [Handler.step, Handler.withGroup]
    split_ifs with hname
    · refine ⟨calls, goas, rfl, ?_⟩
      intro own
      rw [← cons_append, nest_append, hold, hname]
      rfl
    · refine ⟨calls, goas ++ [⟨name, []⟩], rfl, Stacked.concat hold fun own => ?_⟩
      rw [foldGOA, if_pos hname, nest, if_neg hname, pruneAll_singleton, pruneAll_singleton,
        prune_newGroup]
      rfl

theorem Stacked.foldl {done : List (Step (Value V))} (hs : Stacked cfg done h)
    (steps : List (Step (Value V))) :
    Stacked cfg (done ++ steps) (steps.foldl Handler.step h) := by
  induction steps generalizing done h with
  | nil => rwa [append_nil]
  | cons step steps ih =>
    rw [foldl_cons]
    have hrest := ih (hs.step step)
    rwa [append_assoc, singleton_append] at hrest

/-- The record that the outer handler passes on. -/
def outer (goas : List (GroupOrAttrs V)) (span : Option Span) (r : Record V) : Record V :=
  let r := if 0 < goas.length then foldRecord goas r else r
  match span with
  | none => r
  | some sc => r.addAttrs (traceAttrs (some sc))

theorem trace_handle (next : Handler V) (goas : List (GroupOrAttrs V)) (span : Option Span)
    (r : Record V) :
    (Handler.trace next goas).handle span r = next.handle span (outer goas span r) := by
  cases span <;> rfl

theorem outer_carries (goas : List (GroupOrAttrs V)) (span : Option Span) (r : Record V) :
    Carries r (pruneAll (foldGOA goas r.attrs) ++ traceAttrs span) [] (outer goas span r) := by
  have hfold : Carries r (pruneAll (foldGOA goas r.attrs)) []
      (if 0 < goas.length then foldRecord goas r else r) := by
    split_ifs with hgoas
    · exact ⟨pruneAll_foldRecord goas r, rfl, rfl, rfl, rfl⟩
    · obtain rfl : goas = [] := eq_nil_of_length_eq_zero (Nat.eq_zero_of_not_pos hgoas)
      exact ⟨rfl, rfl, rfl, rfl, rfl⟩
  cases span with
  | none =>
    rw [traceAttrs, append_nil]
    exact hfold
  | some sc =>
    refine ⟨?_, hfold.time, hfold.level, hfold.message, hfold.pc⟩
    rw [← hfold.tree]
    exact pruneAll_append _ _

/-- The sink and the callback get the tree that the steps make. -/
theorem handle_nested (cfg : Config) (steps : List (Step (Value V))) (span : Option Span)
    (r : Record V) :
    Nested cfg steps span r
      ((steps.foldl Handler.step (newWithHandler (.sink []) cfg)).handle span r) := by
  obtain ⟨calls, goas, heq, htree⟩ := (stacked_new cfg).foldl steps
  have houter := outer_carries goas span r
  have hwhole : pruneAll (calls.flatten ++ (outer goas span r).attrs) =
      wholeTree cfg steps span r := by
    have hattrs : pruneAll (outer goas span r).attrs =
        pruneAll (foldGOA goas r.attrs) ++ traceAttrs span := houter.tree
    have hsteps := htree r.attrs
    rw [nil_append] at hsteps
    rw [pruneAll_append, hattrs, ← append_assoc, ← pruneAll_append, ← hsteps]
    rfl
  refine ⟨Handler.recordWithContext (calls.map fun as => ⟨"", as⟩) (outer goas span r),
    calls.map .attrs, outer goas span r, ?_, ?_, ?_⟩
  · unfold Handler.recordWithContext
    split_ifs with hnil
    · have hcalls : calls = [] := by simpa using hnil
      rw [hcalls, flatten_nil, nil_append] at hwhole
      exact ⟨hwhole, houter.time, houter.level, houter.message, houter.pc⟩
    · refine ⟨?_, houter.time, houter.level, houter.message, houter.pc⟩
      rw [tree, nest, pruneAll_foldRecord, foldGOA_attrs, hwhole]
  · refine ⟨?_, houter.time, houter.level, houter.message, houter.pc⟩
    rw [tree, nest_attrs, hwhole]
  · rw [heq, trace_handle, inner_handle, houter.level]

end Stack

end Skit.Logger
