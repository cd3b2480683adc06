import Skit.Lib.Trace
import Skit.Resource.Store
import Mathlib.Logic.Function.Basic

/-!
# Partial updates of a generated resource

`Core.Update` reads the row, sets the fields of the request in the copy and writes the whole copy
back, in two statements. Any number of calls run one statement at a time, in any order, among other
writers. What a call writes back of a field that it does not set is what it has read: the lineage
of a row tells whether the value that one of the calls has set is in it.
-/
namespace Skit.Resource
open Function

open Lib

/-- Nil fields are left unchanged. -/
structure UpdateReq where
  name : Option String := none
  description : Option String := none

inductive Field
  | name
  | description
  deriving DecidableEq, Repr

def Field.ofReq : Field → UpdateReq → Option String
  | .name, u => u.name
  | .description, u => u.description

def Field.ofRow : Field → Row → String
  | .name, r => r.name
  | .description, r => r.description

def Field.ofItem : Field → Item → String
  | .name, v => v.name
  | .description, v => v.description

/-- The copy that `Core.Update` writes. -/
def UpdateReq.merge (u : UpdateReq) (item : Item) (now : Int) : Item :=
  { item with
    name := u.name.getD item.name
    description := u.description.getD item.description
    updatedAt := now }

structure Call where
  id : UUID
  req : UpdateReq

inductive Result
  | updated (item : Item)
  | notFound
  | internal
  deriving DecidableEq, Repr

/-- A call before its `SELECT`, before its `UPDATE` and after its return. -/
inductive Stage
  | idle
  | selected (item : Item)
  | returned (r : Result)
  deriving DecidableEq, Repr

variable {ι : Type}

structure State (ι : Type) where
  table : Table
  stage : ι → Stage

/-- `write` is an `UPDATE` that takes effect, with or without its reply; `other` is a change of the
table by any other writer. -/
inductive Label (ι : Type)
  | select (i : ι)
  | write (i : ι) (replied : Bool)
  | missing (i : ι)
  | fail (i : ι)
  | other (before after : Table)

variable [DecidableEq ι] (calls : ι → Call)

def State.stay (s : State ι) (i : ι) (a : Stage) : State ι :=
  { s with stage := Function.update s.stage i a }

inductive Step : State ι → Label ι → State ι → Prop
  | select {s : State ι} {i : ι} {r : Row} : s.stage i = .idle →
      s.table.find (calls i).id = some r → Step s (.select i) (s.stay i (.selected (toCore r)))
  | absent {s : State ι} {i : ι} : s.stage i = .idle → s.table.find (calls i).id = none →
      Step s (.missing i) (s.stay i (.returned .notFound))
  | unread {s : State ι} {i : ι} : s.stage i = .idle →
      Step s (.fail i) (s.stay i (.returned .internal))
  | write {s : State ι} {i : ι} {item : Item} {now : Int} {replied : Bool} :
      s.stage i = .selected item → s.table.find item.id ≠ none →
      Step s (.write i replied)
        { table := s.table.update (toDB ((calls i).req.merge item now))
          stage := Function.update s.stage i (.returned
            (if replied then .updated ((calls i).req.merge item now) else .internal)) }
  | gone {s : State ι} {i : ι} {item : Item} : s.stage i = .selected item →
      s.table.find item.id = none → Step s (.missing i) (s.stay i (.returned .notFound))
  | unwritten {s : State ι} {i : ι} {item : Item} : s.stage i = .selected item →
      Step s (.fail i) (s.stay i (.returned .internal))
  | other {s : State ι} {after : Table} :
      Step s (.other s.table after) { s with table := after }

/-- The calls on a table. -/
def updates (table : Table) : Machine (State ι) (Label ι) where
  init s := s = ⟨table, fun _ => .idle⟩
  step := Step calls

/-- Whether the row that call `u` writes has its value from there, after the statements so far, and
whether what each call has selected has. -/
def lineage (u : ι) : List (Label ι) → Bool × (ι → Bool)
  | [] => (false, fun _ => false)
  | .select i :: tr => ((lineage u tr).1, Function.update (lineage u tr).2 i (lineage u tr).1)
  | .write i _ :: tr =>
    if i = u then (true, (lineage u tr).2)
    else if (calls i).id = (calls u).id then ((lineage u tr).2 i, (lineage u tr).2)
    else lineage u tr
  | _ :: tr => lineage u tr

section Fields

variable (f : Field) {t : Table} {id : UUID}

/-- The stored value of a field. -/
def Table.field (t : Table) (id : UUID) : Option String := (t.find id).map f.ofRow

theorem Field.ofItem_toCore (r : Row) : f.ofItem (toCore r) = f.ofRow r := by
  cases f <;> rfl

theorem Field.ofItem_merge (u : UpdateReq) (item : Item) (now : Int) :
    f.ofItem (u.merge item now) = (f.ofReq u).getD (f.ofItem item) := by
  cases f <;> rfl

theorem field_update_self {v : Item} (h : t.find v.id ≠ none) :
    Table.field f (t.update (toDB v)) v.id = some (f.ofItem v) := by
  obtain ⟨r, hr⟩ := Option.ne_none_iff_exists'.mp h
  have hself : (t.update (toDB v)).find v.id = (t.find v.id).map (Table.assign (toDB v)) :=
    Table.find_update_self
  rw [Table.field, hself, hr]
  cases f <;> rfl

theorem field_update_ne {v : Item} (h : id ≠ v.id) :
    Table.field f (t.update (toDB v)) id = Table.field f t id := by
  rw [Table.field, Table.find_update_ne h, Table.field]

end Fields

section Lineage

variable {calls} {u i : ι} {f : Field} {x : String} {y : Option String} {tr : List (Label ι)}
  {s s' : State ι} {l : Label ι} {r : Result}

/-- The row has the value of `u` or the one from before, and so has what each call has selected. -/
structure Carried (calls : ι → Call) (u : ι) (f : Field) (x : String) (y : Option String)
    (tr : List (Label ι)) (s : State ι) : Prop where
  ids : ∀ i item, s.stage i = .selected item → item.id = (calls i).id
  row : Table.field f s.table (calls u).id = if (lineage calls u tr).1 then some x else y
  selected : ∀ i item, s.stage i = .selected item → (calls i).id = (calls u).id →
    some (f.ofItem item) = if (lineage calls u tr).2 i then some x else y

theorem selected_of_returned {stage : ι → Stage} {i j : ι}
    {item : Item} (h : Function.update stage i (.returned r) j = .selected item) :
    stage j = .selected item := by
  by_cases hji : j = i
  · rw [hji, update_self] at h
    cases h
  · rwa [update_of_ne hji] at h

theorem lineage_write_self (replied : Bool) :
    lineage calls u (.write u replied :: tr) = (true, (lineage calls u tr).2) := if_pos rfl

theorem lineage_write_same (hiu : i ≠ u) (hid : (calls i).id = (calls u).id)
    (replied : Bool) : lineage calls u (.write i replied :: tr) =
      ((lineage calls u tr).2 i, (lineage calls u tr).2) := by
  rw [lineage, if_neg hiu, if_pos hid]

theorem lineage_write_other (hiu : i ≠ u) (hid : (calls i).id ≠ (calls u).id)
    (replied : Bool) : lineage calls u (.write i replied :: tr) = lineage calls u tr := by
  rw [lineage, if_neg hiu, if_neg hid]

variable (h : Carried calls u f x y tr s)
include h

theorem Carried.ret (hl : lineage calls u (l :: tr) = lineage calls u tr) :
    Carried calls u f x y (l :: tr) (s.stay i (.returned r)) := by
  refine ⟨fun j item hj => h.ids j item (selected_of_returned hj), ?_, fun j item hj => ?_⟩
  · rw [hl]
    exact h.row
  · rw [hl]
    exact h.selected j item (selected_of_returned hj)

theorem Carried.select {r : Row} (hr : s.table.find (calls i).id = some r) :
    Carried calls u f x y (.select i :: tr) (s.stay i (.selected (toCore r))) := by
  have hstage : ∀ j item, (s.stay i (.selected (toCore r))).stage j = .selected item →
      (j = i ∧ item = toCore r) ∨ (j ≠ i ∧ s.stage j = .selected item) := by
    intro j item hj
    dsimp only [State.stay] at hj
    by_cases hji : j = i
    · rw [hji, update_self] at hj
      exact .inl ⟨hji, (Stage.selected.inj hj).symm⟩
    · rw [update_of_ne hji] at hj
      exact .inr ⟨hji, hj⟩
  refine ⟨fun j item hj => ?_, h.row, fun j item hj hid => ?_⟩
  · obtain ⟨rfl, rfl⟩ | ⟨-, hj⟩ := hstage j item hj
    · exact Table.find_id hr
    · exact h.ids j item hj
  · obtain ⟨rfl, rfl⟩ | ⟨hji, hj⟩ := hstage j item hj
    · simp only [lineage, update_self]
      rw [← h.row, Table.field, ← hid, hr, f.ofItem_toCore, Option.map_some]
    · simp only [lineage, update_of_ne hji]
      exact h.selected j item hj hid

theorem Carried.write (hx : f.ofReq (calls u).req = some x) {item : Item} {now : Int}
    {replied : Bool}
    (honly : i ≠ u → (calls i).id = (calls u).id → f.ofReq (calls i).req = none)
    (hi : s.stage i = .selected item) (hfound : s.table.find item.id ≠ none) :
    Carried calls u f x y (.write i replied :: tr)
      { table := s.table.update (toDB ((calls i).req.merge item now))
        stage := Function.update s.stage i (.returned r) } := by
  have hid := h.ids i item hi
  have hself : Table.field f (s.table.update (toDB ((calls i).req.merge item now))) item.id =
      some ((f.ofReq (calls i).req).getD (f.ofItem item)) := by
    rw [← f.ofItem_merge]
    exact field_update_self f hfound
  have hids : ∀ j item, Function.update s.stage i (.returned r) j = .selected item →
      item.id = (calls j).id := fun j item hj => h.ids j item (selected_of_returned hj)
  by_cases hiu : i = u
  · subst hiu
    refine ⟨hids, ?_, fun j item hj => ?_⟩
    · rw [lineage_write_self, ← hid, hself, hx]
      rfl
    · rw [lineage_write_self]
      exact h.selected j item (selected_of_returned hj)
  · by_cases hsame : (calls i).id = (calls u).id
    · refine ⟨hids, ?_, fun j item hj => ?_⟩
      · rw [lineage_write_same hiu hsame, ← hsame, ← hid, hself, honly hiu hsame,
          ← h.selected i item hi hsame]
        rfl
      · rw [lineage_write_same hiu hsame]
        exact h.selected j item (selected_of_returned hj)
    · refine ⟨hids, ?_, fun j item hj => ?_⟩
      · rw [lineage_write_other hiu hsame, ← h.row]
        exact field_update_ne f fun heq => hsame (hid.symm.trans heq.symm)
      · rw [lineage_write_other hiu hsame]
        exact h.selected j item (selected_of_returned hj)

theorem Carried.step (hx : f.ofReq (calls u).req = some x) (hst : Step calls s l s')
    (honly : ∀ i b, l = .write i b → i ≠ u → (calls i).id = (calls u).id →
      f.ofReq (calls i).req = none)
    (hother : ∀ a b, l = .other a b →
      Table.field f b (calls u).id = Table.field f a (calls u).id) :
    Carried calls u f x y (l :: tr) s' := by
  cases hst with
  | select _ hr => exact h.select hr
  | absent _ _ => exact h.ret rfl
  | unread _ => exact h.ret rfl
  | write hi hfound => exact h.write hx (honly _ _ rfl) hi hfound
  | gone _ _ => exact h.ret rfl
  | unwritten _ => exact h.ret rfl
  | other => exact ⟨h.ids, (hother _ _ rfl).trans h.row, h.selected⟩

end Lineage

/-- A field that only one of the calls sets has its value, after any statements, exactly if the
value is in the lineage of the row or was there before. -/
theorem update_kept_iff {calls : ι → Call} {table : Table} {tr : List (Label ι)} {s : State ι}
    (h : Trace (updates calls table) tr s) {u : ι} {f : Field} {x : String}
    (hx : f.ofReq (calls u).req = some x)
    (honly : ∀ i b, .write i b ∈ tr → i ≠ u → (calls i).id = (calls u).id →
      f.ofReq (calls i).req = none)
    (hother : ∀ a b, .other a b ∈ tr →
      Table.field f b (calls u).id = Table.field f a (calls u).id) :
    Table.field f s.table (calls u).id = some x ↔
      (lineage calls u tr).1 = true ∨ Table.field f table (calls u).id = some x := by
  have hcarried : Carried calls u f x (Table.field f table (calls u).id) tr s := by
    induction h with
    | init hinit =>
      subst hinit
      exact ⟨nofun, rfl, nofun⟩
    | step _ hst ih =>
      refine (ih (fun i b hm => honly i b (List.mem_cons_of_mem _ hm))
        fun a b hm => hother a b (List.mem_cons_of_mem _ hm)).step hx hst ?_ ?_
      · exact fun i b hl => honly i b (hl ▸ List.mem_cons_self)
      · exact fun a b hl => hother a b (hl ▸ List.mem_cons_self)
  rw [hcarried.row]
  cases (lineage calls u tr).1 with
  | true => exact iff_of_true rfl (.inl rfl)
  | false => simp

section Example

def boardID : UUID := ⟨1, by decide⟩

def board : Table := ⟨[⟨boardID, "old", "short", 0, 0⟩], by decide⟩

/-- One call sets the name, the other one the description. -/
def edits (i : Bool) : Call where
  id := boardID
  req := if i then { description := some "long" } else { name := some "new" }

end Example

/-- The second call selects after the first one has written. -/
theorem update_kept_in_turn : ∃ (tr : List (Label Bool)) (s : State Bool),
    Trace (updates edits board) tr s ∧ .write false true ∈ tr ∧ .write true true ∈ tr ∧
      Table.field .name s.table 1 = some "new" := by
  have h₁ := (Trace.init (M := updates edits board) rfl).step (.select (i := false) rfl rfl)
  have h₂ := h₁.step (@Step.write _ _ edits _ false _ 1 true rfl (by decide))
  have h₃ := h₂.step (.select (i := true) rfl rfl)
  have h₄ := h₃.step (@Step.write _ _ edits _ true _ 2 true rfl (by decide))
  refine ⟨_, _, h₄, by simp, by simp, ?_⟩
  refine (update_kept_iff h₄ (u := false) (f := .name) rfl (fun i b _ hi _ => ?_)
    fun a b hm => absurd hm (by simp)).mpr (.inl rfl)
  cases i with
  | false => exact absurd rfl hi
  | true => rfl

/-- Both calls select before either writes: the name is back where it was. -/
theorem name_reverted : ∃ (tr : List (Label Bool)) (s : State Bool) (item item' : Item),
    Trace (updates edits board) tr s ∧
      s.stage false = .returned (.updated item) ∧ s.stage true = .returned (.updated item') ∧
      Field.name.ofReq (edits false).req = some "new" ∧ Field.name.ofReq (edits true).req = none ∧
      (∀ a b, .other a b ∉ tr) ∧ Table.field .name s.table 1 = some "old" := by
  have h₁ := (Trace.init (M := updates edits board) rfl).step (.select (i := false) rfl rfl)
  have h₂ := h₁.step (.select (i := true) rfl rfl)
  have h₃ := h₂.step (@Step.write _ _ edits _ false _ 1 true rfl (by decide))
  have h₄ := h₃.step (@Step.write _ _ edits _ true _ 2 true rfl (by decide))
  exact ⟨_, _, _, _, h₄, rfl, rfl, rfl, rfl, by simp, rfl⟩

end Skit.Resource
