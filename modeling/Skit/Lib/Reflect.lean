import Mathlib.Data.List.Forall2
import Mathlib.Data.List.Pairwise
import Mathlib.Logic.Function.Basic

/-!
# Go values seen through reflection

A heap gives every variable a type and a value of it. A location is a variable with the fields
that lead into it, so a pointer may lead to a variable, to an element of a slice or to a field
inside a struct, and two pointers may lead to one place. A `Ref` is a `reflect.Value`: a
location with the flags that say what may be done there.
-/
namespace Skit.Lib.Reflect
open List

variable {N B : Type}

section Types

/-- A type. Struct types and declared string types are known by their names. -/
inductive GoType (N : Type)
  | string (name : Option N)
  | pointer (elem : GoType N)
  | struct (name : N)
  | slice (elem : GoType N)
  | other (kind : String)
  deriving DecidableEq, Repr

/-- The type behind a pointer, and any other type itself. -/
def GoType.deref : GoType N → GoType N
  | .pointer t => t
  | t => t

def GoType.kind : GoType N → String
  | .string _ => "string"
  | .pointer _ => "ptr"
  | .struct _ => "struct"
  | .slice _ => "slice"
  | .other kind => kind

structure StructField (N : Type) where
  name : String
  exported : Bool
  embedded : Bool
  tags : List (String × String)
  type : GoType N
  deriving DecidableEq, Repr

/-- `StructTag.Get`. -/
def StructField.tag (f : StructField N) (key : String) : String := (f.tags.lookup key).getD ""

/-- The declared types: the fields of each struct type, and what the verb `%v` prints of a value
of each string type, which is the business of its methods. Only blank fields share a name. -/
structure Types (N : Type) where
  fields : N → List (StructField N)
  text : N → String → String := fun _ s => s
  noDot : ∀ n, ∀ f ∈ fields n, '.' ∉ f.name.toList := by decide
  blank : ∀ n, ∀ f ∈ fields n, f.name = "_" → f.exported = false ∧ f.embedded = false := by decide
  distinct : ∀ n, (fields n).Pairwise fun f g => f.name = g.name → f.name = "_" := by decide

/-- What `%v` prints of a value of a string type. -/
def Types.format (E : Types N) : Option N → String → String
  | none, s => s
  | some n, s => E.text n s

/-- The first field of the name, with its index. -/
def Types.fieldByName (E : Types N) (n : N) (name : String) : Option (StructField N × Nat) :=
  (E.fields n).zipIdx.find? (·.1.name = name)

variable {E : Types N} {f : StructField N} {n : N} {name : String}

theorem Types.fieldByName_spec {i : Nat}
    (h : E.fieldByName n name = some (f, i)) : (E.fields n)[i]? = some f ∧ f.name = name := by
  have hf := mem_of_find?_eq_some h
  have hn := find?_some h
  exact ⟨mem_zipIdx_iff_getElem?.mp hf, by simpa using hn⟩

theorem Types.exists_fieldByName
    (hf : f ∈ E.fields n) : ∃ g i, E.fieldByName n f.name = some (g, i) := by
  obtain ⟨i, hi⟩ := getElem?_of_mem hf
  have hex : (E.fieldByName n f.name).isSome := by
    rw [Types.fieldByName, find?_isSome]
    exact ⟨(f, i), mem_zipIdx_iff_getElem?.mpr hi, by simp⟩
  obtain ⟨⟨g, j⟩, hg⟩ := Option.isSome_iff_exists.mp hex
  exact ⟨g, j, hg⟩

/-- Whether a path may go on through the field without losing the right to set what it finds. -/
def StructField.passable (f : StructField N) : Bool := f.exported || f.embedded

/-- Two fields of one name are the same unless the name is blank. -/
theorem Types.field_unique {f g : StructField N} (hf : f ∈ E.fields n)
    (hg : g ∈ E.fields n) (hname : f.name = g.name) (hp : g.passable = true) : f = g := by
  have hb : g.name ≠ "_" := by
    intro hb
    obtain ⟨he, hm⟩ := E.blank n g hg hb
    simp [StructField.passable, he, hm] at hp
  by_contra hne
  have : Std.Symm fun f g : StructField N => f.name = g.name → f.name = "_" :=
    ⟨fun f g h hfg => hfg ▸ h hfg.symm⟩
  exact hb (hname ▸ (E.distinct n).forall hf hg hne hname)

/-- The field of a name that a type or a pointer to it has. -/
def Types.fieldOf (E : Types N) (t : GoType N) (name : String) : Option (StructField N) :=
  match t.deref with
  | .struct n => (E.fieldByName n name).map (·.1)
  | _ => none

theorem Types.fieldOf_spec {t : GoType N} (ht : t.deref = .struct n)
    (hf : E.fieldOf t name = some f) :
    f ∈ E.fields n ∧ f.name = name := by
  simp only [Types.fieldOf, ht, Option.map_eq_some_iff] at hf
  obtain ⟨⟨g, i⟩, hg, rfl⟩ := hf
  obtain ⟨hi, hname⟩ := Types.fieldByName_spec hg
  exact ⟨mem_of_getElem? hi, hname⟩

/-- The fields that a path of names goes through. -/
def Types.fieldsAlong (E : Types N) : GoType N → List String → Option (List (StructField N))
  | _, [] => some []
  | t, name :: path => (E.fieldOf t name).bind fun f => (E.fieldsAlong f.type path).map (f :: ·)

end Types

section Values

/-- A variable and the indices of the fields that lead into it. -/
structure Loc (B : Type) where
  base : B
  path : List Nat
  deriving DecidableEq, Repr

def Loc.child (l : Loc B) (i : Nat) : Loc B := ⟨l.base, l.path ++ [i]⟩

/-- A value. A slice holds the locations of its elements, and the nil slice is `none`. -/
inductive Value (N B : Type)
  | string (name : Option N) (text : String)
  | pointer (target : Option (Loc B))
  | struct (name : N) (fields : List (Value N B))
  | slice (elems : Option (List (Loc B)))
  | other (kind : String) (zero : Bool) (text : String)

def Value.kind : Value N B → String
  | .string _ _ => "string"
  | .pointer _ => "ptr"
  | .struct _ _ => "struct"
  | .slice _ => "slice"
  | .other kind _ _ => kind

mutual

/-- `Value.IsZero`. -/
def Value.isZero : Value N B → Bool
  | .string _ s => s == ""
  | .pointer target => target.isNone
  | .struct _ vs => Value.allZero vs
  | .slice es => es.isNone
  | .other _ zero _ => zero

def Value.allZero : List (Value N B) → Bool
  | [] => true
  | v :: vs => v.isZero && Value.allZero vs

end

def Value.field : Value N B → Nat → Option (Value N B)
  | .struct _ vs, i => vs[i]?
  | _, _ => none

/-- The value at the end of a path of field indices. -/
def Value.get (v : Value N B) : List Nat → Option (Value N B)
  | [] => some v
  | i :: p => (v.field i).bind fun w => w.get p

/-- The value with the string at the end of the path replaced. -/
def Value.setString (s : String) : List Nat → Value N B → Value N B
  | [], .string k _ => .string k s
  | i :: p, .struct n vs => .struct n (vs.modify i (Value.setString s p))
  | _, v => v

theorem Value.get_append (v : Value N B) (p q : List Nat) :
    v.get (p ++ q) = (v.get p).bind fun w => w.get q := by
  induction p generalizing v with
  | nil => rfl
  | cons i p ih =>
    simp only [cons_append, Value.get, Option.bind_assoc, ih]

theorem Value.get_child (v : Value N B) (p : List Nat) (i : Nat) :
    v.get (p ++ [i]) = (v.get p).bind fun w => w.field i := by
  rw [Value.get_append]
  simp [Value.get]

theorem Value.field_setString (v : Value N B) (s : String) (i j : Nat) (p : List Nat) :
    (v.setString s (i :: p)).field j =
      if i = j then (v.field j).map (Value.setString s p) else v.field j := by
  cases v with
  | struct n vs => simp only [Value.setString, Value.field, getElem?_modify]; split <;> simp
  | _ => simp [Value.setString, Value.field]

/-- Above the place that is set, a value contains the new string. -/
theorem Value.get_setString_above (v : Value N B) (s : String) (q p : List Nat) :
    (v.setString s (q ++ p)).get q = (v.get q).map (Value.setString s p) := by
  induction q generalizing v with
  | nil => rfl
  | cons i q ih =>
    simp only [cons_append, Value.get, Value.field_setString, if_pos, Option.bind_map,
      Option.map_bind]
    exact congrArg _ (funext fun w => ih w)

/-- Everything that does not contain the place stays as it is. -/
theorem Value.get_setString_apart (v : Value N B) (s : String) {q p : List Nat}
    (h : ¬ q <+: p) : (v.setString s p).get q = v.get q := by
  induction q generalizing v p with
  | nil => exact absurd nil_prefix h
  | cons j q ih =>
    cases p with
    | nil => cases v <;> rfl
    | cons i p =>
      simp only [Value.get, Value.field_setString]
      split
      · next hij =>
        subst hij
        have hq : ¬ q <+: p := fun hq => h (by simpa using hq)
        simp only [Option.bind_map]
        exact congrArg _ (funext fun w => ih w hq)
      · rfl

theorem Value.allZero_iff (vs : List (Value N B)) :
    Value.allZero vs = true ↔ ∀ v ∈ vs, v.isZero = true := by
  induction vs with
  | nil => simp [Value.allZero]
  | cons v vs ih => simp [Value.allZero, ih]

/-- A value that holds a text is not zero. -/
theorem Value.isZero_of_setString {v : Value N B} {s : String} (hs : s ≠ "") {p : List Nat}
    (h : (v.setString s p).isZero = true) : v.isZero = true := by
  induction p generalizing v with
  | nil =>
    cases v with
    | string k t => exact absurd (by simpa [Value.setString, Value.isZero] using h) hs
    | _ => exact h
  | cons i p ih =>
    cases v with
    | struct n vs =>
      simp only [Value.setString, Value.isZero, Value.allZero_iff] at h ⊢
      intro v hv
      obtain ⟨j, hj⟩ := getElem?_of_mem hv
      have hm : (vs.modify i (Value.setString s p))[j]? =
          some (if i = j then v.setString s p else v) := by
        rw [getElem?_modify, hj]
        split <;> rfl
      have hz := h _ (mem_of_getElem? hm)
      split at hz
      · exact ih hz
      · exact hz
    | _ => exact h

end Values

section Typing

/-- The type of the place at the end of a path of field indices. -/
def Types.typeAt (E : Types N) : GoType N → List Nat → Option (GoType N)
  | t, [] => some t
  | .struct n, i :: p => (E.fields n)[i]?.bind fun f => E.typeAt f.type p
  | _, _ :: _ => none

theorem Types.typeAt_append (E : Types N) (t : GoType N) (p q : List Nat) :
    E.typeAt t (p ++ q) = (E.typeAt t p).bind fun u => E.typeAt u q := by
  induction p generalizing t with
  | nil => rfl
  | cons i p ih => cases t <;> simp [Types.typeAt, ih, Option.bind_assoc]

variable [DecidableEq N] (E : Types N) (τ : B → GoType N)

mutual

/-- Whether the value is one of the type, in a heap with variables of the types `τ`. -/
def Value.hasType : Value N B → GoType N → Bool
  | .string k _, .string k' => k = k'
  | .pointer target, .pointer t => target.all fun l => E.typeAt (τ l.base) l.path = some t
  | .struct n vs, .struct m => n = m && Value.haveTypes vs (E.fields n)
  | .slice es, .slice t => (es.getD []).all fun l => E.typeAt (τ l.base) l.path = some t
  | .other kind _ _, .other kind' => kind = kind'
  | _, _ => false

def Value.haveTypes : List (Value N B) → List (StructField N) → Bool
  | [], [] => true
  | v :: vs, f :: fs => Value.hasType v f.type && Value.haveTypes vs fs
  | _, _ => false

end

variable {E τ} {v : Value N B}

theorem Value.haveTypes_iff {vs : List (Value N B)} {fs : List (StructField N)} :
    Value.haveTypes E τ vs fs = true ↔
      List.Forall₂ (fun v f => Value.hasType E τ v f.type = true) vs fs := by
  induction vs generalizing fs with
  | nil => cases fs <;> simp [Value.haveTypes]
  | cons v vs ih => cases fs <;> simp [Value.haveTypes, ih]

theorem Value.hasType_get {t u : GoType N} {p : List Nat}
    (h : v.hasType E τ t = true) (hu : E.typeAt t p = some u) :
    ∃ w, v.get p = some w ∧ w.hasType E τ u = true := by
  induction p generalizing v t with
  | nil =>
    cases hu
    exact ⟨v, rfl, h⟩
  | cons i p ih =>
    cases t with
    | struct m =>
      obtain ⟨f, hf, hp⟩ := Option.bind_eq_some_iff.mp hu
      cases v with
      | struct n vs =>
        simp only [Value.hasType, Bool.and_eq_true, decide_eq_true_eq] at h
        obtain ⟨rfl, h⟩ := h
        have hfs := Value.haveTypes_iff.mp h
        obtain ⟨hi, rfl⟩ := List.getElem?_eq_some_iff.mp hf
        have hi' : i < vs.length := hfs.length_eq ▸ hi
        obtain ⟨w, hw, hwu⟩ := ih (hfs.get hi' hi) hp
        refine ⟨w, ?_, hwu⟩
        simpa [Value.get, Value.field, hi'] using hw
      | _ => simp [Value.hasType] at h
    | _ => simp [Types.typeAt] at hu

theorem Value.exists_typeAt {v w : Value N B} {t : GoType N} {p : List Nat}
    (h : v.hasType E τ t = true) (hw : v.get p = some w) :
    ∃ u, E.typeAt t p = some u ∧ w.hasType E τ u = true := by
  induction p generalizing v t with
  | nil =>
    cases hw
    exact ⟨t, rfl, h⟩
  | cons i p ih =>
    obtain ⟨v', hv', hw⟩ := Option.bind_eq_some_iff.mp hw
    cases v with
    | struct n vs =>
      cases t with
      | struct m =>
        simp only [Value.hasType, Bool.and_eq_true, decide_eq_true_eq] at h
        obtain ⟨rfl, h⟩ := h
        have hfs := Value.haveTypes_iff.mp h
        obtain ⟨hi, rfl⟩ := List.getElem?_eq_some_iff.mp hv'
        have hi' : i < (E.fields n).length := hfs.length_eq ▸ hi
        obtain ⟨u, hu, hwu⟩ := ih (hfs.get hi hi') hw
        refine ⟨u, ?_, hwu⟩
        simpa [Types.typeAt, hi'] using hu
      | _ => simp [Value.hasType] at h
    | _ => cases hv'

theorem Value.hasType_setString {t : GoType N} (s : String) (p : List Nat)
    (h : v.hasType E τ t = true) : (v.setString s p).hasType E τ t = true := by
  induction p generalizing v t with
  | nil =>
    cases v with
    | string k a => cases t <;> exact h
    | _ => exact h
  | cons i p ih =>
    cases v with
    | struct n vs =>
      cases t with
      | struct m =>
        simp only [Value.setString, Value.hasType, Bool.and_eq_true] at h ⊢
        refine ⟨h.1, Value.haveTypes_iff.mpr ?_⟩
        have hfs := Value.haveTypes_iff.mp h.2
        rw [List.forall₂_iff_get] at hfs ⊢
        refine ⟨by simpa using hfs.1, fun j hj hj' => ?_⟩
        have hv := hfs.2 j (by simpa using hj) hj'
        simp only [get_eq_getElem, getElem_modify]
        split
        · exact ih hv
        · exact hv
      | _ => simp [Value.hasType] at h
    | _ => exact h

end Typing

section Heap

variable [DecidableEq N] {l : Loc B} {t : GoType N} {n : N} {k : Option N}

/-- The variables of a program with their types, values and addresses. -/
structure Heap (E : Types N) (B : Type) where
  type : B → GoType N
  value : B → Value N B
  address : Loc B → Nat
  typed : ∀ b, (value b).hasType E type (type b) = true

variable {E : Types N} (h : Heap E B)

def Heap.read (l : Loc B) : Option (Value N B) := (h.value l.base).get l.path

def Heap.typeOf (l : Loc B) : Option (GoType N) := E.typeAt (h.type l.base) l.path

variable {h}

theorem Heap.read_append (l : Loc B) (p : List Nat) :
    h.read ⟨l.base, l.path ++ p⟩ = (h.read l).bind fun v => v.get p :=
  Value.get_append _ _ _

theorem Heap.read_child (l : Loc B) (i : Nat) :
    h.read (l.child i) = (h.read l).bind fun v => v.field i :=
  Value.get_child _ _ _

theorem Heap.read_of_typeOf (hl : h.typeOf l = some t) :
    ∃ v, h.read l = some v ∧ v.hasType E h.type t = true :=
  Value.hasType_get (h.typed l.base) hl

theorem Heap.exists_typeOf {v : Value N B} (hl : h.read l = some v) :
    ∃ t, h.typeOf l = some t ∧ v.hasType E h.type t = true :=
  Value.exists_typeAt (h.typed l.base) hl

theorem Heap.read_struct (hl : h.typeOf l = some (.struct n)) :
    ∃ vs, h.read l = some (.struct n vs) := by
  obtain ⟨v, hv, ht⟩ := h.read_of_typeOf hl
  cases v with
  | struct m vs =>
    simp only [Value.hasType, Bool.and_eq_true, decide_eq_true_eq] at ht
    exact ⟨vs, ht.1 ▸ hv⟩
  | _ => simp [Value.hasType] at ht

theorem Heap.read_string (hl : h.typeOf l = some (.string k)) :
    ∃ s, h.read l = some (.string k s) := by
  obtain ⟨v, hv, ht⟩ := h.read_of_typeOf hl
  cases v with
  | string k' s =>
    simp only [Value.hasType, decide_eq_true_eq] at ht
    exact ⟨s, ht ▸ hv⟩
  | _ => simp [Value.hasType] at ht

/-- The place a pointer leads to is of the type it points to. -/
theorem Heap.typeOf_target {l p : Loc B} (hl : h.typeOf l = some t)
    (hr : h.read l = some (.pointer (some p))) : ∃ u, t = .pointer u ∧ h.typeOf p = some u := by
  obtain ⟨v, hv, ht⟩ := h.read_of_typeOf hl
  obtain rfl := Option.some.inj (hr.symm.trans hv)
  cases t with
  | pointer u =>
    simp only [Value.hasType, Option.all_some, decide_eq_true_eq] at ht
    exact ⟨u, rfl, ht⟩
  | _ => simp [Value.hasType] at ht

/-- The elements of a slice are of the type it names. -/
theorem Heap.typeOf_elem {l e : Loc B} {es : List (Loc B)}
    (hl : h.typeOf l = some t) (hr : h.read l = some (.slice (some es))) (he : e ∈ es) :
    ∃ u, t = .slice u ∧ h.typeOf e = some u := by
  obtain ⟨v, hv, ht⟩ := h.read_of_typeOf hl
  obtain rfl := Option.some.inj (hr.symm.trans hv)
  cases t with
  | slice u =>
    simp only [Value.hasType, Option.getD_some, all_eq_true, decide_eq_true_eq] at ht
    exact ⟨u, rfl, ht e he⟩
  | _ => simp [Value.hasType] at ht

theorem Heap.typeOf_eq_struct {vs : List (Value N B)}
    (hl : h.typeOf l = some t) (hr : h.read l = some (.struct n vs)) : t = .struct n := by
  obtain ⟨v, hv, ht⟩ := h.read_of_typeOf hl
  obtain rfl := Option.some.inj (hr.symm.trans hv)
  cases t with
  | struct m =>
    simp only [Value.hasType, Bool.and_eq_true, decide_eq_true_eq] at ht
    rw [ht.1]
  | _ => simp [Value.hasType] at ht

theorem Heap.typeOf_eq_string {s : String}
    (hl : h.typeOf l = some t) (hr : h.read l = some (.string k s)) : t = .string k := by
  obtain ⟨v, hv, ht⟩ := h.read_of_typeOf hl
  obtain rfl := Option.some.inj (hr.symm.trans hv)
  cases t with
  | string k' =>
    simp only [Value.hasType, decide_eq_true_eq] at ht
    rw [ht]
  | _ => simp [Value.hasType] at ht

theorem Heap.typeOf_child (hl : h.typeOf l = some (.struct n)) {i : Nat}
    {f : StructField N} (hf : (E.fields n)[i]? = some f) :
    h.typeOf (l.child i) = some f.type := by
  simp only [Heap.typeOf, Loc.child, Types.typeAt_append] at hl ⊢
  simp [hl, Types.typeAt, hf]

variable [DecidableEq B]

/-- `Value.SetString` at a location. -/
def Heap.setString (h : Heap E B) (l : Loc B) (s : String) : Heap E B where
  type := h.type
  value := Function.update h.value l.base ((h.value l.base).setString s l.path)
  address := h.address
  typed := by
    intro b
    by_cases hb : b = l.base
    · subst hb
      rw [Function.update_self]
      exact Value.hasType_setString s _ (h.typed _)
    · rw [Function.update_of_ne hb]
      exact h.typed b

@[simp] theorem Heap.typeOf_setString (l q : Loc B) (s : String) :
    (h.setString l s).typeOf q = h.typeOf q := rfl

@[simp] theorem Heap.address_setString (l : Loc B) (s : String) :
    (h.setString l s).address = h.address := rfl

/-- What a location holds after a string was set: the old value, with the string set inside if
the place that was set lies there. -/
theorem Heap.read_setString (l q : Loc B) (s : String) :
    (h.setString l s).read q = h.read q ∨
      ∃ p, l.base = q.base ∧ l.path = q.path ++ p ∧
        (h.setString l s).read q = (h.read q).map (Value.setString s p) := by
  by_cases hb : q.base = l.base
  · simp only [Heap.read, Heap.setString, hb, Function.update_self]
    by_cases hp : q.path <+: l.path
    · obtain ⟨p, hp⟩ := hp
      refine .inr ⟨p, trivial, hp.symm, ?_⟩
      rw [← hp, Value.get_setString_above]
    · exact .inl (Value.get_setString_apart _ s hp)
  · refine .inl ?_
    simp [Heap.read, Heap.setString, Function.update_of_ne hb]

theorem Heap.read_setString_self {a : String} (s : String)
    (hl : h.read l = some (.string k a)) : (h.setString l s).read l = some (.string k s) := by
  have hr : (h.setString l s).read l = (h.read l).map (Value.setString s []) := by
    have := Value.get_setString_above (h.value l.base) s l.path []
    simpa [Heap.read, Heap.setString] using this
  rw [hr, hl]
  rfl

/-- Another string stays what it is. -/
theorem Heap.read_setString_of_ne {l q : Loc B} {a : String} (s : String)
    (hq : h.read q = some (.string k a)) (hne : q ≠ l) :
    (h.setString l s).read q = some (.string k a) := by
  obtain hr | ⟨p, hb, hp, hr⟩ := h.read_setString l q s
  · rw [hr, hq]
  · rw [hr, hq]
    cases p with
    | nil =>
      obtain ⟨b, p⟩ := l
      obtain ⟨b', q⟩ := q
      simp only [append_nil] at hb hp
      exact absurd (by rw [hb, hp]) hne
    | cons i p => rfl

end Heap

section Refs

/-- The flag of a `reflect.Value` that was reached through fields that are not exported. -/
inductive Access
  | free
  | embedRO
  | stickyRO
  deriving DecidableEq, Repr

/-- What `Value.Field` makes of the flag: it passes on only the sticky one. -/
def Access.through (ro : Access) (f : StructField N) : Access :=
  if ro = .stickyRO then .stickyRO
  else if f.exported then .free
  else if f.embedded then .embedRO
  else .stickyRO

variable {ro : Access} {f : StructField N} {vs : List (Value N B)}

theorem Access.through_ne_sticky :
    ro.through f ≠ .stickyRO ↔ ro ≠ .stickyRO ∧ f.passable = true := by
  unfold Access.through StructField.passable
  cases ro <;> cases f.exported <;> cases f.embedded <;> simp

theorem Access.through_eq_free : ro.through f = .free ↔ ro ≠ .stickyRO ∧ f.exported = true := by
  unfold Access.through
  cases ro <;> cases f.exported <;> cases f.embedded <;> simp

/-- A path keeps the right to set what it finds when its fields let it pass and the last one is
exported. -/
theorem Access.foldl_through_eq_free {gs : List (StructField N)}
    {leaf : StructField N} : (gs ++ [leaf]).foldl Access.through ro = .free ↔
      ro ≠ .stickyRO ∧ (∀ g ∈ gs, g.passable = true) ∧ leaf.exported = true := by
  induction gs generalizing ro with
  | nil => simpa using Access.through_eq_free
  | cons g gs ih =>
    rw [cons_append, foldl_cons, ih, Access.through_ne_sticky]
    simp [and_assoc]

structure Ref (B : Type) where
  loc : Loc B
  addressable : Bool
  access : Access
  deriving DecidableEq, Repr

def Ref.canSet (r : Ref B) : Bool := r.addressable && r.access = .free

def Ref.canInterface (r : Ref B) : Bool := r.access = .free

/-- `Value.Elem` of a pointer. -/
def Ref.elem (r : Ref B) (l : Loc B) : Ref B := ⟨l, true, r.access⟩

/-- `Value.Field`. -/
def Ref.field (r : Ref B) (f : StructField N) (i : Nat) : Ref B :=
  ⟨r.loc.child i, r.addressable, r.access.through f⟩

/-- `Value.Index` of a slice. -/
def Ref.index (r : Ref B) (e : Loc B) : Ref B :=
  ⟨e, true, if r.access = .free then .free else .stickyRO⟩

variable [DecidableEq N] {E : Types N}

/-- The value behind a pointer, and any other value itself. -/
def Heap.deref (h : Heap E B) (r : Ref B) : Option (Ref B) :=
  match h.read r.loc with
  | some (.pointer target) => target.map r.elem
  | _ => some r

variable {h : Heap E B} {r cur : Ref B} {t : GoType N}

theorem Heap.deref_eq_some_iff : h.deref r = some cur ↔
    (∃ l, h.read r.loc = some (.pointer (some l)) ∧ cur = r.elem l) ∨
      (∀ target, h.read r.loc ≠ some (.pointer target)) ∧ cur = r := by
  unfold Heap.deref
  cases h.read r.loc with
  | none => simp [eq_comm]
  | some v =>
    cases v with
    | pointer target => cases target <;> simp [eq_comm]
    | _ => simp [eq_comm]

theorem Heap.deref_access (hd : h.deref r = some cur) : cur.access = r.access := by
  unfold Heap.deref at hd
  split at hd
  · obtain ⟨l, rfl, rfl⟩ := Option.map_eq_some_iff.mp hd
    rfl
  · cases hd
    rfl

theorem Heap.deref_addressable (hd : h.deref r = some cur) (hr : r.addressable = true) :
    cur.addressable = true := by
  unfold Heap.deref at hd
  split at hd
  · obtain ⟨l, rfl, rfl⟩ := Option.map_eq_some_iff.mp hd
    rfl
  · cases hd
    exact hr

/-- Whether the value has an address does not matter for where a pointer leads. -/
theorem Heap.deref_congr {r' : Ref B} (hloc : r'.loc = r.loc) (hacc : r'.access = r.access)
    (hd : h.deref r = some cur) :
    ∃ cur', h.deref r' = some cur' ∧ cur'.loc = cur.loc ∧ cur'.access = cur.access := by
  unfold Heap.deref at hd ⊢
  rw [hloc]
  split at hd
  · obtain ⟨l, rfl, rfl⟩ := Option.map_eq_some_iff.mp hd
    exact ⟨r'.elem l, rfl, rfl, hacc⟩
  · cases hd
    exact ⟨r', rfl, hloc, hacc⟩

/-- The struct that a value is or points to is the one its type names. -/
theorem Heap.deref_struct {n : N} (ht : h.typeOf r.loc = some t)
    (hd : h.deref r = some cur) (hs : h.read cur.loc = some (.struct n vs)) :
    t.deref = .struct n ∧ h.typeOf cur.loc = some (.struct n) := by
  unfold Heap.deref at hd
  split at hd
  · next target hr =>
    obtain ⟨l, rfl, rfl⟩ := Option.map_eq_some_iff.mp hd
    obtain ⟨u, rfl, hu⟩ := h.typeOf_target ht hr
    obtain rfl := h.typeOf_eq_struct hu hs
    exact ⟨rfl, hu⟩
  · cases hd
    obtain rfl := h.typeOf_eq_struct ht hs
    exact ⟨rfl, ht⟩

variable [DecidableEq B]

theorem Heap.deref_setString (l : Loc B) (s : String) :
    (h.setString l s).deref r = h.deref r := by
  unfold Heap.deref
  obtain hr | ⟨p, -, -, hr⟩ := h.read_setString l r.loc s
  · rw [hr]
  · rw [hr]
    cases h.read r.loc with
    | none => rfl
    | some v => cases v <;> cases p <;> rfl

/-- A struct is still one, and is no more zero than before. -/
theorem Heap.read_setString_struct {l q : Loc B} {s : String} {n : N}
    (hs : s ≠ "") (hq : h.read q = some (.struct n vs)) :
    ∃ vs', (h.setString l s).read q = some (.struct n vs') ∧
      ((Value.struct n vs').isZero = true → (Value.struct n vs).isZero = true) := by
  obtain hr | ⟨p, -, -, hr⟩ := h.read_setString l q s
  · exact ⟨vs, hr.trans hq, id⟩
  · rw [hq] at hr
    cases p with
    | nil => exact ⟨vs, hr, id⟩
    | cons i p => exact ⟨_, hr, Value.isZero_of_setString (v := .struct n vs) (p := i :: p) hs⟩

end Refs

end Skit.Lib.Reflect
