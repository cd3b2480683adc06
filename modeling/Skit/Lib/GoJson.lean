import Skit.Lib.Json

/-!
# Go values in JSON

Values of types built from structs, maps with string keys, slices, pointers, strings, booleans
and integers, and how `encoding/json/v2` writes and reads them. A document is read into a value
that is already there: an object is merged into a struct or a map member by member, an array
replaces a slice, and null sets the zero value. `Val.view` is what a value says when nil and
empty maps and slices count as equal and a map has no order.
-/
namespace Skit.Lib.GoJson
open List

variable {N : Type}

section Types

/-- An integer type has the integers from `-below` to `above`; struct types are known by their
names. -/
inductive Ty (N : Type)
  | bool
  | int (below above : Nat)
  | string
  | pointer (elem : Ty N)
  | slice (elem : Ty N)
  | map (elem : Ty N)
  | struct (name : N)
  deriving DecidableEq, Repr

/-- The members of the struct types. A struct that contains another one has a higher rank. -/
structure Types (N : Type) where
  fields : N → List (String × Ty N)
  distinct : ∀ n, ((fields n).map Prod.fst).Nodup
  rank : N → Nat
  contains : ∀ n m name, (name, .struct m) ∈ fields n → rank m < rank n

inductive Val
  | bool (b : Bool)
  | int (n : Int)
  | string (s : String)
  | nilPointer
  | pointer (target : Val)
  | nilSlice
  | slice (elems : List Val)
  | nilMap
  | map (entries : List (String × Val))
  | struct (fields : List (String × Val))

inductive HasType (E : Types N) : Val → Ty N → Prop
  | bool {b : Bool} : HasType E (.bool b) .bool
  | int {n : Int} {below above : Nat} : -below ≤ n → n ≤ above →
      HasType E (.int n) (.int below above)
  | string {s : String} : HasType E (.string s) .string
  | nilPointer {t : Ty N} : HasType E .nilPointer (.pointer t)
  | pointer {v : Val} {t : Ty N} : HasType E v t → HasType E (.pointer v) (.pointer t)
  | nilSlice {t : Ty N} : HasType E .nilSlice (.slice t)
  | slice {vs : List Val} {t : Ty N} : (∀ v ∈ vs, HasType E v t) → HasType E (.slice vs) (.slice t)
  | nilMap {t : Ty N} : HasType E .nilMap (.map t)
  | map {es : List (String × Val)} {t : Ty N} : (es.map Prod.fst).Nodup →
      (∀ e ∈ es, HasType E e.2 t) → HasType E (.map es) (.map t)
  | struct {fs : List (String × Val)} {n : N} : fs.map Prod.fst = (E.fields n).map Prod.fst →
      (∀ name v t, fs.lookup name = some v → (E.fields n).lookup name = some t → HasType E v t) →
      HasType E (.struct fs) (.struct n)

/-- The zero value, where structs lie within structs at most to the given depth. -/
def Types.zeroAt (E : Types N) : Nat → Ty N → Val
  | _, .bool => .bool false
  | _, .int _ _ => .int 0
  | _, .string => .string ""
  | _, .pointer _ => .nilPointer
  | _, .slice _ => .nilSlice
  | _, .map _ => .nilMap
  | 0, .struct _ => .struct []
  | depth + 1, .struct n => .struct ((E.fields n).map fun f => (f.1, E.zeroAt depth f.2))

def Types.height (E : Types N) : Ty N → Nat
  | .struct n => E.rank n + 1
  | _ => 0

def Types.zero (E : Types N) (t : Ty N) : Val := E.zeroAt (E.height t) t

end Types

section Encoding

mutual

/-- `json.Marshal`. Nil maps and slices are written as empty ones. -/
def marshal : Val → Json Int
  | .bool b => .bool b
  | .int n => .num n
  | .string s => .str s
  | .nilPointer => .null
  | .pointer v => marshal v
  | .nilSlice => .arr []
  | .slice vs => .arr (marshalItems vs)
  | .nilMap => .obj []
  | .map es => .obj (marshalMembers es)
  | .struct fs => .obj (marshalMembers fs)

def marshalItems : List Val → List (Json Int)
  | [] => []
  | v :: vs => marshal v :: marshalItems vs

def marshalMembers : List (String × Val) → List (String × Json Int)
  | [] => []
  | (name, v) :: es => (name, marshal v) :: marshalMembers es

end

/-- The value of a document. -/
def docOf (j : Json Int) : Value := j.value fun n : Int => (n : ℚ)

/-- The document of a value. -/
def Val.doc (v : Val) : Value := docOf (marshal v)

/-- What a value says. -/
inductive View
  | bool (b : Bool)
  | int (n : Int)
  | string (s : String)
  | nil
  | pointer (target : View)
  | list (items : List View)
  | record (members : String → Option View)

mutual

def Val.view : Val → View
  | .bool b => .bool b
  | .int n => .int n
  | .string s => .string s
  | .nilPointer => .nil
  | .pointer v => .pointer v.view
  | .nilSlice => .list []
  | .slice vs => .list (viewItems vs)
  | .nilMap => .record fun _ => none
  | .map es => .record (viewMembers es)
  | .struct fs => .record (viewMembers fs)

def viewItems : List Val → List View
  | [] => []
  | v :: vs => v.view :: viewItems vs

def viewMembers : List (String × Val) → String → Option View
  | [], _ => none
  | (name', v) :: es, name => if name = name' then some v.view else viewMembers es name

end

end Encoding

section Decoding

variable (E : Types N)

/-- The target of a pointer that is there. -/
def Val.target : Val → Option Val
  | .pointer v => some v
  | _ => none

/-- The fields of a struct or the entries of a map. -/
def Val.members : Val → List (String × Val)
  | .map es => es
  | .struct fs => fs
  | _ => []

/-- Reading goes through pointers, and a nil one gets a new target. -/
def Types.through (E : Types N) (read : Ty N → Val → Except String Val) :
    Ty N → Val → Except String Val
  | .pointer t, old => (E.through read t (old.target.getD (E.zero t))).map .pointer
  | t, old => read t old

/-- The member of the name gets a value: a new one comes last. -/
def assign (name : String) (v : Val) : List (String × Val) → List (String × Val)
  | [] => [(name, v)]
  | (name', v') :: es => if name' = name then (name', v) :: es else (name', v') :: assign name v es

def mismatch (kind : String) : Except String Val :=
  .error ("json: cannot unmarshal JSON " ++ kind ++ " into Go value")

mutual

/-- `json.Unmarshal` into a value of the type that is already there. -/
def decode : Json Int → Ty N → Val → Except String Val
  | .null, t, _ => .ok (E.zero t)
  | .bool b, t, old => E.through (fun t _ => match t with
      | .bool => .ok (.bool b)
      | _ => mismatch "boolean") t old
  | .num n, t, old => E.through (fun t _ => match t with
      | .int below above =>
        if -below ≤ n ∧ n ≤ above then .ok (.int n) else mismatch "number"
      | _ => mismatch "number") t old
  | .str s, t, old => E.through (fun t _ => match t with
      | .string => .ok (.string s)
      | _ => mismatch "string") t old
  | .arr items, t, old => E.through (fun t _ => match t with
      | .slice t => (decodeItems items t).map .slice
      | _ => mismatch "array") t old
  | .obj members, t, old => E.through (fun t old => match t with
      | .map t => (decodeMembers members (fun _ => some t) old.members).map .map
      | .struct n =>
        (decodeMembers members (fun name => (E.fields n).lookup name) old.members).map .struct
      | _ => mismatch "object") t old

/-- Every item is read into a zero value. -/
def decodeItems : List (Json Int) → Ty N → Except String (List Val)
  | [], _ => .ok []
  | j :: js, t =>
    match decode j t (E.zero t) with
    | .error err => .error err
    | .ok v => (decodeItems js t).map (v :: ·)

/-- Every member is read into the one that is there; members without a type are skipped. -/
def decodeMembers : List (String × Json Int) → (String → Option (Ty N)) → List (String × Val) →
    Except String (List (String × Val))
  | [], _, old => .ok old
  | (name, j) :: ms, type, old =>
    match type name with
    | none => decodeMembers ms type old
    | some t =>
      match decode j t ((old.lookup name).getD (E.zero t)) with
      | .error err => .error err
      | .ok v => decodeMembers ms type (assign name v old)

end

/-- A document in which a name occurs twice is refused. -/
def unmarshal (j : Json Int) (t : Ty N) (old : Val) : Except String Val :=
  if j.distinct then decode E j t old else .error "jsontext: duplicate object member name"

end Decoding

section Lists

theorem lookup_marshalMembers (es : List (String × Val)) (name : String) :
    (marshalMembers es).lookup name = (es.lookup name).map marshal := by
  induction es with
  | nil => rfl
  | cons e es ih =>
    obtain ⟨name', v⟩ := e
    rw [marshalMembers, lookup_cons, lookup_cons, ih]
    cases name == name' <;> rfl

theorem viewMembers_eq (es : List (String × Val)) (name : String) :
    viewMembers es name = (es.lookup name).map Val.view := by
  induction es with
  | nil => rfl
  | cons e es ih =>
    obtain ⟨name', v⟩ := e
    rw [viewMembers, lookup_cons, ih]
    by_cases h : name = name'
    · simp [h]
    · simp [h, beq_false_of_ne h]

/-- The document of a struct or a map is that of its members. -/
theorem valueMembers_marshal (es : List (String × Val)) (name : String) :
    Json.valueMembers (fun n : Int => (n : ℚ)) (marshalMembers es) name =
      (es.lookup name).map Val.doc := by
  rw [Json.valueMembers_eq, lookup_marshalMembers, Option.map_map]
  rfl

theorem lookup_assign (name name' : String) (v : Val) (es : List (String × Val)) :
    (assign name v es).lookup name' = if name' = name then some v else es.lookup name' := by
  induction es with
  | nil =>
    by_cases h : name' = name
    · simp [assign, h]
    · simp [assign, h]
  | cons e es ih =>
    obtain ⟨k, w⟩ := e
    by_cases hk : k = name
    · subst hk
      by_cases h : name' = k
      · simp [assign, h]
      · simp [assign, lookup_cons, beq_false_of_ne h, h]
    · by_cases h : name' = k
      · subst h
        simp [assign, hk]
      · simp [assign, hk, lookup_cons, beq_false_of_ne h, ih]

variable {es : List (String × Val)}

theorem names_assign_of_mem {name : String} (v : Val)
    (h : name ∈ es.map Prod.fst) : (assign name v es).map Prod.fst = es.map Prod.fst := by
  induction es with
  | nil => cases h
  | cons e es ih =>
    obtain ⟨k, w⟩ := e
    by_cases hk : k = name
    · simp [assign, hk]
    · have hm : name ∈ es.map Prod.fst := (mem_cons.mp h).resolve_left (Ne.symm hk)
      simp only [assign, if_neg hk, map_cons, ih hm]

theorem nodup_assign (name : String) (v : Val)
    (h : (es.map Prod.fst).Nodup) : ((assign name v es).map Prod.fst).Nodup := by
  by_cases hm : name ∈ es.map Prod.fst
  · rwa [names_assign_of_mem v hm]
  · have hnew : assign name v es = es ++ [(name, v)] := by
      clear h
      induction es with
      | nil => rfl
      | cons e es ih =>
        obtain ⟨k, w⟩ := e
        have hk : k ≠ name := fun hk => hm (hk ▸ mem_cons_self)
        have hes : name ∉ es.map Prod.fst := fun h => hm (mem_cons_of_mem _ h)
        rw [assign, if_neg hk, ih hes, cons_append]
    rw [hnew, map_append, map_singleton]
    refine nodup_append.mpr ⟨h, nodup_singleton _, fun a ha b hb => ?_⟩
    rw [mem_singleton.mp hb]
    rintro rfl
    exact hm ha

end Lists

section Zero

variable {E : Types N}

theorem Types.height_le {n : N} {f : String × Ty N} (hf : f ∈ E.fields n) :
    E.height f.2 ≤ E.rank n := by
  obtain ⟨name, t⟩ := f
  cases t with
  | struct m => exact E.contains n m name hf
  | _ => exact Nat.zero_le _

theorem Types.zeroAt_eq {d d' : Nat} {t : Ty N} (hd : E.height t ≤ d) (hd' : E.height t ≤ d') :
    E.zeroAt d t = E.zeroAt d' t := by
  induction d generalizing d' t with
  | zero =>
    cases t with
    | struct n => exact absurd hd (Nat.not_succ_le_zero _)
    | _ => cases d' <;> rfl
  | succ d ih =>
    cases t with
    | struct n =>
      cases d' with
      | zero => exact absurd hd' (Nat.not_succ_le_zero _)
      | succ d' =>
        rw [Types.zeroAt, Types.zeroAt]
        congr 1
        refine map_congr_left fun f hf => ?_
        have hf' := E.height_le hf
        rw [ih (hf'.trans (Nat.le_of_succ_le_succ hd)) (hf'.trans (Nat.le_of_succ_le_succ hd'))]
    | _ => cases d' <;> rfl

theorem Types.zero_struct (n : N) :
    E.zero (.struct n) = .struct ((E.fields n).map fun f => (f.1, E.zero f.2)) := by
  rw [Types.zero, Types.height, Types.zeroAt]
  congr 1
  refine map_congr_left fun f hf => ?_
  rw [E.zeroAt_eq (E.height_le hf) (Nat.le_refl _)]
  rfl

theorem Types.lookup_zero_struct (n : N) (name : String) :
    (E.zero (.struct n)).members.lookup name = ((E.fields n).lookup name).map E.zero := by
  rw [E.zero_struct, Val.members]
  induction E.fields n with
  | nil => rfl
  | cons f fs ih =>
    rw [map_cons, lookup_cons, lookup_cons, ih]
    cases name == f.1 <;> rfl

theorem Types.hasType_zero (E : Types N) (t : Ty N) : HasType E (E.zero t) t := by
  induction h : E.height t using Nat.strong_induction_on generalizing t with
  | _ k ih =>
    cases t with
    | bool => exact .bool
    | int below above => exact .int (by omega) (by omega)
    | string => exact .string
    | pointer t => exact .nilPointer
    | slice t => exact .nilSlice
    | map t => exact .nilMap
    | struct n =>
      rw [E.zero_struct]
      refine .struct (by simp) fun name v t hv ht => ?_
      have hlookup := E.lookup_zero_struct n name
      rw [E.zero_struct, Val.members, hv, ht] at hlookup
      cases hlookup
      have hlt : E.height t < k := by
        rw [← h]
        exact Nat.lt_succ_of_le (E.height_le (mem_of_lookup ht))
      exact ih _ hlt t rfl

end Zero

section Distinct

variable {E : Types N} {es : List (String × Val)}

theorem names_marshalMembers (es : List (String × Val)) :
    (marshalMembers es).map Prod.fst = es.map Prod.fst := by
  induction es with
  | nil => rfl
  | cons e es ih => rw [marshalMembers, map_cons, map_cons, ih]

theorem mem_marshalMembers {m : String × Json Int}
    (h : m ∈ marshalMembers es) : ∃ e ∈ es, m = (e.1, marshal e.2) := by
  induction es with
  | nil => cases h
  | cons e es ih =>
    rcases mem_cons.mp h with rfl | h
    · exact ⟨e, mem_cons_self, rfl⟩
    · obtain ⟨e', he', hm⟩ := ih h
      exact ⟨e', mem_cons_of_mem _ he', hm⟩

theorem mem_marshalItems {vs : List Val} {j : Json Int} (h : j ∈ marshalItems vs) :
    ∃ v ∈ vs, j = marshal v := by
  induction vs with
  | nil => cases h
  | cons v vs ih =>
    rcases mem_cons.mp h with rfl | h
    · exact ⟨v, mem_cons_self, rfl⟩
    · obtain ⟨v', hv', hj⟩ := ih h
      exact ⟨v', mem_cons_of_mem _ hv', hj⟩

theorem distinct_members (hes : (es.map Prod.fst).Nodup)
    (h : ∀ e ∈ es, (marshal e.2).distinct = true) :
    (Json.obj (marshalMembers es)).distinct = true := by
  refine Json.distinct_obj_iff.mpr ⟨by rwa [names_marshalMembers], fun m hm => ?_⟩
  obtain ⟨e, he, rfl⟩ := mem_marshalMembers hm
  exact h e he

/-- No name occurs twice in the document of a value. -/
theorem distinct_marshal {v : Val} {t : Ty N} (hv : HasType E v t) :
    (marshal v).distinct = true := by
  induction hv with
  | bool => rfl
  | int _ _ => rfl
  | string => rfl
  | nilPointer => rfl
  | pointer _ ih => exact ih
  | nilSlice => rfl
  | slice _ ih =>
    refine Json.distinctItems_iff.mpr fun j hj => ?_
    obtain ⟨v, hv, rfl⟩ := mem_marshalItems hj
    exact ih v hv
  | nilMap => rfl
  | map hes _ ih => exact distinct_members hes ih
  | @struct fs n hfs _ ih =>
    have hnodup : (fs.map Prod.fst).Nodup := hfs ▸ E.distinct n
    refine distinct_members hnodup fun e he => ?_
    have hmem : e.1 ∈ (E.fields n).map Prod.fst := hfs ▸ mem_map_of_mem he
    obtain ⟨t, ht⟩ := Option.ne_none_iff_exists'.mp (mem_names_iff.mp hmem)
    exact ih e.1 e.2 t (lookup_of_mem hnodup he) ht

end Distinct

end Skit.Lib.GoJson
