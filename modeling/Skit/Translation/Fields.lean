import Skit.Translation.Tags

/-!
# Reading and setting translatable fields

`parseTranslateTags` reads the fields of an instance and `setFieldValue` sets one, both along the
path that the walk over the type has found. The walk sees through pointers and does not ask
whether a field is exported; reading and setting do.

A model that was handed over as a copy keeps the fields that it had when the copy was made, while
what its pointers lead to goes on changing. Its fields are therefore looked up in two heaps: the
one the copy was made of and the present one.
-/
namespace Skit.Translation
open Lib.Reflect Option

variable {N B : Type} [DecidableEq N] {E : Types N}

section Paths

/-- The heap that a value lies in: without an address it is part of a copy. -/
def home (copied h : Heap E B) (r : Ref B) : Heap E B := if r.addressable then h else copied

/-- An iteration of the loop of `valueByPath`; `nested` tells it from the first one. -/
def enterFrom (copied h : Heap E B) (nested : Bool) (r : Ref B) (name : String) :
    Option (Ref B) :=
  ((home copied h r).deref r).bind fun cur =>
    match (home copied h cur).read cur.loc with
    | some (.struct n vs) =>
      if nested && (Value.struct n vs).isZero then none
      else (E.fieldByName n name).map fun (f, i) => cur.field f i
    | _ => none

def enterAllFrom (copied h : Heap E B) : Bool → Ref B → List String → Option (Ref B)
  | _, r, [] => some r
  | nested, r, name :: path =>
    (enterFrom copied h nested r name).bind fun r' => enterAllFrom copied h true r' path

def valueByPathFrom (copied h : Heap E B) (root : Ref B) (path : List String) : Option (Ref B) :=
  enterAllFrom copied h false root path

-- a model that is used at once

abbrev enter (h : Heap E B) := enterFrom h h

abbrev enterAll (h : Heap E B) := enterAllFrom h h

abbrev valueByPath (h : Heap E B) := valueByPathFrom h h

variable {copied h : Heap E B} {nested : Bool} {r r' : Ref B} {name : String}
  {path : List String} {t : GoType N}

theorem home_self : home h h r = h := ite_self h

theorem enterFrom_eq_some_iff : enterFrom copied h nested r name = some r' ↔
    ∃ cur n vs f i, (home copied h r).deref r = some cur ∧
      (home copied h cur).read cur.loc = some (.struct n vs) ∧
      (nested = true → (Value.struct n vs).isZero = false) ∧
      E.fieldByName n name = some (f, i) ∧ r' = cur.field f i := by
  constructor
  · intro hr
    obtain ⟨cur, hd, hr⟩ := bind_eq_some_iff.mp hr
    split at hr
    · next n vs hs =>
      split at hr
      · cases hr
      · next hz =>
        obtain ⟨⟨f, i⟩, hf, rfl⟩ := map_eq_some_iff.mp hr
        exact ⟨cur, n, vs, f, i, hd, hs, by simpa using hz, hf, rfl⟩
    · cases hr
  · rintro ⟨cur, n, vs, f, i, hd, hs, hz, hf, rfl⟩
    have hz' : ¬ (nested && (Value.struct n vs).isZero) = true := by simpa using hz
    simp only [enterFrom, hd, bind_some, hs, if_neg hz', hf, map_some]

theorem enter_eq_some_iff : enter h nested r name = some r' ↔
    ∃ cur n vs f i, h.deref r = some cur ∧ h.read cur.loc = some (.struct n vs) ∧
      (nested = true → (Value.struct n vs).isZero = false) ∧
      E.fieldByName n name = some (f, i) ∧ r' = cur.field f i := by
  simp only [enterFrom_eq_some_iff, home_self]

/-- A path has gone through the fields `gs` and has come to the field `leaf` of a struct. -/
structure Arrived (h : Heap E B) (r r' : Ref B) (gs : List (StructField N))
    (leaf : StructField N) : Prop where
  access : r'.access = (gs ++ [leaf]).foldl Access.through r.access
  addressable : r.addressable = true → r'.addressable = true
  typeOf : h.typeOf r'.loc = some leaf.type
  place : ∃ c n vs i, r'.loc = c.child i ∧ h.read c = some (.struct n vs) ∧
    (E.fields n)[i]? = some leaf

theorem enter_spec (ht : h.typeOf r.loc = some t) (hr : enter h nested r name = some r') :
    ∃ f, E.fieldOf t name = some f ∧ Arrived h r r' [] f := by
  obtain ⟨cur, n, vs, f, i, hd, hs, -, hf, rfl⟩ := enter_eq_some_iff.mp hr
  obtain ⟨htn, hcur⟩ := h.deref_struct ht hd hs
  obtain ⟨hi, -⟩ := Types.fieldByName_spec hf
  refine ⟨f, by simp [Types.fieldOf, htn, hf], ?_, ?_, h.typeOf_child hcur hi, ?_⟩
  · rw [← h.deref_access hd]
    rfl
  · intro hadd
    have hadd' := h.deref_addressable hd hadd
    exact hadd'
  · exact ⟨cur.loc, n, vs, i, rfl, hs, hi⟩

theorem enterAll_spec (ht : h.typeOf r.loc = some t) (hne : path ≠ [])
    (hr : enterAll h nested r path = some r') :
    ∃ gs leaf, E.fieldsAlong t path = some (gs ++ [leaf]) ∧ Arrived h r r' gs leaf := by
  induction path generalizing nested r t with
  | nil => exact absurd rfl hne
  | cons name path ih =>
    obtain ⟨r₁, hr₁, hr⟩ := bind_eq_some_iff.mp hr
    obtain ⟨f, hf, hent⟩ := enter_spec ht hr₁
    cases path with
    | nil =>
      cases hr
      exact ⟨[], f, by simp [Types.fieldsAlong, hf], hent⟩
    | cons name' path =>
      obtain ⟨gs, leaf, hgs, harr⟩ := ih hent.typeOf (by simp) hr
      refine ⟨f :: gs, leaf, ?_, ?_, ?_, harr.typeOf, harr.place⟩
      · rw [Types.fieldsAlong, hf, bind_some, hgs]
        rfl
      · rw [harr.access, hent.access]
        rfl
      · exact fun hadd => harr.addressable (hent.addressable hadd)

theorem enterAll_addressable (hadd : r.addressable = true)
    (hr : enterAll h nested r path = some r') : r'.addressable = true := by
  induction path generalizing nested r with
  | nil =>
    cases hr
    exact hadd
  | cons name path ih =>
    obtain ⟨r₁, hr₁, hr⟩ := bind_eq_some_iff.mp hr
    obtain ⟨cur, n, vs, f, i, hd, -, -, -, rfl⟩ := enter_eq_some_iff.mp hr₁
    have hadd' := h.deref_addressable hd hadd
    exact ih (r := cur.field f i) hadd' hr

theorem enterAll_congr {r₂ : Ref B} (hloc : r₂.loc = r.loc) (hacc : r₂.access = r.access)
    (hr : enterAll h nested r path = some r') :
    ∃ r₂', enterAll h nested r₂ path = some r₂' ∧ r₂'.loc = r'.loc ∧
      r₂'.access = r'.access := by
  induction path generalizing nested r r₂ with
  | nil =>
    cases hr
    exact ⟨r₂, rfl, hloc, hacc⟩
  | cons name path ih =>
    obtain ⟨r₁, hr₁, hr⟩ := bind_eq_some_iff.mp hr
    obtain ⟨cur, n, vs, f, i, hd, hread, hz, hf, rfl⟩ := enter_eq_some_iff.mp hr₁
    obtain ⟨cur', hd', hloc', hacc'⟩ := h.deref_congr hloc hacc hd
    have hfloc : (cur'.field f i).loc = (cur.field f i).loc := by simp [Ref.field, hloc']
    have hfacc : (cur'.field f i).access = (cur.field f i).access := by simp [Ref.field, hacc']
    obtain ⟨r₂', hr₂', hplace⟩ := ih hfloc hfacc hr
    have hent : enter h nested r₂ name = some (cur'.field f i) :=
      enter_eq_some_iff.mpr ⟨cur', n, vs, f, i, hd', hloc' ▸ hread, hz, hf, rfl⟩
    exact ⟨r₂', bind_eq_some_iff.mpr ⟨_, hent, hr₂'⟩, hplace⟩

variable [DecidableEq B]

theorem enter_setString {l : Loc B} {s : String} (hs : s ≠ "")
    (hr : enter h nested r name = some r') :
    enter (h.setString l s) nested r name = some r' := by
  obtain ⟨cur, n, vs, f, i, hd, hread, hz, hf, rfl⟩ := enter_eq_some_iff.mp hr
  obtain ⟨vs', hread', hz'⟩ := h.read_setString_struct (l := l) hs hread
  refine enter_eq_some_iff.mpr
    ⟨cur, n, vs', f, i, by rw [h.deref_setString, hd], hread', ?_, hf, rfl⟩
  intro hn
  by_contra hne
  rw [hz' (by simpa using hne)] at hz
  cases hz hn

theorem enterAll_setString {l : Loc B} {s : String} (hs : s ≠ "")
    (hr : enterAll h nested r path = some r') :
    enterAll (h.setString l s) nested r path = some r' := by
  induction path generalizing nested r with
  | nil => exact hr
  | cons name path ih =>
    obtain ⟨r₁, hr₁, hr⟩ := bind_eq_some_iff.mp hr
    exact bind_eq_some_iff.mpr ⟨r₁, enter_setString hs hr₁, ih hr⟩

end Paths

section Instances

/-- A model as the interface value `Translatable`: a pointer to it or a copy of it. -/
inductive Translatable (B : Type)
  | pointer (l : Loc B)
  | copy (l : Loc B)
  deriving DecidableEq, Repr

def Translatable.loc : Translatable B → Loc B
  | .pointer l => l
  | .copy l => l

/-- `reflect.ValueOf`, behind the pointer: only there the value has an address. -/
def Translatable.ref : Translatable B → Ref B
  | .pointer l => ⟨l, true, .free⟩
  | .copy l => ⟨l, false, .free⟩

@[simp]
theorem Translatable.ref_loc (m : Translatable B) : m.ref.loc = m.loc := by
  cases m <;> rfl

@[simp]
theorem Translatable.ref_access (m : Translatable B) : m.ref.access = .free := by
  cases m <;> rfl

open Translatable

/-- Passed by pointer or as a copy, a model has its fields at the same places. -/
theorem valueByPath_form {h : Heap E B} {m m' : Translatable B} {path : List String} {r : Ref B}
    (hm : m'.loc = m.loc) (hr : valueByPath h m.ref path = some r) :
    ∃ r', valueByPath h m'.ref path = some r' ∧ r'.loc = r.loc ∧ r'.access = r.access := by
  have hloc : m'.ref.loc = m.ref.loc := by rw [m'.ref_loc, m.ref_loc, hm]
  have hacc : m'.ref.access = m.ref.access := by rw [m'.ref_access, m.ref_access]
  exact enterAll_congr hloc hacc hr

structure FieldInfo where
  fieldName : String
  columnName : String
  isPrimary : Bool
  value : String
  optional : Bool
  deriving DecidableEq, Repr

/-- The verb `%v`. A struct or a slice can only be a primary key, whose text is not used. -/
def sprint (h : Heap E B) : Value N B → String
  | .string k s => E.format k s
  | .pointer none => "<nil>"
  | .pointer (some l) => "0x" ++ String.ofList (Nat.toDigits 16 (h.address l))
  | .struct _ _ => ""
  | .slice _ => ""
  | .other _ _ text => text

def infoValue (h : Heap E B) (fv : Ref B) : String :=
  if fv.canInterface then (h.read fv.loc).elim "" (sprint h) else ""

/-- The field as the instance has it. A nested field whose parent is absent is left out. -/
def fieldInfoFrom (copied h : Heap E B) (root : Ref B) (fs : FieldSchema) : Option FieldInfo :=
  let info value : FieldInfo := ⟨fs.fieldName, fs.columnName, fs.isPrimary, value, fs.optional⟩
  match valueByPathFrom copied h root fs.path with
  | some fv => some (info (infoValue (home copied h fv) fv))
  | none => if 1 < fs.path.length then none else some (info "")

abbrev fieldInfo (h : Heap E B) := fieldInfoFrom h h

/-- The struct type of a model. -/
def modelType (h : Heap E B) (model : Translatable B) : Except Err N :=
  match h.read model.loc with
  | some (.struct n _) => .ok n
  | some v => .error (.text ("model must be a struct, got " ++ v.kind))
  | none => .error (.text "model must be a struct, got invalid")

def parseTranslateTagsFrom [Fintype N] (copied h : Heap E B) (model : Translatable B) :
    Except Err (List FieldInfo) := do
  let n ← modelType (home copied h model.ref) model
  let schema ← schemaForType E n
  return schema.filterMap (fieldInfoFrom copied h model.ref)

abbrev parseTranslateTags [Fintype N] (h : Heap E B) := parseTranslateTagsFrom h h

def setFieldValueFrom [DecidableEq B] (copied h : Heap E B) (model : Translatable B)
    (fieldName value : String) : Except Err (Heap E B) := do
  let _ ← modelType (home copied h model.ref) model
  match valueByPathFrom copied h model.ref (splitDots fieldName) with
  | none => throw (.text ("field " ++ fieldName ++ " not found"))
  | some field =>
    if !field.canSet then throw (.text ("field " ++ fieldName ++ " cannot be set"))
    else
      match h.read field.loc with
      | some (.string _ _) => return h.setString field.loc value
      | v => throw (.text ("field " ++ fieldName ++ " must be a string, got " ++
          v.elim "invalid" Value.kind))

abbrev setFieldValue [DecidableEq B] (h : Heap E B) := setFieldValueFrom h h

variable {h : Heap E B} {l : Loc B} {n : N} {model : Translatable B} {fs : FieldSchema}
  {schema : List FieldSchema} {info : FieldInfo}

theorem modelType_eq (hl : h.typeOf model.loc = some (.struct n)) : modelType h model = .ok n := by
  obtain ⟨vs, hread⟩ := h.read_struct hl
  simp [modelType, hread]

theorem parseTranslateTags_eq [Fintype N] (hl : h.typeOf l = some (.struct n)) :
    parseTranslateTags h (.pointer l) =
      (schemaForType E n).map (·.filterMap (fieldInfo h (pointer l).ref)) := by
  have hn : modelType h (.pointer l) = .ok n := modelType_eq hl
  unfold parseTranslateTags parseTranslateTagsFrom
  rw [home_self, hn]
  change (schemaForType E n >>= _) = _
  cases schemaForType E n <;> rfl

theorem setFieldValue_eq_ok_iff [DecidableEq B]
    {fieldName value : String} {h' : Heap E B} (hl : h.typeOf model.loc = some (.struct n)) :
    setFieldValue h model fieldName value = .ok h' ↔
      ∃ r k a, valueByPath h model.ref (splitDots fieldName) = some r ∧
        r.canSet = true ∧ h.read r.loc = some (.string k a) ∧ h' = h.setString r.loc value := by
  unfold setFieldValue setFieldValueFrom valueByPath
  rw [home_self, modelType_eq hl]
  simp only [bind, Except.bind, throw, throwThe, MonadExceptOf.throw, pure, Except.pure]
  cases valueByPathFrom h h model.ref (splitDots fieldName) with
  | none => simp
  | some r =>
    by_cases hset : r.canSet = true
    · cases hread : h.read r.loc with
      | none => simp [hset, hread]
      | some v =>
        cases v with
        | string k a =>
          simp only [hset, hread, Bool.not_true, Bool.false_eq_true, if_false]
          constructor
          · intro h'
            cases h'
            exact ⟨r, k, a, rfl, hset, hread, rfl⟩
          · rintro ⟨_, _, _, hr, -, -, rfl⟩
            cases hr
            rfl
        | _ => simp [hset, hread]
    · simp [hset]

theorem exists_valueByPath_top (hl : h.typeOf l = some (.struct n)) {f : StructField N}
    (hf : f ∈ E.fields n) : ∃ r, valueByPath h (pointer l).ref [f.name] = some r := by
  obtain ⟨vs, hread⟩ := h.read_struct hl
  obtain ⟨g, i, hg⟩ := Types.exists_fieldByName hf
  have hd : h.deref (pointer l).ref = some (pointer l).ref := by
    simp [Heap.deref, Translatable.ref, hread]
  have hent : enter h false (pointer l).ref f.name = some _ :=
    enter_eq_some_iff.mpr ⟨_, n, vs, g, i, hd, hread, by simp, hg, rfl⟩
  exact ⟨_, bind_eq_some_iff.mpr ⟨_, hent, rfl⟩⟩

theorem fieldInfo_eq {root r : Ref B}
    (hr : valueByPath h root fs.path = some r) : fieldInfo h root fs =
      some ⟨fs.fieldName, fs.columnName, fs.isPrimary, infoValue h r, fs.optional⟩ := by
  simp [fieldInfoFrom, hr, home_self]

/-- The field of a report is one of the schema, and it was found. -/
theorem fieldInfo_spec [Fintype N] (hl : h.typeOf l = some (.struct n))
    (hs : schemaForType E n = .ok schema)
    (hfs : fs ∈ schema) (hi : fieldInfo h (pointer l).ref fs = some info) :
    ∃ fv, valueByPath h (pointer l).ref fs.path = some fv ∧
      info = ⟨fs.fieldName, fs.columnName, fs.isPrimary, infoValue h fv, fs.optional⟩ := by
  simp only [fieldInfoFrom, home_self] at hi
  split at hi
  · next fv hfv =>
    cases hi
    exact ⟨fv, hfv, rfl⟩
  · next hnone =>
    exfalso
    split at hi
    · cases hi
    · next hlen =>
      obtain ⟨gs, leaf, halong, hpath, -⟩ := schemaForType_spec hs hfs
      cases gs with
      | nil =>
        cases halong with
        | last ht hf =>
          cases ht
          obtain ⟨r, hr⟩ := exists_valueByPath_top hl hf
          rw [hpath] at hnone
          cases hr.symm.trans hnone
        | cons _ _ hnil => exact hnil.ne_nil rfl
      | cons g gs =>
        rw [hpath] at hlen
        simp at hlen

/-- A report tells the fields apart. -/
theorem fieldInfo_injective [Fintype N] {fs fs' : FieldSchema} (hl : h.typeOf l = some (.struct n))
    (hs : schemaForType E n = .ok schema)
    (hfs : fs ∈ schema) (hfs' : fs' ∈ schema)
    (hi : fieldInfo h (pointer l).ref fs = some info)
    (hi' : fieldInfo h (pointer l).ref fs' = some info) : fs = fs' := by
  obtain ⟨r, -, rfl⟩ := fieldInfo_spec hl hs hfs hi
  obtain ⟨r', -, heq⟩ := fieldInfo_spec hl hs hfs' hi'
  simp only [FieldInfo.mk.injEq] at heq
  obtain ⟨hname, hcol, hprim, -, hopt⟩ := heq
  have hpath : fs.path = fs'.path := by
    rw [← splitDots_fieldName hs hfs, ← splitDots_fieldName hs hfs', hname]
  cases fs
  cases fs'
  simp_all

end Instances

section Applicable

open Translatable

variable {h : Heap E B} {l : Loc B} {n : N}

/-- The text of the string field at a path, also of one behind a pointer. -/
def fieldText (h : Heap E B) (l : Loc B) (path : List String) : String :=
  let leaf := (valueByPath h (pointer l).ref path).bind h.deref
  match leaf.bind fun r => h.read r.loc with
  | some (.string _ s) => s
  | _ => ""

theorem fieldText_eq {path : List String} {r : Ref B} {k : Option N} {a : String}
    (hr : valueByPath h (pointer l).ref path = some r)
    (hread : h.read r.loc = some (.string k a)) : fieldText h l path = a := by
  simp [fieldText, hr, Heap.deref, hread]

theorem infoValue_eq {r : Ref B} {k : Option N} {a : String} (hacc : r.access = .free)
    (hread : h.read r.loc = some (.string k a)) : infoValue h r = E.format k a := by
  simp [infoValue, Ref.canInterface, hacc, hread, sprint]

variable [Fintype N] [DecidableEq B]

/-- The reported value is the text of the field, and any text can be set there and is then
reported. -/
def Applies (h : Heap E B) (l : Loc B) (info : FieldInfo) : Prop :=
  info.value = fieldText h l (splitDots info.fieldName) ∧
  ∀ s, s ≠ "" → ∃ h' infos, setFieldValue h (.pointer l) info.fieldName s = .ok h' ∧
    parseTranslateTags h' (.pointer l) = .ok infos ∧
    (∃ info' ∈ infos, info'.fieldName = info.fieldName) ∧
    ∀ info' ∈ infos, info'.fieldName = info.fieldName → info'.value = s

/-- The path goes through exported or embedded fields to an exported string that is no pointer,
and the type of the string prints the given text and every other text but the empty one as it
is. -/
def Settable (E : Types N) (n : N) (path : List String) (text : String) : Prop :=
  ∃ gs leaf k, E.fieldsAlong (.struct n) path = some (gs ++ [leaf]) ∧
    (∀ g ∈ gs, g.passable = true) ∧ leaf.exported = true ∧ leaf.type = .string k ∧
    ∀ s, s = text ∨ s ≠ "" → E.format k s = s

section Reported

variable {schema : List FieldSchema} {fs : FieldSchema} {r : Ref B} {k : Option N} {a : String}
  (hl : h.typeOf l = some (.struct n)) (hs : schemaForType E n = .ok schema) (hfs : fs ∈ schema)
  (hr : valueByPath h (pointer l).ref fs.path = some r)

include hl hs hfs hr

theorem reported_after_set (hacc : r.access = .free) (hread : h.read r.loc = some (.string k a))
    {s : String} (hne : s ≠ "") :
    ∃ infos, parseTranslateTags (h.setString r.loc s) (.pointer l) = .ok infos ∧
      (∃ info ∈ infos, info.fieldName = fs.fieldName) ∧
      ∀ info ∈ infos, info.fieldName = fs.fieldName → info.value = E.format k s := by
  have hl' : (h.setString r.loc s).typeOf l = some (.struct n) := hl
  have hr' := enterAll_setString (l := r.loc) hne hr
  have hread' := h.read_setString_self s hread
  refine ⟨_, by rw [parseTranslateTags_eq hl', hs]; rfl, ?_, ?_⟩
  · have hinfo : fieldInfo (h.setString r.loc s) _ fs = some _ := fieldInfo_eq hr'
    exact ⟨_, List.mem_filterMap.mpr ⟨fs, hfs, hinfo⟩, rfl⟩
  · intro info hinfo hname
    obtain ⟨fs', hfs', hi⟩ := List.mem_filterMap.mp hinfo
    obtain ⟨fv, hfv, rfl⟩ := fieldInfo_spec hl' hs hfs' hi
    have hpath : fs'.path = fs.path := by
      rw [← splitDots_fieldName hs hfs', ← splitDots_fieldName hs hfs]
      exact congrArg splitDots hname
    rw [hpath] at hfv
    obtain rfl := Option.some.inj (hr'.symm.trans hfv)
    exact infoValue_eq hacc hread'

variable {gs : List (StructField N)} {leaf : StructField N}
  (hgs : E.fieldsAlong (.struct n) fs.path = some (gs ++ [leaf]))
  (harr : Arrived h (pointer l).ref r gs leaf)

include hgs harr

theorem settable_of_applies (happ : Applies h l
    ⟨fs.fieldName, fs.columnName, fs.isPrimary, infoValue h r, fs.optional⟩) :
    Settable E n fs.path (fieldText h l fs.path) := by
  have hsplit := splitDots_fieldName hs hfs
  obtain ⟨hvalue, hset⟩ := happ
  obtain ⟨h', -, hok, -⟩ := hset "x" (by decide)
  obtain ⟨r', k, a, hr', hcan, hread, -⟩ := (setFieldValue_eq_ok_iff (n := n) hl).mp hok
  obtain rfl := Option.some.inj (hr.symm.trans (hsplit ▸ hr'))
  have hfree : r.access = .free := by
    simp only [Ref.canSet, Bool.and_eq_true, decide_eq_true_eq] at hcan
    exact hcan.2
  obtain ⟨-, hpass, hexp⟩ := Access.foldl_through_eq_free.mp (harr.access ▸ hfree)
  refine ⟨gs, leaf, k, hgs, hpass, hexp, h.typeOf_eq_string harr.typeOf hread, ?_⟩
  intro s hs'
  by_cases hempty : s = ""
  · -- the text at hand, which the report has shown
    have htext := hs'.resolve_right (not_not.mpr hempty)
    simp only [hsplit, fieldText_eq hr hread] at htext hvalue
    rw [htext]
    exact (infoValue_eq hfree hread).symm.trans hvalue
  · obtain ⟨h', infos, hok, hparse, ⟨info, hinfo, hname⟩, hall⟩ := hset s hempty
    obtain ⟨r', k', a', hr', -, -, rfl⟩ := (setFieldValue_eq_ok_iff (n := n) hl).mp hok
    obtain rfl := Option.some.inj (hr.symm.trans (hsplit ▸ hr'))
    obtain ⟨infos', hparse', -, hall'⟩ := reported_after_set hl hs hfs hr hfree hread hempty
    obtain rfl := Except.ok.inj (hparse.symm.trans hparse')
    rw [← hall' info hinfo hname, hall info hinfo hname]

theorem applies_of_settable (hset : Settable E n fs.path (fieldText h l fs.path)) :
    Applies h l ⟨fs.fieldName, fs.columnName, fs.isPrimary, infoValue h r, fs.optional⟩ := by
  have hsplit := splitDots_fieldName hs hfs
  obtain ⟨gs', leaf', k, hgs', hpass, hexp, htype, hprint⟩ := hset
  obtain ⟨rfl, hleaf⟩ := List.append_inj' (Option.some.inj (hgs.symm.trans hgs')) rfl
  cases hleaf
  have hfree : r.access = .free := by
    rw [harr.access]
    exact Access.foldl_through_eq_free.mpr ⟨by simp [Translatable.ref], hpass, hexp⟩
  have hcan : r.canSet = true := by simp [Ref.canSet, hfree, harr.addressable rfl]
  obtain ⟨a, hread⟩ := h.read_string (harr.typeOf.trans (congrArg some htype))
  rw [fieldText_eq hr hread] at hprint
  refine ⟨?_, ?_⟩
  · rw [hsplit, fieldText_eq hr hread]
    exact (infoValue_eq hfree hread).trans (hprint a (.inl rfl))
  · intro s hempty
    obtain ⟨infos, hparse, hex, hall⟩ := reported_after_set hl hs hfs hr hfree hread hempty
    refine ⟨_, infos, ?_, hparse, hex, ?_⟩
    · exact (setFieldValue_eq_ok_iff (n := n) hl).mpr ⟨r, k, a, hsplit ▸ hr, hcan, hread, rfl⟩
    · intro info hinfo hname
      exact (hall info hinfo hname).trans (hprint s (.inr hempty))

end Reported

/-- A reported field applies exactly when its path goes through exported or embedded fields to an
exported string that prints as itself; being accepted by the walk over the type is not enough. -/
theorem field_applies_iff_settable {infos : List FieldInfo} {info : FieldInfo}
    (hl : h.typeOf l = some (.struct n))
    (hp : parseTranslateTags h (.pointer l) = .ok infos) (hi : info ∈ infos) :
    Applies h l info ↔
      Settable E n (splitDots info.fieldName) (fieldText h l (splitDots info.fieldName)) := by
  rw [parseTranslateTags_eq hl] at hp
  cases hs : schemaForType E n with
  | error e =>
    rw [hs] at hp
    cases hp
  | ok schema =>
    rw [hs] at hp
    cases hp
    obtain ⟨fs, hfs, hi⟩ := List.mem_filterMap.mp hi
    obtain ⟨r, hr, rfl⟩ := fieldInfo_spec hl hs hfs hi
    have hne : fs.path ≠ [] := by
      obtain ⟨gs, leaf, -, hpath, -⟩ := schemaForType_spec hs hfs
      simp [hpath]
    obtain ⟨gs, leaf, hgs, harr⟩ := enterAll_spec (r := (pointer l).ref) hl hne hr
    rw [splitDots_fieldName hs hfs]
    exact ⟨settable_of_applies hl hs hfs hr hgs harr, applies_of_settable hl hs hfs hr hgs harr⟩

/-- A type with an identifier, a title and a summary behind a pointer. -/
def noteTypes : Types Unit where
  fields _ := [
    ⟨"ID", true, false, [("translate", "primary")], .string none⟩,
    ⟨"Title", true, false, [("translate", "title")], .string none⟩,
    ⟨"Summary", true, false, [("translate", "summary")], .pointer (.string none)⟩]

/-- A note in the variable `false`, with the variable `true` as its summary. -/
def note : Heap noteTypes Bool where
  type b := if b then .string none else .struct ()
  value b :=
    if b then .string none "short"
    else .struct () [.string none "1", .string none "A", .pointer (some ⟨true, []⟩)]
  address l := if l.base then 192 else 128
  typed := by decide

def noteFields : List FieldInfo := [
  ⟨"ID", "primary", true, "1", false⟩,
  ⟨"Title", "title", false, "A", false⟩,
  ⟨"Summary", "summary", false, "0xc0", false⟩]

theorem note_parse : parseTranslateTags note (.pointer ⟨false, []⟩) = .ok noteFields := by
  decide

theorem field_applies_iff_settable_note :
    Applies note ⟨false, []⟩ ⟨"Title", "title", false, "A", false⟩ ↔
      Settable noteTypes () ["Title"] "A" := by
  have happ : Applies note ⟨false, []⟩ ⟨"Title", "title", false, "A", false⟩ ↔
      Settable noteTypes () (splitDots "Title") (fieldText note ⟨false, []⟩ (splitDots "Title")) :=
    field_applies_iff_settable (by decide) note_parse (by decide)
  have hpath : splitDots "Title" = ["Title"] := by decide
  have htext : fieldText note ⟨false, []⟩ ["Title"] = "A" := by decide
  rwa [hpath, htext] at happ

/-- The summary is accepted and reported, with an address as its value, and cannot be set. -/
theorem accepted_pointer_does_not_apply :
    parseTranslateTags note (.pointer ⟨false, []⟩) = .ok noteFields ∧
    ⟨"Summary", "summary", false, "0xc0", false⟩ ∈ noteFields ∧
    (∀ s, setFieldValue note (.pointer ⟨false, []⟩) "Summary" s =
      .error (.text "field Summary must be a string, got ptr")) ∧
    ¬ Applies note ⟨false, []⟩ ⟨"Summary", "summary", false, "0xc0", false⟩ := by
  have hset : ∀ s, setFieldValue note (.pointer ⟨false, []⟩) "Summary" s =
      .error (.text "field Summary must be a string, got ptr") := fun s => rfl
  refine ⟨note_parse, by decide, hset, ?_⟩
  rintro ⟨-, happ⟩
  obtain ⟨h', -, hok, -⟩ := happ "x" (by decide)
  rw [hset] at hok
  cases hok

end Applicable

end Skit.Translation
