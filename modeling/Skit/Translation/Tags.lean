import Mathlib.Data.Fintype.Card
import Mathlib.Data.List.DropRight
import Skit.Basic
import Skit.Lib.Loop
import Skit.Lib.Reflect

/-!
# Translate tags

`walkTags` goes through the fields of a struct type and through the untagged structs inside it,
and describes each field with a `translate` tag: the path to it, its column and its options.
-/
namespace Skit.Translation
open Lib.Reflect List Option

section Tag

def errInvalidTag : Err := .sentinel "invalid translate tag"

def errNoPrimaryKey : Err :=
  .sentinel "no primary key field found with translate:\"primary\" tag"

def errMultiplePrimaryKeys : Err := .sentinel "multiple primary key fields found"

/-- `fmt.Errorf` with an error as its first operand. -/
def invalidTag (msg : String) : Err := .wrap (errInvalidTag.error ++ ": " ++ msg) errInvalidTag

/-- The verb `%q`, for texts of printable characters. -/
def quoted (s : String) : String :=
  let escaped := s.toList.flatMap fun c => if c = '"' ∨ c = '\\' then ['\\', c] else [c]
  String.ofList (['"'] ++ escaped ++ ['"'])

/-- `unicode.IsSpace`. -/
def isSpace (c : Char) : Bool :=
  let n := c.toNat
  (9 ≤ n && n ≤ 13) || n = 0x20 || n = 0x85 || n = 0xA0 || n = 0x1680 ||
    (0x2000 ≤ n && n ≤ 0x200A) || n = 0x2028 || n = 0x2029 || n = 0x202F || n = 0x205F ||
    n = 0x3000

/-- `strings.TrimSpace`. -/
def trimSpace (cs : List Char) : List Char := (cs.dropWhile isSpace).rdropWhile isSpace

/-- `strings.Cut` at the first comma; nothing behind it is an empty text. -/
def cutComma (cs : List Char) : List Char × List Char :=
  (cs.takeWhile (· ≠ ','), (cs.dropWhile (· ≠ ',')).tail)

/-- The loop over the options of a tag. An empty option is tolerated, so it does not matter that
the loop ends before the empty text behind a last comma. -/
def parseOptions (tag : String) : List (List Char) → Bool → Except Err Bool
  | [], omitCheck => .ok omitCheck
  | opt :: opts, omitCheck =>
    let name := String.ofList (trimSpace opt)
    if name = "omitcheck" then parseOptions tag opts true
    else if name = "" then parseOptions tag opts omitCheck
    else .error (invalidTag ("unknown option " ++ quoted name ++ " in " ++ quoted tag))

def parseTranslateTag (tag : String) : Except Err (String × Bool) := do
  let (name, opts) := cutComma tag.toList
  let name := trimSpace name
  let opts := trimSpace opts
  if name = [] ∧ opts ≠ [] then
    throw (invalidTag (quoted tag ++ " has options but no column name"))
  let omitCheck ← parseOptions tag (opts.splitOn ',') false
  return (String.ofList name, omitCheck)

theorem parseTranslateTag_last {tag name : String} {omitCheck : Bool}
    (h : parseTranslateTag tag = .ok (name, omitCheck)) : name.toList.getLast? ≠ some ' ' := by
  unfold parseTranslateTag at h
  simp only [bind, Except.bind, throw, throwThe, MonadExceptOf.throw, pure, Except.pure] at h
  split at h
  · cases h
  · split at h
    · cases h
    · cases h
      rw [String.toList_ofList, trimSpace]
      intro hlast
      have hne := ne_nil_of_mem (mem_of_getLast? hlast)
      rw [getLast?_eq_some_getLast hne] at hlast
      refine rdropWhile_last_not _ _ hne ?_
      rw [Option.some.inj hlast]
      decide

end Tag

section Walk

variable {N : Type}

/-- The description of one tagged field of a type. -/
structure FieldSchema where
  path : List String
  columnName : String
  isPrimary : Bool := false
  optional : Bool := false
  deriving DecidableEq, Repr

/-- The dotted path. -/
def joinDots (path : List String) : String :=
  String.ofList (List.intercalate ['.'] (path.map String.toList))

def splitDots (name : String) : List String :=
  (name.toList.splitOn '.').map String.ofList

def FieldSchema.fieldName (fs : FieldSchema) : String := joinDots fs.path

/-- What the walk has collected. -/
structure Walk where
  fields : List FieldSchema := []
  primaryFound : Bool := false
  deriving DecidableEq, Repr

/-- The body of the loop over the fields of a struct type; `walk` is the recursive call. -/
def walkField (walk : GoType N → List String → Walk → Except Err Walk) (pre : List String)
    (w : Walk) (field : StructField N) : Except Err Walk :=
  match parseTranslateTag (field.tag "translate") with
  | .error err => .error (.wrap ("field " ++ field.name ++ ": " ++ err.error) err)
  | .ok (tagName, omitCheck) =>
    let ft := field.type.deref
    if tagName = "" then
      match ft with
      | .struct n => walk (.struct n) (pre ++ [field.name]) w
      | _ => .ok w
    else
      let path := pre ++ [field.name]
      if tagName = "primary" then
        if w.primaryFound then .error errMultiplePrimaryKeys
        else .ok ⟨w.fields ++ [{ path, columnName := "primary", isPrimary := true }], true⟩
      else
        match ft with
        | .string _ =>
          .ok { w with
            fields := w.fields ++ [{ path, columnName := tagName, optional := omitCheck }] }
        | _ =>
          .error (invalidTag ("field " ++ joinDots path ++ " must be a string, got " ++ ft.kind))

variable [DecidableEq N]

/-- The types that are being visited lie on the way to the one at hand, so the depth of the
recursion is bounded by the number of types. -/
def walkTags (E : Types N) : Nat → List N → GoType N → List String → Walk → Except Err Walk
  | 0, _, _, _, w => .ok w
  | depth + 1, visited, t, pre, w =>
    match t.deref with
    | .struct n =>
      if n ∈ visited then .ok w
      else (E.fields n).foldlM (walkField (walkTags E depth (n :: visited)) pre) w
    | _ => .ok w

def schemaForType [Fintype N] (E : Types N) (n : N) : Except Err (List FieldSchema) := do
  let w ← walkTags E (Fintype.card N + 1) [] (.struct n) [] {}
  if w.primaryFound then return w.fields else throw errNoPrimaryKey

/-- The walk is not cut short: with one more level of recursion than there are types that are
not being visited, more levels change nothing. -/
theorem walkTags_succ [Fintype N] (E : Types N) {depth : Nat} {visited : List N}
    (hv : visited.Nodup) (hd : Fintype.card N < depth + visited.length) (t : GoType N)
    (pre : List String) (w : Walk) :
    walkTags E (depth + 1) visited t pre w = walkTags E depth visited t pre w := by
  induction depth generalizing visited t pre w with
  | zero =>
    have := hv.length_le_card
    omega
  | succ depth ih =>
    rw [walkTags, walkTags]
    split
    · next n _ =>
      split
      · rfl
      · next hn =>
        have hv' : (n :: visited).Nodup := nodup_cons.mpr ⟨hn, hv⟩
        have hd' : Fintype.card N < depth + (n :: visited).length := by
          rw [length_cons]
          omega
        have hrec : walkTags E (depth + 1) (n :: visited) = walkTags E depth (n :: visited) := by
          funext t pre w
          exact ih hv' hd' t pre w
        rw [hrec]
    · rfl

end Walk

section Schema

variable {N : Type} {E : Types N} {gs : List (StructField N)} {t : GoType N} {pre : List String}
  {schema : List FieldSchema} {fs : FieldSchema}

/-- The fields of a way into a struct type, through structs and pointers to structs. -/
inductive Along (E : Types N) : GoType N → List (StructField N) → Prop
  | last {t : GoType N} {n : N} {f : StructField N} :
      t.deref = .struct n → f ∈ E.fields n → Along E t [f]
  | cons {t : GoType N} {n : N} {g : StructField N} {gs : List (StructField N)} :
      t.deref = .struct n → g ∈ E.fields n → Along E g.type gs → Along E t (g :: gs)

theorem Along.of_deref {t u : GoType N}
    (h : Along E t gs) (htu : t.deref = u.deref) : Along E u gs := by
  cases h with
  | last ht hf => exact .last (htu ▸ ht) hf
  | cons ht hg hgs => exact .cons (htu ▸ ht) hg hgs

theorem Along.ne_nil (h : Along E t gs) : gs ≠ [] := by
  cases h <;> simp

theorem Along.noDot (h : Along E t gs) : ∀ g ∈ gs, '.' ∉ g.name.toList := by
  induction h with
  | last _ hf =>
    intro g hg
    rw [mem_singleton.mp hg]
    exact E.noDot _ _ hf
  | cons _ hg _ ih =>
    intro g hm
    rcases mem_cons.mp hm with rfl | hm
    · exact E.noDot _ _ hg
    · exact ih g hm

/-- Where names lead through fields that are not blank, they lead through the fields of the
walk. -/
theorem Along.eq_fieldsAlong {gs gs' : List (StructField N)}
    (h : Along E t gs) (hgs : E.fieldsAlong t (gs.map (·.name)) = some gs')
    (hp : ∀ g ∈ gs', g.passable = true) : gs = gs' := by
  induction h generalizing gs' with
  | last ht hf =>
    simp only [map_cons, map_nil, Types.fieldsAlong, map_some,
      bind_eq_some_iff, Option.some.injEq] at hgs
    obtain ⟨g, hg, rfl⟩ := hgs
    obtain ⟨hm, hname⟩ := Types.fieldOf_spec ht hg
    rw [Types.field_unique hf hm hname.symm (hp g mem_cons_self)]
  | cons ht hf _ ih =>
    simp only [map_cons, Types.fieldsAlong, bind_eq_some_iff,
      map_eq_some_iff] at hgs
    obtain ⟨g, hg, gs₁, hgs₁, rfl⟩ := hgs
    obtain ⟨hm, hname⟩ := Types.fieldOf_spec ht hg
    obtain rfl := Types.field_unique hf hm hname.symm (hp g mem_cons_self)
    rw [ih hgs₁ fun g hg => hp g (mem_cons_of_mem _ hg)]

theorem splitDots_joinDots {path : List String} (hne : path ≠ [])
    (hdot : ∀ name ∈ path, '.' ∉ name.toList) : splitDots (joinDots path) = path := by
  have hsplit : List.splitOn '.' (List.intercalate ['.'] (path.map String.toList)) =
      path.map String.toList := by
    refine splitOn_intercalate '.' ?_ (by simpa using hne)
    simpa using hdot
  simp [splitDots, joinDots, hsplit]

/-- The description is that of the tag of the field. -/
structure Describes (leaf : StructField N) (fs : FieldSchema) : Prop where
  tag : ∃ omitCheck, parseTranslateTag (leaf.tag "translate") = .ok (fs.columnName, omitCheck) ∧
    (fs.isPrimary = false → fs.optional = omitCheck)
  primary : fs.isPrimary = true ↔ fs.columnName = "primary"

theorem walkField_spec {walk : GoType N → List String → Walk → Except Err Walk} {w w' : Walk}
    {field : StructField N}
    (h : walkField walk pre w field = .ok w') :
    (∃ n, field.type.deref = .struct n ∧
        walk (.struct n) (pre ++ [field.name]) w = .ok w') ∨
      w' = w ∨
      ∃ fs, w'.fields = w.fields ++ [fs] ∧ fs.path = pre ++ [field.name] ∧
        Describes field fs := by
  unfold walkField at h
  split at h
  · cases h
  · next tagName omitCheck htag =>
    dsimp only at h
    split at h
    · split at h
      · next n hn => exact .inl ⟨n, hn, h⟩
      · cases h
        exact .inr (.inl rfl)
    · split at h
      · next hprim =>
        split at h
        · cases h
        · cases h
          refine .inr (.inr ⟨_, rfl, rfl, ⟨omitCheck, ?_, ?_⟩, ?_⟩)
          · rw [htag, hprim]
          · simp
          · simp
      · next hprim =>
        split at h
        · cases h
          refine .inr (.inr ⟨_, rfl, rfl, ⟨omitCheck, htag, fun _ => rfl⟩, ?_⟩)
          simpa using hprim
        · cases h

variable [DecidableEq N]

/-- Every description of the walk is that of a field it has come to. -/
theorem walkTags_spec {depth : Nat} {visited : List N} {w w' : Walk}
    (h : walkTags E depth visited t pre w = .ok w') :
    ∀ fs ∈ w'.fields, fs ∈ w.fields ∨ ∃ gs leaf, Along E t (gs ++ [leaf]) ∧
      fs.path = pre ++ (gs ++ [leaf]).map (·.name) ∧ Describes leaf fs := by
  induction depth generalizing visited t pre w w' with
  | zero =>
    cases h
    exact fun fs hfs => .inl hfs
  | succ depth ih =>
    rw [walkTags] at h
    split at h
    · next n ht =>
      split at h
      · cases h
        exact fun fs hfs => .inl hfs
      · refine Lib.foldlM_invariant (fun w₁ => ∀ fs ∈ w₁.fields, fs ∈ w.fields ∨
          ∃ gs leaf, Along E t (gs ++ [leaf]) ∧
            fs.path = pre ++ (gs ++ [leaf]).map (·.name) ∧ Describes leaf fs)
          ?_ (fun fs hfs => .inl hfs) h
        intro f hf w₁ w₂ hw₁ hround fs hfs
        obtain ⟨m, hm, hrec⟩ | rfl | ⟨fs', hw₂, hpath, hdesc⟩ := walkField_spec hround
        · rcases ih hrec fs hfs with hold | ⟨gs, leaf, halong, hpath, hdesc⟩
          · exact hw₁ fs hold
          · refine .inr ⟨f :: gs, leaf, .cons ht hf (halong.of_deref hm.symm), ?_, hdesc⟩
            simpa using hpath
        · exact hw₁ fs hfs
        · rw [hw₂] at hfs
          rcases mem_append.mp hfs with hold | hnew
          · exact hw₁ fs hold
          · rw [mem_singleton.mp hnew]
            exact .inr ⟨[], f, .last ht hf, hpath, hdesc⟩
    · cases h
      exact fun fs hfs => .inl hfs

theorem schemaForType_spec [Fintype N] {n : N}
    (h : schemaForType E n = .ok schema) (hfs : fs ∈ schema) :
    ∃ gs leaf, Along E (.struct n) (gs ++ [leaf]) ∧
      fs.path = (gs ++ [leaf]).map (·.name) ∧ Describes leaf fs := by
  unfold schemaForType at h
  cases hw : walkTags E (Fintype.card N + 1) [] (.struct n) [] {} with
  | error e =>
    rw [hw] at h
    cases h
  | ok w =>
    rw [hw] at h
    change (if w.primaryFound then _ else _) = _ at h
    split at h
    · cases h
      rcases walkTags_spec hw fs hfs with hold | hnew
      · cases hold
      · simpa using hnew
    · cases h

theorem splitDots_fieldName [Fintype N] {n : N}
    (h : schemaForType E n = .ok schema) (hfs : fs ∈ schema) :
    splitDots fs.fieldName = fs.path := by
  obtain ⟨gs, leaf, halong, hpath, -⟩ := schemaForType_spec h hfs
  refine splitDots_joinDots ?_ ?_
  · simp [hpath]
  · rw [hpath]
    intro name hname
    obtain ⟨g, hg, rfl⟩ := mem_map.mp hname
    exact halong.noDot g hg

end Schema

end Skit.Translation
