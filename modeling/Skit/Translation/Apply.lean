import Skit.Translation.Fields

/-!
# Applying translations

`applyTranslations` sets the fields of a model for whose columns there is a translation. For a
type whose translatable fields are exported strings it sets them all, and nothing else. Fields
that share a place, through pointers to one struct, have one tag and get one text.
-/
namespace Skit.Translation
open Lib.Reflect List Translatable

variable {N B : Type} [DecidableEq N] {E : Types N}

section Places

variable [Fintype N] {n : N} {schema : List FieldSchema} {h : Heap E B} {l : Loc B}
  {fs fs' : FieldSchema} {r r' : Ref B}

/-- The type is accepted, and its translatable fields are exported fields of type string. -/
structure Plain (E : Types N) (n : N) (schema : List FieldSchema) : Prop where
  accepted : schemaForType E n = .ok schema
  exported : ∀ fs ∈ schema, fs.isPrimary = false → ∃ gs leaf,
    E.fieldsAlong (.struct n) fs.path = some (gs ++ [leaf]) ∧ (∀ g ∈ gs, g.passable = true) ∧
      leaf.exported = true ∧ leaf.type = .string none

/-- A field that can be set lies in a struct whose field has the tag. -/
theorem exists_described (hs : schemaForType E n = .ok schema)
    (hl : h.typeOf l = some (.struct n)) (hfs : fs ∈ schema)
    (hr : valueByPath h (pointer l).ref fs.path = some r) (hcan : r.canSet = true) :
    ∃ c m vs i leaf, r.loc = c.child i ∧ h.read c = some (.struct m vs) ∧
      (E.fields m)[i]? = some leaf ∧ Describes leaf fs := by
  obtain ⟨gs, leaf, halong, hpath, hdesc⟩ := schemaForType_spec hs hfs
  have hne : fs.path ≠ [] := by simp [hpath]
  obtain ⟨gs₁, leaf₁, hgs₁, harr⟩ := enterAll_spec (r := (pointer l).ref) hl hne hr
  simp only [Ref.canSet, Bool.and_eq_true, decide_eq_true_eq] at hcan
  obtain ⟨-, hpass, hexp⟩ := Access.foldl_through_eq_free.mp (harr.access.symm.trans hcan.2)
  have hsame : gs ++ [leaf] = gs₁ ++ [leaf₁] := by
    refine halong.eq_fieldsAlong (hpath ▸ hgs₁) fun g hg => ?_
    rcases mem_append.mp hg with hg | hg
    · exact hpass g hg
    · rw [mem_singleton.mp hg]
      simp [StructField.passable, hexp]
  obtain ⟨-, hleaf⟩ := append_inj' hsame rfl
  obtain rfl : leaf = leaf₁ := by simpa using hleaf
  obtain ⟨c, m, vs, i, hloc, hread, hi⟩ := harr.place
  exact ⟨c, m, vs, i, leaf, hloc, hread, hi, hdesc⟩

/-- Two fields at one place have one tag. -/
theorem column_eq_of_place (hs : schemaForType E n = .ok schema)
    (hl : h.typeOf l = some (.struct n)) (hfs : fs ∈ schema) (hfs' : fs' ∈ schema)
    (hr : valueByPath h (pointer l).ref fs.path = some r)
    (hr' : valueByPath h (pointer l).ref fs'.path = some r')
    (hcan : r.canSet = true) (hcan' : r'.canSet = true) (hloc : r.loc = r'.loc) :
    fs.columnName = fs'.columnName := by
  obtain ⟨c, m, vs, i, leaf, hc, hread, hi, hdesc⟩ := exists_described hs hl hfs hr hcan
  obtain ⟨c', m', vs', i', leaf', hc', hread', hi', hdesc'⟩ :=
    exists_described hs hl hfs' hr' hcan'
  rw [hloc, hc'] at hc
  obtain ⟨b, p⟩ := c
  obtain ⟨b', p'⟩ := c'
  simp only [Loc.child, Loc.mk.injEq] at hc
  obtain ⟨rfl, hpp⟩ := hc
  obtain ⟨rfl, hii⟩ := append_inj' hpp rfl
  cases hii
  rw [hread] at hread'
  cases hread'
  rw [hi] at hi'
  cases hi'
  obtain ⟨o, htag, -⟩ := hdesc.tag
  obtain ⟨o', htag', -⟩ := hdesc'.tag
  exact (Prod.mk.inj (Except.ok.inj (htag.symm.trans htag'))).1

variable (hp : Plain E n schema) (hl : h.typeOf l = some (.struct n))

include hp hl

theorem Plain.parse : parseTranslateTags h (.pointer l) =
    .ok (schema.filterMap (fieldInfo h (pointer l).ref)) := by
  rw [parseTranslateTags_eq hl, hp.accepted]
  rfl

theorem Plain.place (hfs : fs ∈ schema) (hprim : fs.isPrimary = false)
    (hr : valueByPath h (pointer l).ref fs.path = some r) :
    r.canSet = true ∧ ∃ a, h.read r.loc = some (.string none a) := by
  obtain ⟨gs, leaf, hgs, hpass, hexp, htype⟩ := hp.exported fs hfs hprim
  have hne : fs.path ≠ [] := by
    rintro hnil
    rw [hnil] at hgs
    simp [Types.fieldsAlong] at hgs
  obtain ⟨gs₁, leaf₁, hgs₁, harr⟩ := enterAll_spec (r := (pointer l).ref) hl hne hr
  obtain ⟨rfl, hleaf⟩ := append_inj' (Option.some.inj (hgs₁.symm.trans hgs)) rfl
  obtain rfl : leaf₁ = leaf := by simpa using hleaf
  have hfree : r.access = .free := by
    rw [harr.access]
    exact Access.foldl_through_eq_free.mpr ⟨by simp [ref], hpass, hexp⟩
  refine ⟨?_, h.read_string (harr.typeOf.trans (congrArg some htype))⟩
  simp [Ref.canSet, hfree, harr.addressable rfl]

theorem Plain.same_column (hfs : fs ∈ schema) (hprim : fs.isPrimary = false)
    (hfs' : fs' ∈ schema) (hprim' : fs'.isPrimary = false)
    (hr : valueByPath h (pointer l).ref fs.path = some r)
    (hr' : valueByPath h (pointer l).ref fs'.path = some r')
    (hloc : r.loc = r'.loc) : fs.columnName = fs'.columnName := by
  obtain ⟨hcan, -⟩ := hp.place hl hfs hprim hr
  obtain ⟨hcan', -⟩ := hp.place hl hfs' hprim' hr'
  exact column_eq_of_place hp.accepted hl hfs hfs' hr hr' hcan hcan' hloc

end Places

section Apply

/-- The translations have a text for the field. -/
structure Gets (translations : String → Option String) (columnName : String)
    (isPrimary optional : Bool) (value : String) : Prop where
  translatable : isPrimary = false
  found : translations columnName = some value
  meant : ¬ (optional = true ∧ value = "")

variable {h g : Heap E B} {l : Loc B} {n : N} {schema : List FieldSchema}
  {translations : String → Option String} {info : FieldInfo} {value : String}
  {model : Translatable B} {done : List FieldInfo} {fs : FieldSchema}

/-- The text that the translations have for the field at a place. -/
def Assigned (h : Heap E B) (l : Loc B) (schema : List FieldSchema)
    (translations : String → Option String) (q : Loc B) (value : String) : Prop :=
  ∃ fs ∈ schema, Gets translations fs.columnName fs.isPrimary fs.optional value ∧
    ∃ r, valueByPath h (pointer l).ref fs.path = some r ∧ r.loc = q

theorem Assigned.unique [Fintype N] (hp : Plain E n schema)
    (hl : h.typeOf l = some (.struct n)) {q : Loc B} {value' : String}
    (hv : Assigned h l schema translations q value)
    (hv' : Assigned h l schema translations q value') : value = value' := by
  obtain ⟨fs, hfs, hg, r, hr, rfl⟩ := hv
  obtain ⟨fs', hfs', hg', r', hr', hloc⟩ := hv'
  have hcol := hp.same_column hl hfs hg.translatable hfs' hg'.translatable hr hr' hloc.symm
  have := hg.found
  rw [hcol, hg'.found] at this
  exact (Option.some.inj this).symm

/-- Every field that has a translation holds it in `g`, every other string is as it was, and the
fields are where they were. -/
structure Translates (h : Heap E B) (l : Loc B) (schema : List FieldSchema)
    (translations : String → Option String) (g : Heap E B) : Prop where
  paths : ∀ path r, valueByPath h (pointer l).ref path = some r →
    valueByPath g (pointer l).ref path = some r
  set : ∀ q value, Assigned h l schema translations q value →
    g.read q = some (.string none value)
  kept : ∀ q k a, h.read q = some (.string k a) →
    (∀ value, ¬ Assigned h l schema translations q value) → g.read q = some (.string k a)

theorem Translates.refl (hno : ∀ c, translations c = none) :
    Translates h l schema translations h := by
  refine ⟨fun _ _ hr => hr, ?_, fun q k a hq _ => hq⟩
  rintro q value ⟨fs, -, hg, -⟩
  have := hg.found
  rw [hno] at this
  cases this

variable [DecidableEq B]

def applyFieldFrom (copied : Heap E B) (model : Translatable B)
    (translations : String → Option String) (h : Heap E B) (field : FieldInfo) :
    Except Err (Heap E B) :=
  if field.isPrimary then .ok h
  else
    match translations field.columnName with
    | none => .ok h
    | some value =>
      if field.optional && value = "" then .ok h
      else
        match setFieldValueFrom copied h model field.fieldName value with
        | .ok h' => .ok h'
        | .error err =>
          .error (.wrap ("failed to set field " ++ field.fieldName ++ ": " ++ err.error) err)

abbrev applyField (model : Translatable B) (translations : String → Option String)
    (h : Heap E B) := applyFieldFrom h model translations h

def applyTranslations (h : Heap E B) (model : Translatable B) (fields : List FieldInfo)
    (translations : String → Option String) : Except Err (Heap E B) :=
  fields.foldlM (applyField model translations) h

theorem applyField_eq_of_gets {h' : Heap E B}
    (hg : Gets translations info.columnName info.isPrimary info.optional value)
    (hset : setFieldValue h model info.fieldName value = .ok h') :
    applyField model translations h info = .ok h' := by
  have hm : ¬ (info.optional && value = "") = true := by simpa using hg.meant
  simp [applyFieldFrom, hg.translatable, hg.found, hm, hset]

theorem applyField_eq_of_not_gets
    (hg : ∀ value, ¬ Gets translations info.columnName info.isPrimary info.optional value) :
    applyField model translations h info = .ok h := by
  unfold applyField applyFieldFrom
  split
  · rfl
  · next hprim =>
    split
    · rfl
    · next value hv =>
      split
      · rfl
      · next hm => exact absurd ⟨by simpa using hprim, hv, by simpa using hm⟩ (hg value)

/-- What holds of the heap `g` when the fields `done` have been applied. -/
structure Applied (h : Heap E B) (l : Loc B) (schema : List FieldSchema)
    (translations : String → Option String) (done : List FieldInfo) (g : Heap E B) : Prop where
  types : ∀ q, g.typeOf q = h.typeOf q
  paths : ∀ path r, valueByPath h (pointer l).ref path = some r →
    valueByPath g (pointer l).ref path = some r
  strings : ∀ q k a, h.read q = some (.string k a) →
    ∃ a', g.read q = some (.string k a') ∧ (a' = a ∨ Assigned h l schema translations q a')
  set : ∀ fs ∈ schema, ∀ info ∈ done, fieldInfo h (pointer l).ref fs = some info →
    ∀ value r, Gets translations fs.columnName fs.isPrimary fs.optional value →
    valueByPath h (pointer l).ref fs.path = some r →
    g.read r.loc = some (.string none value)

variable [Fintype N] (hp : Plain E n schema) (hl : h.typeOf l = some (.struct n))
  (hne : ∀ q value, Assigned h l schema translations q value → value ≠ "")

include hp hl

omit [DecidableEq B] in
theorem mem_or_eq_of_mem_append {fs fs' : FieldSchema} {info' : FieldInfo}
    (hfs : fs ∈ schema) (hfs' : fs' ∈ schema)
    (hi : fieldInfo h (pointer l).ref fs = some info)
    (hi' : fieldInfo h (pointer l).ref fs' = some info')
    (hmem : info' ∈ done ++ [info]) : info' ∈ done ∨ fs = fs' := by
  refine (mem_append.mp hmem).imp_right fun hnew => ?_
  rw [mem_singleton.mp hnew] at hi'
  exact fieldInfo_injective hl hp.accepted hfs hfs' hi hi'

include hne

/-- A field that gets a text is set, and the ones set before keep theirs. -/
theorem Applied.setString (hd : Applied h l schema translations done g) {r : Ref B}
    (hfs : fs ∈ schema)
    (hg : Gets translations fs.columnName fs.isPrimary fs.optional value)
    (hr : valueByPath h (pointer l).ref fs.path = some r)
    (hi : fieldInfo h (pointer l).ref fs = some info) :
    Applied h l schema translations (done ++ [info]) (g.setString r.loc value) := by
  have hassign : Assigned h l schema translations r.loc value := ⟨fs, hfs, hg, r, hr, rfl⟩
  obtain ⟨-, a, hread⟩ := hp.place hl hfs hg.translatable hr
  obtain ⟨a', hread', -⟩ := hd.strings _ _ _ hread
  have hself := g.read_setString_self value hread'
  refine ⟨fun q => hd.types q, ?_, ?_, ?_⟩
  · exact fun path r' hr' => enterAll_setString (hne _ _ hassign) (hd.paths path r' hr')
  · intro q k b hq
    obtain ⟨b', hq', hb'⟩ := hd.strings q k b hq
    by_cases hqr : q = r.loc
    · subst hqr
      rw [hread] at hq
      cases hq
      exact ⟨value, hself, .inr hassign⟩
    · exact ⟨b', g.read_setString_of_ne value hq' hqr, hb'⟩
  · intro fs' hfs' info' hinfo' hi' value' r' hg' hr'
    have hassign' : Assigned h l schema translations r'.loc value' :=
      ⟨fs', hfs', hg', r', hr', rfl⟩
    by_cases hloc : r'.loc = r.loc
    · rw [hloc] at hassign' ⊢
      rw [hassign'.unique hp hl hassign]
      exact hself
    · refine g.read_setString_of_ne value ?_ hloc
      obtain hold | rfl := mem_or_eq_of_mem_append hp hl hfs hfs' hi hi' hinfo'
      · exact hd.set fs' hfs' info' hold hi' value' r' hg' hr'
      · rw [hr] at hr'
        cases hr'
        exact absurd rfl hloc

theorem Applied.step (hd : Applied h l schema translations done g) (hfs : fs ∈ schema)
    (hi : fieldInfo h (pointer l).ref fs = some info) :
    ∃ g', applyField (.pointer l) translations g info = .ok g' ∧
      Applied h l schema translations (done ++ [info]) g' := by
  obtain ⟨r, hr, hinfo⟩ := fieldInfo_spec hl hp.accepted hfs hi
  by_cases hex : ∃ value, Gets translations fs.columnName fs.isPrimary fs.optional value
  · obtain ⟨value, hg⟩ := hex
    obtain ⟨hcan, a, hread⟩ := hp.place hl hfs hg.translatable hr
    obtain ⟨a', hread', -⟩ := hd.strings _ _ _ hread
    have hl' : g.typeOf l = some (.struct n) := (hd.types l).trans hl
    have hpath : valueByPath g (pointer l).ref (splitDots fs.fieldName) = some r := by
      rw [splitDots_fieldName hp.accepted hfs]
      exact hd.paths _ _ hr
    have hset : setFieldValue g (.pointer l) fs.fieldName value = .ok (g.setString r.loc value) :=
      (setFieldValue_eq_ok_iff (n := n) hl').mpr ⟨r, none, a', hpath, hcan, hread', rfl⟩
    have happly : applyField (.pointer l) translations g info =
        .ok (g.setString r.loc value) := by
      rw [hinfo]
      exact applyField_eq_of_gets hg hset
    exact ⟨_, happly, hd.setString hp hl hne hfs hg hr hi⟩
  · have hnone : ∀ value,
        ¬ Gets translations info.columnName info.isPrimary info.optional value := by
      rw [hinfo]
      exact fun value hg => hex ⟨value, hg⟩
    refine ⟨g, applyField_eq_of_not_gets hnone, hd.types, hd.paths, hd.strings, ?_⟩
    intro fs' hfs' info' hinfo' hi' value' r' hg' hr'
    obtain hold | rfl := mem_or_eq_of_mem_append hp hl hfs hfs' hi hi' hinfo'
    · exact hd.set fs' hfs' info' hold hi' value' r' hg' hr'
    · exact absurd ⟨value', hg'⟩ hex

theorem applyTranslations_spec : ∃ g, applyTranslations h (.pointer l)
      (schema.filterMap (fieldInfo h (pointer l).ref)) translations = .ok g ∧
    Translates h l schema translations g := by
  have hstart : Applied h l schema translations [] h :=
    ⟨fun _ => rfl, fun _ _ hr => hr, fun q k a hq => ⟨a, hq, .inl rfl⟩, by simp⟩
  obtain ⟨g, hg, hd⟩ := Lib.foldlM_done (Applied h l schema translations)
    (l := schema.filterMap (fieldInfo h (pointer l).ref))
    (fun done info hinfo g' hd' => by
      obtain ⟨fs, hfs, hi⟩ := mem_filterMap.mp hinfo
      exact hd'.step hp hl hne hfs hi) hstart
  refine ⟨g, hg, hd.paths, ?_, ?_⟩
  · rintro q value ⟨fs, hfs, hgets, r, hr, rfl⟩
    have hi : fieldInfo h _ fs = some _ := fieldInfo_eq hr
    exact hd.set fs hfs _ (mem_filterMap.mpr ⟨fs, hfs, hi⟩) hi value r hgets hr
  · intro q k a hq hno
    obtain ⟨a', ha', rfl | hassign⟩ := hd.strings q k a hq
    · exact ha'
    · exact absurd hassign (hno a')

end Apply

end Skit.Translation
