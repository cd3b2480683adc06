import Mathlib.Logic.Relation
import Skit.Translation.Translator

/-!
# Saving and reading back

What `Save` has stored of a model, `Get` and `Translate` set in every other instance of its type
with the same key, as long as no later save writes the rows of that key. The names in the rows
are those of the save only if they fit into their columns: spaces beyond the width of a column
are dropped, and the lookup does not drop them.
-/
namespace Skit.Translation
open Lib Reflect Translator List

section Columns

variable {fields : List FieldInfo} {columns : List (String × String)} {field : FieldInfo}

/-- A field that `Save` stores. -/
def FieldInfo.Supplied (field : FieldInfo) : Prop :=
  field.isPrimary = false ∧ ¬ (field.optional = true ∧ field.value = "")

theorem saveField_of_supplied (hf : field.Supplied) : saveField columns field =
      columns.filter (·.1 ≠ field.columnName) ++ [(field.columnName, field.value)] := by
  have hm : ¬ (field.optional && field.value = "") = true := by simpa using hf.2
  simp [saveField, hf.1, hm]

theorem saveField_of_not_supplied (hf : ¬ field.Supplied) : saveField columns field = columns := by
  unfold saveField
  split
  · rfl
  · next hprim =>
    split
    · rfl
    · next hm => exact absurd ⟨by simpa using hprim, by simpa using hm⟩ hf

/-- What the map of the columns holds after the fields `done`. -/
structure Collected (done : List FieldInfo) (columns : List (String × String)) : Prop where
  nodup : (columns.map Prod.fst).Nodup
  supplied : ∀ e ∈ columns, ∃ field ∈ done, field.Supplied ∧ e = (field.columnName, field.value)
  all : ∀ field ∈ done, field.Supplied → ∃ e ∈ columns, e.1 = field.columnName

theorem Collected.step {done : List FieldInfo} (hc : Collected done columns) (field : FieldInfo) :
    Collected (done ++ [field]) (saveField columns field) := by
  by_cases hf : field.Supplied
  · rw [saveField_of_supplied hf]
    refine ⟨?_, ?_, ?_⟩
    · rw [map_append, map_singleton, nodup_append]
      refine ⟨hc.nodup.sublist (filter_sublist.map _), nodup_singleton _, ?_⟩
      intro c hc' d hd
      obtain ⟨e, he, rfl⟩ := mem_map.mp hc'
      rw [mem_singleton.mp hd]
      simpa using (mem_filter.mp he).2
    · intro e he
      rcases mem_append.mp he with he | he
      · obtain ⟨f, hf', hsup, heq⟩ := hc.supplied e (mem_filter.mp he).1
        exact ⟨f, mem_append_left _ hf', hsup, heq⟩
      · exact ⟨field, by simp, hf, mem_singleton.mp he⟩
    · intro f hf' hsup
      by_cases hcol : f.columnName = field.columnName
      · exact ⟨_, mem_append_right _ mem_cons_self, hcol.symm⟩
      · rcases mem_append.mp hf' with hf' | hf'
        · obtain ⟨e, he, heq⟩ := hc.all f hf' hsup
          refine ⟨e, mem_append_left _ (mem_filter.mpr ⟨he, ?_⟩), heq⟩
          simpa [heq] using hcol
        · exact absurd (congrArg FieldInfo.columnName (mem_singleton.mp hf')) hcol
  · rw [saveField_of_not_supplied hf]
    refine ⟨hc.nodup, ?_, ?_⟩
    · intro e he
      obtain ⟨f, hf', hsup, heq⟩ := hc.supplied e he
      exact ⟨f, mem_append_left _ hf', hsup, heq⟩
    · intro f hf' hsup
      rcases mem_append.mp hf' with hf' | hf'
      · exact hc.all f hf' hsup
      · exact absurd (mem_singleton.mp hf' ▸ hsup) hf

theorem saveColumns_collected (fields : List FieldInfo) :
    Collected fields (saveColumns fields) := by
  have hloop : ∀ (rest done : List FieldInfo) (columns : List (String × String)),
      Collected done columns → Collected (done ++ rest) (rest.foldl saveField columns) := by
    intro rest
    induction rest with
    | nil => exact fun done columns hc => by simpa using hc
    | cons field rest ih =>
      intro done columns hc
      have := ih _ _ (hc.step field)
      simpa using this
  exact hloop fields [] [] ⟨nodup_nil, by simp, by simp⟩

end Columns

section Saves

variable {N B : Type} [DecidableEq N] [Fintype N] {E : Types N}
  {getKey : Heap E B → Translatable B → String × String} {tr : Translator} {lang : Language}
  {h : Heap E B} {model : Translatable B} {data : Data} {t t' : Table} {info : FieldInfo}

omit [Fintype N] in
theorem fieldInfo_loc (h : Heap E B) (model : Translatable B) (fs : FieldSchema) :
    fieldInfo h model.ref fs = fieldInfo h (Translatable.pointer model.loc).ref fs := by
  have hform : (Translatable.pointer model.loc).loc = model.loc := rfl
  cases hr : valueByPath h model.ref fs.path with
  | some r =>
    obtain ⟨r', hr', hloc', hacc'⟩ := valueByPath_form hform hr
    rw [fieldInfo_eq hr, fieldInfo_eq hr']
    simp [infoValue, Ref.canInterface, hloc', hacc']
  | none =>
    cases hr' : valueByPath h (Translatable.pointer model.loc).ref fs.path with
    | some r' =>
      obtain ⟨r, hsome, -⟩ := valueByPath_form hform.symm hr'
      rw [hsome] at hr
      cases hr
    | none => simp [fieldInfoFrom, hr, hr']

theorem parseTranslateTags_loc (h : Heap E B) (model : Translatable B) :
    parseTranslateTags h model = parseTranslateTags h (.pointer model.loc) := by
  have hinfo : fieldInfo h model.ref = fieldInfo h (Translatable.pointer model.loc).ref :=
    funext (fieldInfo_loc h model)
  simp only [parseTranslateTagsFrom, home_self, hinfo]
  rfl

theorem saveData_eq_ok (hs : tr.saveData getKey h lang model = .ok data) :
    (∃ s ∈ tr.supportedLangs, s.code = lang.code) ∧
      ∃ fields, parseTranslateTags h model = .ok fields ∧
        data = ⟨(getKey h model).1, (getKey h model).2, lang, saveColumns fields⟩ := by
  unfold Translator.saveData at hs
  split at hs
  · cases hs
  · next hval =>
    split at hs
    · cases hs
    · next fields hf =>
      split at hs
      · cases hs
      · cases hs
        exact ⟨Translator.validateLanguage_eq_ok_iff.mp hval, fields, hf, rfl⟩

omit [Fintype N] in
theorem fieldInfo_columnName {root : Ref B} {fs : FieldSchema}
    (hi : fieldInfo h root fs = some info) : info.columnName = fs.columnName := by
  unfold fieldInfo fieldInfoFrom at hi
  split at hi
  · cases hi
    rfl
  · split at hi
    · cases hi
    · cases hi
      rfl

theorem kept_of_reported {fields : List FieldInfo}
    (hf : parseTranslateTags h model = .ok fields) (hi : info ∈ fields) :
    Kept 100 info.columnName := by
  unfold parseTranslateTags parseTranslateTagsFrom at hf
  rw [home_self] at hf
  cases hn : modelType h model with
  | error err => rw [hn] at hf; cases hf
  | ok n =>
    cases hs : schemaForType E n with
    | error err => simp [hn, hs, bind, Except.bind] at hf
    | ok schema =>
      simp only [hn, hs, bind, Except.bind, pure, Except.pure, Except.ok.injEq] at hf
      rw [← hf] at hi
      obtain ⟨fs, hfs, hi⟩ := mem_filterMap.mp hi
      obtain ⟨gs, leaf, -, -, hdesc⟩ := schemaForType_spec hs hfs
      obtain ⟨omitCheck, htag, -⟩ := hdesc.tag
      rw [fieldInfo_columnName hi]
      exact kept_of_last 100 (parseTranslateTag_last htag)

theorem saveData_columns (hs : tr.saveData getKey h lang model = .ok data) :
    (data.columns.map Prod.fst).Nodup ∧ ∀ e ∈ data.columns, Kept 100 e.1 := by
  obtain ⟨-, fields, hf, rfl⟩ := saveData_eq_ok hs
  refine ⟨(saveColumns_collected fields).nodup, fun e he => ?_⟩
  obtain ⟨field, hfield, -, rfl⟩ := (saveColumns_collected fields).supplied e he
  exact kept_of_reported hf hfield

/-- A save of any model that succeeds. -/
inductive Saved (t : Table) (data : Data) (t' : Table) : Prop
  | mk {N B : Type} [DecidableEq N] [Fintype N] {E : Types N} {tr : Translator}
      {getKey : Heap E B → Translatable B → String × String} {h : Heap E B} {lang : Language}
      {model : Translatable B} {order : List (String × String)} :
      tr.saveData getKey h lang model = .ok data → order.Perm data.columns →
      saveTranslation t data order = .ok t' → Saved t data t'

theorem Saved.filled (hs : Saved t data t') (ht : t.Filled) : t'.Filled := by
  obtain ⟨-, -, hsave⟩ := hs
  exact saveTranslation_filled ht hsave

/-- Where the names are kept, a save stores its columns and leaves the other rows alone. -/
theorem saveData_stores {order : List (String × String)}
    (hs : tr.saveData getKey h lang model = .ok data) (hord : order.Perm data.columns)
    (hsave : saveTranslation t data order = .ok t') (hkept : data.Kept) :
    (∀ e ∈ data.columns, t'.get (data.rowKey e.1) = stored e.2) ∧
      ∀ k, (∀ e ∈ data.columns, k ≠ data.rowKey e.1) → t'.get k = t.get k := by
  obtain ⟨hnodup, hcols⟩ := saveData_columns hs
  have hnodup' : (order.map Prod.fst).Nodup := (hord.map Prod.fst).nodup_iff.mpr hnodup
  obtain ⟨hin, hout⟩ := saveTranslation_get hkept (fun e he => hcols e (hord.mem_iff.mp he))
    hnodup' hsave
  exact ⟨fun e he => hin e (hord.mem_iff.mpr he),
    fun k hk => hout k fun e he => hk e (hord.mem_iff.mp he)⟩

/-- The tables that are written only through `Save`. -/
def Written : Table → Prop := Relation.ReflTransGen (fun t t' => ∃ data, Saved t data t') .empty

theorem Written.filled (hw : Written t) : t.Filled := by
  induction hw with
  | refl =>
    intro k v hv
    cases hv
  | tail _ hs ih =>
    obtain ⟨data, hs⟩ := hs
    exact hs.filled ih

/-- A save of another model, key or language, whose names fit into their columns. -/
def OtherSave (data : Data) (t t' : Table) : Prop :=
  ∃ data', Saved t data' t' ∧ data'.Kept ∧ ∀ c, data'.rowKey c ≠ data.rowKey c

theorem OtherSave.get (ho : OtherSave data t t') (c : String) :
    t'.get (data.rowKey c) = t.get (data.rowKey c) := by
  obtain ⟨data', ⟨hs, hord, hsave⟩, hkept, hother⟩ := ho
  refine (saveData_stores hs hord hsave hkept).2 _ fun e _ heq => ?_
  have hcol : c = e.1 := congrArg Key.columnName heq
  exact hother e.1 (hcol ▸ heq.symm)

theorem get_of_otherSaves (ho : Relation.ReflTransGen (OtherSave data) t t') (c : String) :
    t'.get (data.rowKey c) = t.get (data.rowKey c) := by
  induction ho with
  | refl => rfl
  | tail _ hs ih => exact (hs.get c).trans ih

theorem filled_of_otherSaves (ho : Relation.ReflTransGen (OtherSave data) t t') (ht : t.Filled) :
    t'.Filled := by
  induction ho with
  | refl => exact ht
  | tail _ hs ih =>
    obtain ⟨data', hs, -⟩ := hs
    exact hs.filled ih

end Saves

section RoundTrip

variable {N B B' : Type} [DecidableEq N] [Fintype N] {E : Types N} {n : N}
  {schema : List FieldSchema} {h : Heap E B} {model : Translatable B} {h' g : Heap E B'}
  {l' : Loc B'} {getKey : Heap E B → Translatable B → String × String}
  {getKey' : Heap E B' → Translatable B' → String × String} {tr : Translator} {lang : Language}
  {data : Data} {t₀ t₁ t₂ : Table} {fs : FieldSchema}

/-- No two fields share a column. -/
def DistinctColumns (schema : List FieldSchema) : Prop :=
  ∀ fs ∈ schema, ∀ fs' ∈ schema, fs.isPrimary = false → fs'.isPrimary = false →
    fs.columnName = fs'.columnName → fs = fs'

/-- The field is there in the instance. -/
def Reachable (h : Heap E B) (model : Translatable B) (fs : FieldSchema) : Prop :=
  ∃ r, valueByPath h model.ref fs.path = some r

/-- The instance at `l'` has become `g`: the fields that it shares with the saved model and that
have a text there hold that text, those without a stored text are as they were, and so is every
other string. -/
structure RoundTrip (h : Heap E B) (model : Translatable B) (h' : Heap E B') (l' : Loc B')
    (schema : List FieldSchema) (stored : String → Prop) (g : Heap E B') : Prop where
  set : ∀ fs ∈ schema, fs.isPrimary = false → Reachable h model fs →
    Reachable h' (.pointer l') fs → fieldText h model.loc fs.path ≠ "" →
    fieldText g l' fs.path = fieldText h model.loc fs.path
  kept : ∀ fs ∈ schema, fs.isPrimary = false → Reachable h' (.pointer l') fs →
    ¬ stored fs.columnName → fieldText g l' fs.path = fieldText h' l' fs.path
  others : ∀ q k a, h'.read q = some (.string k a) →
    (∀ fs ∈ schema, fs.isPrimary = false → ∀ r,
      valueByPath h' (Translatable.pointer l').ref fs.path = some r → r.loc ≠ q) →
    g.read q = some (.string k a)

omit [Fintype N] in
theorem Reachable.pointer (hr : Reachable h model fs) : Reachable h (.pointer model.loc) fs := by
  obtain ⟨r, hr⟩ := hr
  have hform : (Translatable.pointer model.loc).loc = model.loc := rfl
  obtain ⟨r', hr', -⟩ := valueByPath_form hform hr
  exact ⟨r', hr'⟩

/-- The report of a field that is there has the text of the field. -/
theorem Plain.fieldInfo_text {l : Loc B} (hp : Plain E n schema)
    (hl : h.typeOf l = some (.struct n)) (hfs : fs ∈ schema) (hprim : fs.isPrimary = false)
    (hr : Reachable h (.pointer l) fs) : fieldInfo h (Translatable.pointer l).ref fs =
      some ⟨fs.fieldName, fs.columnName, false, fieldText h l fs.path, fs.optional⟩ := by
  obtain ⟨r, hr⟩ := hr
  obtain ⟨hcan, a, hread⟩ := hp.place hl hfs hprim hr
  have hfree : r.access = .free := by
    simp only [Ref.canSet, Bool.and_eq_true, decide_eq_true_eq] at hcan
    exact hcan.2
  rw [fieldInfo_eq hr, fieldText_eq hr hread, infoValue_eq hfree hread, hprim]
  rfl

/-- A save stores the texts of the fields that are there. -/
theorem saved_text {order : List (String × String)} (hp : Plain E n schema)
    (hd : DistinctColumns schema) (hl : h.typeOf model.loc = some (.struct n))
    (hs : tr.saveData getKey h lang model = .ok data) (hord : order.Perm data.columns)
    (hsave : saveTranslation t₀ data order = .ok t₁) (hkept : data.Kept) (hfs : fs ∈ schema)
    (hprim : fs.isPrimary = false) (hr : Reachable h model fs)
    (hne : fieldText h model.loc fs.path ≠ "") :
    t₁.get (data.rowKey fs.columnName) = some (some (fieldText h model.loc fs.path)) := by
  obtain ⟨hin, -⟩ := saveData_stores hs hord hsave hkept
  obtain ⟨-, fields, hf, rfl⟩ := saveData_eq_ok hs
  rw [parseTranslateTags_loc, hp.parse hl] at hf
  obtain rfl := Except.ok.inj hf
  have hcol := saveColumns_collected
    (schema.filterMap (fieldInfo h (Translatable.pointer model.loc).ref))
  have hinfo := hp.fieldInfo_text hl hfs hprim hr.pointer
  obtain ⟨e, he, hcolumn⟩ := hcol.all _ (mem_filterMap.mpr ⟨fs, hfs, hinfo⟩)
    ⟨rfl, fun hempty => hne hempty.2⟩
  -- the entry of the column is the one of this field
  obtain ⟨field, hfield, hsup, rfl⟩ := hcol.supplied e he
  obtain ⟨fs', hfs', hi⟩ := mem_filterMap.mp hfield
  obtain ⟨r', -, rfl⟩ := fieldInfo_spec hl hp.accepted hfs' hi
  obtain rfl := hd fs' hfs' fs hfs hsup.1 hprim hcolumn
  rw [hinfo] at hi
  have hvalue := congrArg FieldInfo.value (Option.some.inj hi)
  have hstored := hin _ he
  rw [← hvalue, stored, if_neg hne] at hstored
  exact hstored

/-- What applying the stored texts makes of an instance. -/
theorem Translates.roundTrip (hp : Plain E n schema) (hl' : h'.typeOf l' = some (.struct n))
    (ht : t₂.Filled)
    (hsaved : ∀ fs ∈ schema, fs.isPrimary = false → Reachable h model fs →
      fieldText h model.loc fs.path ≠ "" → t₂.get (modelKey getKey' h' l' lang fs.columnName) =
        some (some (fieldText h model.loc fs.path)))
    (htr : Translates h' l' schema (translationsOf t₂ getKey' h' l' lang) g) :
    RoundTrip h model h' l' schema (fun c => HasText t₂ (modelKey getKey' h' l' lang c)) g := by
  refine ⟨?_, ?_, ?_⟩
  · intro fs hfs hprim hr hr' hne
    obtain ⟨r', hr'⟩ := hr'
    have hgets : Gets (translationsOf t₂ getKey' h' l' lang) fs.columnName fs.isPrimary
        fs.optional (fieldText h model.loc fs.path) := by
      refine ⟨hprim, ?_, fun hempty => hne hempty.2⟩
      rw [translationsOf, hsaved fs hfs hprim hr hne]
      rfl
    exact fieldText_eq (htr.paths _ _ hr') (htr.set _ _ ⟨fs, hfs, hgets, r', hr', rfl⟩)
  · intro fs hfs hprim hr' hno
    obtain ⟨r', hr'⟩ := hr'
    obtain ⟨-, a, hread⟩ := hp.place hl' hfs hprim hr'
    have hfree : ∀ value, ¬ Assigned h' l' schema (translationsOf t₂ getKey' h' l' lang) r'.loc
        value := by
      rintro value ⟨fs', hfs', hgets, r₂, hr₂, hloc⟩
      have hcol := hp.same_column hl' hfs' hgets.translatable hfs hprim hr₂ hr' hloc
      obtain ⟨v, hv, -⟩ := Option.map_eq_some_iff.mp hgets.found
      obtain ⟨s, rfl, hs⟩ := ht _ v hv
      exact hno ⟨s, hs, hcol ▸ hv⟩
    rw [fieldText_eq hr' hread]
    exact fieldText_eq (htr.paths _ _ hr') (htr.kept _ _ _ hread hfree)
  · intro q k a hread hplace
    refine htr.kept q k a hread ?_
    rintro value ⟨fs, hfs, hgets, r, hr, hloc⟩
    exact hplace fs hfs hgets.translatable r hr hloc

/-- After a save that succeeded, and later saves of other rows, `Get` and `Translate` give every
instance of the type with the same key the texts that were saved. -/
theorem save_round_trip [DecidableEq B'] {impl : N → Option Receiver}
    {order : List (String × String)} (hp : Plain E n schema) (hd : DistinctColumns schema)
    (hl : h.typeOf model.loc = some (.struct n)) (hl' : h'.typeOf l' = some (.struct n))
    (hkey : getKey' h' (.pointer l') = getKey h model) (hw : Written t₀)
    (hs : tr.saveData getKey h lang model = .ok data) (hkept : data.Kept)
    (hord : order.Perm data.columns) (hsave : saveTranslation t₀ data order = .ok t₁)
    (hlater : Relation.ReflTransGen (OtherSave data) t₁ t₂) :
    (∃ g, (tr.get getKey' t₂ h' lang (.pointer l') = .ok g ∨
        tr.get getKey' t₂ h' lang (.pointer l') = .error errTranslationNotFound ∧ g = h') ∧
      RoundTrip h model h' l' schema (fun c => HasText t₂ (modelKey getKey' h' l' lang c)) g) ∧
    (lang.code ≠ tr.defaultLang.code → (∀ s, ¬ Held impl h' l' s) → ∀ depth,
      ∃ g, tr.translate getKey' impl t₂ (depth + 1) h' (.pointer l') lang = some (.ok g) ∧
        RoundTrip h model h' l' schema
          (fun c => HasText t₂ (modelKey getKey' h' l' lang c)) g) := by
  have hfilled : t₂.Filled := filled_of_otherSaves hlater (saveTranslation_filled hw.filled hsave)
  obtain ⟨hsup, fields, -, hdata⟩ := saveData_eq_ok hs
  have hrow : ∀ c, data.rowKey c = modelKey getKey' h' l' lang c := by
    intro c
    rw [hdata, modelKey, hkey]
    rfl
  have hsaved : ∀ fs ∈ schema, fs.isPrimary = false → Reachable h model fs →
      fieldText h model.loc fs.path ≠ "" → t₂.get (modelKey getKey' h' l' lang fs.columnName) =
        some (some (fieldText h model.loc fs.path)) := by
    intro fs hfs hprim hr hne
    rw [← hrow, get_of_otherSaves hlater]
    exact saved_text hp hd hl hs hord hsave hkept hfs hprim hr hne
  have hnull : ∀ c, t₂.get (modelKey getKey' h' l' lang c) ≠ some none := by
    intro c hc
    obtain ⟨s, hs, -⟩ := hfilled _ _ hc
    cases hs
  have hne : ∀ q value, Assigned h' l' schema (translationsOf t₂ getKey' h' l' lang) q value →
      value ≠ "" := by
    rintro q value ⟨fs, -, hgets, -⟩
    obtain ⟨v, hv, rfl⟩ := Option.map_eq_some_iff.mp hgets.found
    obtain ⟨s, rfl, hs⟩ := hfilled _ _ hv
    exact hs
  refine ⟨?_, fun hdef hn depth => ?_⟩
  · obtain ⟨g, hg, htr⟩ | ⟨herr, hnone⟩ := get_spec hp hl' hnull hne hsup
    · exact ⟨g, .inl hg, htr.roundTrip hp hl' hfilled hsaved⟩
    · have hrefl : Translates h' l' schema (translationsOf t₂ getKey' h' l' lang) h' := by
        refine .refl fun c => ?_
        rw [translationsOf, hnone]
        rfl
      exact ⟨h', .inr ⟨herr, rfl⟩, hrefl.roundTrip hp hl' hfilled hsaved⟩
  · obtain ⟨g, hg, htr⟩ := translate_spec hp hl' hnull hne hdef hsup hn depth
    exact ⟨g, hg, htr.roundTrip hp hl' hfilled hsaved⟩

end RoundTrip

section Card

theorem card_distinct : DistinctColumns cardSchema := by
  unfold DistinctColumns
  decide

/-- The title of one card, saved in German and read into another card. -/
theorem save_round_trip_card : ∃ t data order,
    (cards german).saveData cardKey (card "Titel") german (.pointer ⟨(), []⟩) = .ok data ∧
      saveTranslation .empty data order = .ok t ∧
      ∃ g, (cards german).translate cardKey (fun _ => some .pointer) t 1 (card "A")
        (.pointer ⟨(), []⟩) german = some (.ok g) ∧ fieldText g ⟨(), []⟩ ["Title"] = "Titel" := by
  have hs : (cards german).saveData cardKey (card "Titel") german (.pointer ⟨(), []⟩) =
      .ok ⟨"card", "1", german, [("title", "Titel")]⟩ := by decide
  obtain ⟨t, hsave⟩ : ∃ t, saveTranslation .empty ⟨"card", "1", german, [("title", "Titel")]⟩
      [("title", "Titel")] = .ok t := ⟨_, rfl⟩
  have hkept : Data.Kept ⟨"card", "1", german, [("title", "Titel")]⟩ :=
    ⟨kept_of_last 100 (by decide), kept_of_last 255 (by decide), kept_of_last 10 (by decide)⟩
  have hl' : (card "A").typeOf ⟨(), []⟩ = some (.struct ()) := rfl
  have hkey : cardKey (card "A") (.pointer ⟨(), []⟩) =
      cardKey (card "Titel") (.pointer ⟨(), []⟩) := rfl
  refine ⟨t, _, _, hs, hsave, ?_⟩
  obtain ⟨g, hg, hround⟩ := (save_round_trip card_plain card_distinct rfl hl' hkey .refl hs hkept
    (.refl _) hsave .refl).2 (by decide) (card_not_held "A" fun _ => some .pointer) 0
  exact ⟨g, hg, hround.set { path := ["Title"], columnName := "title" } (by decide) rfl
    ⟨_, rfl⟩ ⟨_, rfl⟩ (by decide)⟩

/-- A language whose code is a space longer than its column. -/
def serbian : Language := ⟨"sr-Latn-RS ", "Srpski"⟩

/-- The save succeeds, and neither `Get` nor `Translate` finds what it has stored. -/
theorem saved_title_not_found : ∃ t data,
    (cards serbian).saveData cardKey (card "Naslov") serbian (.pointer ⟨(), []⟩) = .ok data ∧
    saveTranslation .empty data data.columns = .ok t ∧
    (cards serbian).get cardKey t (card "A") serbian (.pointer ⟨(), []⟩) =
      .error errTranslationNotFound ∧
    (cards serbian).translate cardKey (fun _ => some .pointer) t 1 (card "A") (.pointer ⟨(), []⟩)
      serbian = some (.ok (card "A")) ∧
    fieldText (card "A") ⟨(), []⟩ ["Title"] ≠ fieldText (card "Naslov") ⟨(), []⟩ ["Title"] := by
  exact ⟨_, _, rfl, rfl, rfl, rfl, by decide⟩

end Card

end Skit.Translation
