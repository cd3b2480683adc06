import Skit.Lib.Suffix
import Skit.Translation.Translator

/-!
# The check of translations

`CheckTranslationsExist` looks for the pairs of a required column and a language that have no
text. What it finds is exact. That nothing is missing guarantees a translation only where no row
of the model holds a NULL, in whatever column: the check leaves these rows out, and the lookup
of `Translate` fails on them.
-/
namespace Skit.Translation
open Lib Reflect List Translatable

section Pairs

theorem bar_injective {c c' l l' : String} (hl : '|' ∉ l.toList) (hl' : '|' ∉ l'.toList)
    (h : c ++ "|" ++ l = c' ++ "|" ++ l') : c = c' ∧ l = l' := by
  have hsep : "|".toList.reverse = ['|'] := by decide
  have hrev := congrArg (fun s => s.toList.reverse) h
  simp only [String.toList_append, reverse_append, hsep, singleton_append] at hrev
  obtain ⟨hll, hcc⟩ := append_cons_inj (by simpa using hl) (by simpa using hl') hrev
  simp only [reverse_inj, String.toList_inj] at hll hcc
  exact ⟨hcc, hll⟩

theorem mem_filledPairs_of_bar {t : Table} {m k c code : String} {columns langCodes : List String}
    (hbar : ∀ code ∈ langCodes, '|' ∉ code.toList) (hc : c ∈ columns) (hcode : code ∈ langCodes) :
    c ++ "|" ++ code ∈ filledPairs t m k columns langCodes ↔ HasText t ⟨m, c, k, code⟩ :=
  mem_filledPairs_iff hc hcode fun _ _ l hl heq => bar_injective (hbar l hl) (hbar _ hcode) heq

theorem mem_missingPairs_iff {columns langCodes filled : List String} {c code : String} :
    (c, code) ∈ missingPairs columns langCodes filled ↔
      c ∈ columns ∧ code ∈ langCodes ∧ c ++ "|" ++ code ∉ filled := by
  simp only [missingPairs, mem_flatMap, mem_map, mem_filter, decide_eq_true_eq,
    Prod.mk.injEq]
  constructor
  · rintro ⟨_, hc, _, hcode, rfl, rfl⟩
    exact ⟨hc, hcode⟩
  · rintro ⟨hc, hcode⟩
    exact ⟨c, hc, code, hcode, rfl, rfl⟩

/-- The pairs that the store reports are those without a text. -/
theorem checkTranslationsExist_spec (t : Table) (m k : String) (columns : List String)
    {langs : List Language} (hbar : ∀ lang ∈ langs, '|' ∉ lang.code.toList) :
    ∃ pairs : List (String × String),
      (∀ c code, (c, code) ∈ pairs ↔ c ∈ columns ∧ (∃ lang ∈ langs, lang.code = code) ∧
        ¬ HasText t ⟨m, c, k, code⟩) ∧
      checkTranslationsExist t m k columns langs =
        if pairs = [] then .ok () else .error (.missing pairs) := by
  have hbar' : ∀ code ∈ langs.map Language.code, '|' ∉ code.toList := by
    intro code hcode
    obtain ⟨lang, hlang, rfl⟩ := mem_map.mp hcode
    exact hbar lang hlang
  refine ⟨_, fun c code => ?_, checkTranslationsExist_eq t m k columns langs⟩
  rw [mem_missingPairs_iff, ← mem_map]
  refine and_congr_right fun hc => and_congr_right fun hcode => not_congr ?_
  exact mem_filledPairs_of_bar hbar' hc hcode

end Pairs

section Guarantee

variable {N B : Type} [DecidableEq N] [Fintype N] [DecidableEq B] {E : Types N}
  {getKey : Heap E B → Translatable B → String × String} {impl : N → Option Receiver}
  {t : Table} {tr : Translator} {h : Heap E B} {l : Loc B} {n : N} {schema : List FieldSchema}

/-- A required field of the type that is there in the instance. -/
structure RequiredField (h : Heap E B) (l : Loc B) (n : N) (fs : FieldSchema) : Prop where
  described : ∃ schema, schemaForType E n = .ok schema ∧ fs ∈ schema
  translatable : fs.isPrimary = false
  required : fs.optional = false
  reachable : ∃ r, valueByPath h (pointer l).ref fs.path = some r

/-- The columns that the check asks for. -/
def requiredColumns (fields : List FieldInfo) : List String :=
  (fields.filter fun field => !(field.isPrimary || field.optional)).map FieldInfo.columnName

/-- A supported language other than the default one. -/
def Translator.Foreign (tr : Translator) (lang : Language) : Prop :=
  lang.code ≠ tr.defaultLang.code ∧ ∃ s ∈ tr.supportedLangs, s.code = lang.code

omit [DecidableEq B] in
theorem mem_requiredColumns_iff (hl : h.typeOf l = some (.struct n))
    (hs : schemaForType E n = .ok schema) {c : String} :
    c ∈ requiredColumns (schema.filterMap (fieldInfo h (pointer l).ref)) ↔
      ∃ fs, RequiredField h l n fs ∧ fs.columnName = c := by
  simp only [requiredColumns, mem_map, mem_filter, mem_filterMap]
  constructor
  · rintro ⟨info, ⟨⟨fs, hfs, hi⟩, hreq⟩, rfl⟩
    obtain ⟨r, hr, rfl⟩ := fieldInfo_spec hl hs hfs hi
    obtain ⟨hprim, hopt⟩ : fs.isPrimary = false ∧ fs.optional = false := by simpa using hreq
    exact ⟨fs, ⟨⟨schema, hs, hfs⟩, hprim, hopt, r, hr⟩, rfl⟩
  · rintro ⟨fs, ⟨⟨schema', hs', hfs⟩, hprim, hopt, r, hr⟩, rfl⟩
    obtain rfl := Except.ok.inj (hs.symm.trans hs')
    exact ⟨_, ⟨⟨fs, hfs, fieldInfo_eq hr⟩, by simp [hprim, hopt]⟩, rfl⟩

/-- The languages that the check asks for. -/
def Translator.foreignLangs (tr : Translator) : List Language :=
  tr.supportedLangs.filter fun lang => lang.code ≠ tr.defaultLang.code

omit [DecidableEq B] in
/-- Without columns or languages the store would find nothing missing either. -/
theorem Translator.checkTranslationsExist_eq (hl : h.typeOf l = some (.struct n))
    (hs : schemaForType E n = .ok schema) :
    tr.checkTranslationsExist getKey t h (.pointer l) =
      Translation.checkTranslationsExist t (getKey h (.pointer l)).1 (getKey h (.pointer l)).2
        (requiredColumns (schema.filterMap (fieldInfo h (pointer l).ref)))
        tr.foreignLangs := by
  have hparse : parseTranslateTags h (.pointer l) =
      .ok (schema.filterMap (fieldInfo h (pointer l).ref)) := by
    rw [parseTranslateTags_eq hl, hs]
    rfl
  unfold Translator.checkTranslationsExist
  rw [hparse]
  change (if requiredColumns _ = [] then _ else if tr.foreignLangs = [] then _ else _) = _
  split
  · next hcols => simp [Translation.checkTranslationsExist, hcols]
  · split
    · next hlangs => simp [Translation.checkTranslationsExist, hlangs]
    · rfl

omit [DecidableEq B] in
variable (getKey t) in
/-- The pairs that the check reports are the required columns and languages without a text. -/
theorem Translator.checkTranslationsExist_spec (hl : h.typeOf l = some (.struct n))
    (hs : schemaForType E n = .ok schema)
    (hbar : ∀ lang ∈ tr.supportedLangs, '|' ∉ lang.code.toList) :
    ∃ pairs : List (String × String),
      (∀ c code, (c, code) ∈ pairs ↔ ∃ fs lang, RequiredField h l n fs ∧ tr.Foreign lang ∧
        fs.columnName = c ∧ lang.code = code ∧ ¬ HasText t (modelKey getKey h l lang c)) ∧
      tr.checkTranslationsExist getKey t h (.pointer l) =
        if pairs = [] then .ok () else .error (.missing pairs) := by
  have hbar' : ∀ lang ∈ tr.foreignLangs, '|' ∉ lang.code.toList :=
    fun lang hlang => hbar lang (mem_filter.mp hlang).1
  obtain ⟨pairs, hmem, hcheck⟩ := Translation.checkTranslationsExist_spec t
    (getKey h (.pointer l)).1 (getKey h (.pointer l)).2
    (requiredColumns (schema.filterMap (fieldInfo h (pointer l).ref))) hbar'
  refine ⟨pairs, ?_, (tr.checkTranslationsExist_eq hl hs).trans hcheck⟩
  intro c code
  rw [hmem, mem_requiredColumns_iff hl hs]
  constructor
  · rintro ⟨⟨fs, hfs, rfl⟩, ⟨lang, hlang, rfl⟩, hno⟩
    obtain ⟨hsup, hdef⟩ := mem_filter.mp hlang
    exact ⟨fs, lang, hfs, ⟨by simpa using hdef, lang, hsup, rfl⟩, rfl, rfl, hno⟩
  · rintro ⟨fs, lang, hfs, ⟨hdef, s, hsup, hcode⟩, rfl, rfl, hno⟩
    refine ⟨⟨fs, hfs, rfl⟩, ⟨s, mem_filter.mpr ⟨hsup, ?_⟩, hcode⟩, hno⟩
    simpa [hcode] using hdef

/-- A required column has no text in a language that the check asks for. -/
def SomeMissing (getKey : Heap E B → Translatable B → String × String) (t : Table)
    (tr : Translator) (h : Heap E B) (l : Loc B) (n : N) : Prop :=
  ∃ fs lang, RequiredField h l n fs ∧ tr.Foreign lang ∧
    ¬ HasText t (modelKey getKey h l lang fs.columnName)

/-- What the result of the check says: after a pass every translation succeeds and shows the
stored texts, and a report of missing translations is exact. -/
structure CheckGuarantees (getKey : Heap E B → Translatable B → String × String)
    (impl : N → Option Receiver) (t : Table) (tr : Translator) (h : Heap E B) (l : Loc B) (n : N) :
    Prop where
  passed : tr.checkTranslationsExist getKey t h (.pointer l) = .ok () →
    ∀ lang, tr.Foreign lang → ∀ depth, ∃ g,
      tr.translate getKey impl t (depth + 1) h (.pointer l) lang = some (.ok g) ∧
      ∀ fs, RequiredField h l n fs → ∃ s, s ≠ "" ∧
        t.get (modelKey getKey h l lang fs.columnName) = some (some s) ∧ fieldText g l fs.path = s
  missing : ∀ pairs, tr.checkTranslationsExist getKey t h (.pointer l) = .error (.missing pairs) →
    ∀ c code, (c, code) ∈ pairs ↔ ∃ fs lang, RequiredField h l n fs ∧ tr.Foreign lang ∧
      fs.columnName = c ∧ lang.code = code ∧ ¬ HasText t (modelKey getKey h l lang c)

omit [DecidableEq B] in
theorem check_ok_iff (hl : h.typeOf l = some (.struct n)) (hs : schemaForType E n = .ok schema)
    (hbar : ∀ lang ∈ tr.supportedLangs, '|' ∉ lang.code.toList) :
    tr.checkTranslationsExist getKey t h (.pointer l) = .ok () ↔
      ¬ SomeMissing getKey t tr h l n := by
  obtain ⟨pairs, hmem, hcheck⟩ :=
    Translator.checkTranslationsExist_spec getKey t hl hs hbar
  rw [hcheck]
  constructor
  · rintro hok ⟨fs, lang, hfs, hlang, hno⟩
    have hpair := (hmem _ _).mpr ⟨fs, lang, hfs, hlang, rfl, rfl, hno⟩
    rw [if_neg (ne_nil_of_mem hpair)] at hok
    cases hok
  · intro hnone
    refine if_pos (eq_nil_iff_forall_not_mem.mpr ?_)
    rintro ⟨c, code⟩ hpair
    obtain ⟨fs, lang, hfs, hlang, rfl, -, hno⟩ := (hmem c code).mp hpair
    exact hnone ⟨fs, lang, hfs, hlang, hno⟩

omit [DecidableEq B] in
theorem missing_exact (hl : h.typeOf l = some (.struct n)) (hs : schemaForType E n = .ok schema)
    (hbar : ∀ lang ∈ tr.supportedLangs, '|' ∉ lang.code.toList) {pairs : List (String × String)}
    (hmiss : tr.checkTranslationsExist getKey t h (.pointer l) = .error (.missing pairs))
    (c code : String) : (c, code) ∈ pairs ↔ ∃ fs lang, RequiredField h l n fs ∧ tr.Foreign lang ∧
      fs.columnName = c ∧ lang.code = code ∧ ¬ HasText t (modelKey getKey h l lang c) := by
  obtain ⟨pairs', hmem, hcheck⟩ :=
    Translator.checkTranslationsExist_spec getKey t hl hs hbar
  rw [hcheck] at hmiss
  split at hmiss
  · cases hmiss
  · cases hmiss
    exact hmem c code

/-- Where every required column has a text and no row holds a NULL, `Translate` shows the texts. -/
theorem translate_of_texts {lang : Language} (hp : Plain E n schema)
    (hl : h.typeOf l = some (.struct n)) (hn : ∀ s, ¬ Held impl h l s) (hlang : tr.Foreign lang)
    (htext : ∀ fs, RequiredField h l n fs → HasText t (modelKey getKey h l lang fs.columnName))
    (hnull : ∀ c, t.get (modelKey getKey h l lang c) ≠ some none) (depth : Nat) :
    ∃ g, tr.translate getKey impl t (depth + 1) h (.pointer l) lang = some (.ok g) ∧
      ∀ fs, RequiredField h l n fs → ∃ s, s ≠ "" ∧
        t.get (modelKey getKey h l lang fs.columnName) = some (some s) ∧
        fieldText g l fs.path = s := by
  have hne : ∀ q value, Assigned h l schema (translationsOf t getKey h l lang) q value →
      value ≠ "" := by
    rintro q value ⟨fs, hfs, hg, r, hr, -⟩ rfl
    cases hopt : fs.optional with
    | true => exact hg.meant ⟨hopt, rfl⟩
    | false =>
      obtain ⟨s, hs, hget⟩ := htext fs ⟨⟨schema, hp.accepted, hfs⟩, hg.translatable, hopt, r, hr⟩
      have hfound := hg.found
      rw [translationsOf, hget] at hfound
      exact hs (Option.some.inj hfound)
  obtain ⟨g, hg, htr⟩ := translate_spec hp hl hnull hne hlang.1 hlang.2 hn depth
  refine ⟨g, hg, fun fs hfs => ?_⟩
  obtain ⟨s, hs, hget⟩ := htext fs hfs
  obtain ⟨schema', hs', hmem⟩ := hfs.described
  obtain rfl := Except.ok.inj (hp.accepted.symm.trans hs')
  obtain ⟨r, hr⟩ := hfs.reachable
  have hgets : Gets (translationsOf t getKey h l lang) fs.columnName fs.isPrimary fs.optional s :=
    ⟨hfs.translatable, by rw [translationsOf, hget]; rfl, by simp [hfs.required]⟩
  have hread := htr.set r.loc s ⟨fs, hmem, hgets, r, hr, rfl⟩
  exact ⟨s, hs, hget, fieldText_eq (htr.paths _ _ hr) hread⟩

/-- The check keeps its promise exactly where it has something to report, or where no row of the
model in a language that it asks for holds a NULL. -/
theorem check_guarantees_iff
    (hp : ∀ schema, schemaForType E n = .ok schema → Plain E n schema)
    (hl : h.typeOf l = some (.struct n)) (hn : ∀ s, ¬ Held impl h l s)
    (hbar : ∀ lang ∈ tr.supportedLangs, '|' ∉ lang.code.toList) :
    CheckGuarantees getKey impl t tr h l n ↔
      (∃ err, schemaForType E n = .error err) ∨ SomeMissing getKey t tr h l n ∨
        ∀ lang, tr.Foreign lang → ∀ c, t.get (modelKey getKey h l lang c) ≠ some none := by
  cases hs : schemaForType E n with
  | error err =>
    have hfail : tr.checkTranslationsExist getKey t h (.pointer l) =
        .error (.failed (parseError err)) := by
      rw [Translator.checkTranslationsExist, parseTranslateTags_eq hl, hs]
      rfl
    have hg : CheckGuarantees getKey impl t tr h l n := by
      refine ⟨fun hok => ?_, fun pairs hmiss => ?_⟩
      · rw [hfail] at hok
        cases hok
      · rw [hfail] at hmiss
        cases hmiss
    exact iff_of_true hg (.inl ⟨err, rfl⟩)
  | ok schema =>
    have hok : tr.checkTranslationsExist getKey t h (.pointer l) = .ok () ↔
        ¬ SomeMissing getKey t tr h l n := check_ok_iff hl hs hbar
    constructor
    · intro hg
      by_cases hmiss : SomeMissing getKey t tr h l n
      · exact .inr (.inl hmiss)
      · refine .inr (.inr fun lang hlang c hnull => ?_)
        obtain ⟨g, hsome, -⟩ := hg.passed (hok.mpr hmiss) lang hlang 0
        obtain ⟨err, herr⟩ := translate_of_null hlang.1 hlang.2 hn ⟨c, hnull⟩ 0
        rw [herr] at hsome
        cases hsome
    · intro hcond
      refine ⟨fun hpass lang hlang depth => ?_, fun pairs => missing_exact hl hs hbar⟩
      have hnot := hok.mp hpass
      rcases hcond with ⟨err, herr⟩ | hmiss | hnull
      · cases herr
      · exact absurd hmiss hnot
      · refine translate_of_texts (hp schema hs) hl hn hlang (fun fs hfs => ?_)
          (hnull lang hlang) depth
        by_contra hno
        exact hnot ⟨fs, lang, hfs, hlang, hno⟩

/-- The title in German, and a row of a column that the type does not have. -/
def cardTable (old : Option String) : Table where
  rows := [⟨⟨"card", "title", "1", "de"⟩, some "Titel"⟩, ⟨⟨"card", "old", "1", "de"⟩, old⟩]
  unique := by simp

theorem check_guarantees_iff_card :
    CheckGuarantees cardKey (fun _ => some .pointer) (cardTable (some "alt")) (cards german)
      (card "A") ⟨(), []⟩ () := by
  refine (check_guarantees_iff ?_ rfl (card_not_held _ _) (by decide)).mpr
    (.inr (.inr fun lang hlang c hnull => ?_))
  · intro schema hs
    obtain rfl := Except.ok.inj (card_plain.accepted.symm.trans hs)
    exact card_plain
  · obtain ⟨row, hrow, -, hv⟩ := Table.exists_mem_of_get hnull
    simp only [cardTable, mem_cons, not_mem_nil, or_false] at hrow
    rcases hrow with rfl | rfl <;> cases hv

/-- The check passes, and a NULL in a row that it does not look at makes `Translate` fail. -/
theorem check_passes_and_translate_fails :
    (cards german).checkTranslationsExist cardKey (cardTable none) (card "A")
      (.pointer ⟨(), []⟩) = .ok () ∧
    (∃ err, (cards german).translate cardKey (fun _ => some .pointer) (cardTable none) 1 (card "A")
      (.pointer ⟨(), []⟩) german = some (.error err)) ∧
    ¬ CheckGuarantees cardKey (fun _ => some .pointer) (cardTable none) (cards german)
      (card "A") ⟨(), []⟩ () := by
  have hcheck : (cards german).checkTranslationsExist cardKey (cardTable none) (card "A")
      (.pointer ⟨(), []⟩) = .ok () := by decide
  have hforeign : (cards german).Foreign german := ⟨by decide, german, by decide, rfl⟩
  have hnull : ∃ c, (cardTable none).get (modelKey cardKey (card "A") ⟨(), []⟩ german c) =
      some none := ⟨"old", by decide⟩
  obtain ⟨err, herr⟩ := translate_of_null hforeign.1 hforeign.2
    (card_not_held "A" fun _ => some .pointer) hnull 0
  refine ⟨hcheck, ⟨err, herr⟩, fun hg => ?_⟩
  obtain ⟨g, hsome, -⟩ := hg.passed hcheck german hforeign 0
  rw [herr] at hsome
  cases hsome

end Guarantee

end Skit.Translation
