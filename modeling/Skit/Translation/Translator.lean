import Mathlib.Data.List.Dedup
import Skit.Translation.Copies
import Skit.Translation.Nested
import Skit.Translation.Store

/-!
# The translator

`Save`, `Get`, `Translate` and `CheckTranslationsExist` over the table of translations.
`getKey` is the method `GetTranslationKey` of the models.
-/
namespace Skit.Translation
open Lib Reflect

def errInvalidLanguage : Err := .sentinel "invalid language"

structure Translator where
  defaultLang : Language
  supportedLangs : List Language
  named : defaultLang.code ≠ ""
  supported : ∃ lang ∈ supportedLangs, lang.code = defaultLang.code

namespace Translator

def invalidConfig (msg : String) : Err := .wrap ("invalid config: " ++ msg) (.text msg)

/-- `New`. -/
def new (defaultLang : Language) (supportedLangs : List Language) : Except Err Translator :=
  if hn : defaultLang.code = "" then .error (invalidConfig "DefaultLanguage must be set")
  else if supportedLangs = [] then
    .error (invalidConfig "SupportedLangs must contain at least one language")
  else if hs : ∃ lang ∈ supportedLangs, lang.code = defaultLang.code then
    .ok ⟨defaultLang, supportedLangs, hn, hs⟩
  else .error (invalidConfig "DefaultLanguage must be in SupportedLangs")

variable (tr : Translator)

def isDefaultLanguage (lang : Language) : Bool := lang.code = tr.defaultLang.code

def validateLanguage (lang : Language) : Except Err Unit :=
  if tr.supportedLangs.any (·.code = lang.code) then .ok () else .error errInvalidLanguage

variable {tr} {lang : Language}

@[simp]
theorem isDefaultLanguage_iff :
    tr.isDefaultLanguage lang = true ↔ lang.code = tr.defaultLang.code := by
  simp [isDefaultLanguage]

theorem validateLanguage_eq_ok_iff :
    tr.validateLanguage lang = .ok () ↔ ∃ s ∈ tr.supportedLangs, s.code = lang.code := by
  simp [validateLanguage]

end Translator

variable {N B : Type} [DecidableEq N] [Fintype N] [DecidableEq B] {E : Types N}

section Operations

variable (getKey : Heap E B → Translatable B → String × String) (impl : N → Option Receiver)
  (t : Table)

def parseError (err : Err) : Err := .wrap ("failed to parse translate tags: " ++ err.error) err

/-- The models were collected in the heap `copied`. -/
def translateModel (copied : Heap E B) (batch : String → Option (String → Option String))
    (h : Heap E B) (model : Translatable B) : Except Err (Heap E B) :=
  match batch (getKey h model).2 with
  | none => .ok h
  | some translations =>
    match parseTranslateTagsFrom copied h model with
    | .error err => .error (parseError err)
    | .ok fields => applyTranslationsFrom copied h model fields translations

def translateGroup (lang : Language) (copied h : Heap E B)
    (group : String × List (Translatable B)) : Except Err (Heap E B) :=
  match getTranslationsBatch t group.1 (group.2.map fun model => (getKey h model).2) lang with
  | .error err => .error (.wrap ("failed to get batch translations: " ++ err.error) err)
  | .ok batch => group.2.foldlM (translateModel getKey copied batch) h

/-- The models in groups of one name, as a list; `Visiting` puts the groups into any order. -/
def modelGroups (h : Heap E B) (models : List (Translatable B)) :
    List (String × List (Translatable B)) :=
  let name := fun model => (getKey h model).1
  (models.map name).dedup.map fun n => (n, models.filter fun model => name model = n)

/-- An order in which a `range` over the map of the groups visits them. -/
structure Visiting (B : Type) where
  visit : List (String × List (Translatable B)) → List (String × List (Translatable B))
  perm : ∀ groups, (visit groups).Perm groups

/-- In the order in which the groups were made. -/
def Visiting.asMade : Visiting B := ⟨id, fun _ => .refl _⟩

namespace Translator

variable (tr : Translator)

/-- `none` when the collection of the nested models does not end within the depth. -/
def translateManyIn (order : Visiting B) (depth : Nat) (h : Heap E B)
    (models : List (Translatable B)) (lang : Language) : Option (Except Err (Heap E B)) :=
  if tr.isDefaultLanguage lang then some (.ok h)
  else
    match tr.validateLanguage lang with
    | .error err => some (.error err)
    | .ok _ =>
      if models = [] then some (.ok h)
      else
        (models.mapM (collectNestedTranslatables impl h depth)).map fun nested =>
          (order.visit (modelGroups getKey h (models ++ nested.flatten))).foldlM
            (translateGroup getKey t lang h) h

def translateMany (depth : Nat) (h : Heap E B) (models : List (Translatable B))
    (lang : Language) : Option (Except Err (Heap E B)) :=
  tr.translateManyIn getKey impl t .asMade depth h models lang

def translate (depth : Nat) (h : Heap E B) (model : Translatable B) (lang : Language) :
    Option (Except Err (Heap E B)) :=
  if tr.isDefaultLanguage lang then some (.ok h)
  else
    match tr.validateLanguage lang with
    | .error err => some (.error err)
    | .ok _ => tr.translateMany getKey impl t depth h [model] lang

/-- An iteration of the loop of `Save` over the fields. A later field of the same column takes
its place in the map. -/
def saveField (columns : List (String × String)) (field : FieldInfo) : List (String × String) :=
  if field.isPrimary then columns
  else if field.optional && field.value = "" then columns
  else columns.filter (·.1 ≠ field.columnName) ++ [(field.columnName, field.value)]

/-- The map of the columns to save. -/
def saveColumns (fields : List FieldInfo) : List (String × String) := fields.foldl saveField []

/-- What `Save` hands to the store. -/
def saveData (h : Heap E B) (lang : Language) (model : Translatable B) : Except Err Data :=
  match tr.validateLanguage lang with
  | .error err => .error err
  | .ok _ =>
    match parseTranslateTags h model with
    | .error err => .error (parseError err)
    | .ok fields =>
      if saveColumns fields = [] then .error (.text "no translatable fields found")
      else .ok ⟨(getKey h model).1, (getKey h model).2, lang, saveColumns fields⟩

def get (h : Heap E B) (lang : Language) (model : Translatable B) : Except Err (Heap E B) :=
  match tr.validateLanguage lang with
  | .error err => .error err
  | .ok _ =>
    match getTranslations t (getKey h model).1 (getKey h model).2 lang with
    | .error err => .error err
    | .ok translations =>
      match parseTranslateTags h model with
      | .error err => .error (parseError err)
      | .ok fields => applyTranslations h model fields translations

def checkTranslationsExist (h : Heap E B) (model : Translatable B) : Except CheckError Unit :=
  match parseTranslateTags h model with
  | .error err => .error (.failed (parseError err))
  | .ok fields =>
    let columns :=
      (fields.filter fun field => !(field.isPrimary || field.optional)).map FieldInfo.columnName
    let langs := tr.supportedLangs.filter fun lang => lang.code ≠ tr.defaultLang.code
    if columns = [] then .ok ()
    else if langs = [] then .ok ()
    else Translation.checkTranslationsExist t (getKey h model).1 (getKey h model).2 columns langs

end Translator

end Operations

section Single

variable {getKey : Heap E B → Translatable B → String × String} {impl : N → Option Receiver}
  {t : Table} {tr : Translator} {lang : Language} {h : Heap E B} {l : Loc B}

/-- The key of a row of the model in the language. -/
def modelKey (getKey : Heap E B → Translatable B → String × String) (h : Heap E B) (l : Loc B)
    (lang : Language) (column : String) : Key :=
  ⟨(getKey h (.pointer l)).1, column, (getKey h (.pointer l)).2, lang.code⟩

/-- The translations that the table has of the model. -/
def translationsOf (t : Table) (getKey : Heap E B → Translatable B → String × String)
    (h : Heap E B) (l : Loc B) (lang : Language) (column : String) : Option String :=
  (t.get (modelKey getKey h l lang column)).map (·.getD "")

omit [Fintype N] [DecidableEq B] in
theorem collectNestedTranslatables_of_not_held (hn : ∀ s, ¬ Held impl h l s) (depth : Nat) :
    collectNestedTranslatables impl h (depth + 1) (.pointer l) = some [] := by
  have hnested : nested impl h (.pointer l) = [] := by
    rw [List.eq_nil_iff_forall_not_mem]
    exact fun s hs => hn s (mem_nested_iff.mp hs)
  simp [collectNestedTranslatables, collectNested, Traverse.collect, Traverse.proceed, visitedKey,
    hnested, Traverse.collectAll]

theorem translate_eq (hdef : lang.code ≠ tr.defaultLang.code)
    (hsup : ∃ s ∈ tr.supportedLangs, s.code = lang.code) (hn : ∀ s, ¬ Held impl h l s)
    (depth : Nat) : tr.translate getKey impl t (depth + 1) h (.pointer l) lang =
      some (translateGroup getKey t lang h h ((getKey h (.pointer l)).1, [.pointer l])) := by
  have hval := Translator.validateLanguage_eq_ok_iff.mpr hsup
  have hgroups : modelGroups getKey h [.pointer l] =
      [((getKey h (.pointer l)).1, [.pointer l])] := by
    simp [modelGroups]
  simp [Translator.translate, Translator.translateMany, Translator.translateManyIn,
    Visiting.asMade, hdef, hval, collectNestedTranslatables_of_not_held hn depth, hgroups]

/-- A NULL among the rows of the model makes the translation fail. -/
theorem translate_of_null (hdef : lang.code ≠ tr.defaultLang.code)
    (hsup : ∃ s ∈ tr.supportedLangs, s.code = lang.code) (hn : ∀ s, ¬ Held impl h l s)
    (hnull : ∃ c, t.get (modelKey getKey h l lang c) = some none) (depth : Nat) :
    ∃ err, tr.translate getKey impl t (depth + 1) h (.pointer l) lang = some (.error err) := by
  rw [translate_eq hdef hsup hn]
  obtain ⟨err, -, hbatch⟩ | ⟨batch, hno, -⟩ := getTranslationsBatch_singleton t
    (getKey h (.pointer l)).1 (getKey h (.pointer l)).2 lang
  · exact ⟨_, by rw [translateGroup, List.map_singleton, hbatch]⟩
  · obtain ⟨c, hc⟩ := hnull
    exact absurd hc (hno c)

variable {n : N} {schema : List FieldSchema} (hp : Plain E n schema)
  (hl : h.typeOf l = some (.struct n))
  (hnull : ∀ c, t.get (modelKey getKey h l lang c) ≠ some none)
  (hne : ∀ q value, Assigned h l schema (translationsOf t getKey h l lang) q value → value ≠ "")

include hp hl hnull hne

omit hnull in
theorem apply_lookup_spec : ∃ fields, parseTranslateTags h (.pointer l) = .ok fields ∧
    ∃ g, applyTranslations h (.pointer l) fields
        (columnsOf (t.select (getKey h (.pointer l)).1 (getKey h (.pointer l)).2 lang.code)) =
          .ok g ∧ Translates h l schema (translationsOf t getKey h l lang) g := by
  have hcols : columnsOf (t.select (getKey h (.pointer l)).1 (getKey h (.pointer l)).2 lang.code) =
      translationsOf t getKey h l lang := funext fun c => columnsOf_select _ _ _ _ c
  rw [hcols]
  exact ⟨_, hp.parse hl, applyTranslations_spec hp hl hne⟩

theorem translate_spec (hdef : lang.code ≠ tr.defaultLang.code)
    (hsup : ∃ s ∈ tr.supportedLangs, s.code = lang.code) (hn : ∀ s, ¬ Held impl h l s)
    (depth : Nat) :
    ∃ g, tr.translate getKey impl t (depth + 1) h (.pointer l) lang = some (.ok g) ∧
      Translates h l schema (translationsOf t getKey h l lang) g := by
  rw [translate_eq hdef hsup hn]
  obtain ⟨err, ⟨c, hc⟩, -⟩ | ⟨batch, -, hbatch, hkey⟩ := getTranslationsBatch_singleton t
    (getKey h (.pointer l)).1 (getKey h (.pointer l)).2 lang
  · exact absurd hc (hnull c)
  · have hgroup : translateGroup getKey t lang h h ((getKey h (.pointer l)).1, [.pointer l]) =
        translateModel getKey h batch h (.pointer l) := by
      rw [translateGroup, List.map_singleton, hbatch]
      simp
    rw [hgroup, translateModel, hkey]
    by_cases hnil : t.select (getKey h (.pointer l)).1 (getKey h (.pointer l)).2 lang.code = []
    · rw [if_pos hnil]
      have hnone := (select_eq_nil_iff _ _ _ _).mp hnil
      refine ⟨h, rfl, .refl fun c => ?_⟩
      rw [translationsOf, modelKey, hnone c]
      rfl
    · rw [if_neg hnil]
      obtain ⟨fields, hf, g, hg, htr⟩ := apply_lookup_spec hp hl hne
      refine ⟨g, congrArg some ?_, htr⟩
      simp only [hf, applyTranslationsFrom_pointer, hg]

theorem get_spec (hsup : ∃ s ∈ tr.supportedLangs, s.code = lang.code) :
    (∃ g, tr.get getKey t h lang (.pointer l) = .ok g ∧
      Translates h l schema (translationsOf t getKey h l lang) g) ∨
    (tr.get getKey t h lang (.pointer l) = .error errTranslationNotFound ∧
      ∀ c, t.get (modelKey getKey h l lang c) = none) := by
  have hval := Translator.validateLanguage_eq_ok_iff.mpr hsup
  have hany := (select_all_some_iff t (getKey h (.pointer l)).1 (getKey h (.pointer l)).2
    lang.code).mpr hnull
  by_cases hnil : t.select (getKey h (.pointer l)).1 (getKey h (.pointer l)).2 lang.code = []
  · refine .inr ⟨?_, (select_eq_nil_iff _ _ _ _).mp hnil⟩
    simp [Translator.get, hval, getTranslations, hnil]
  · obtain ⟨fields, hf, g, hg, htr⟩ := apply_lookup_spec hp hl hne
    refine .inl ⟨g, ?_, htr⟩
    simp only [Translator.get, hval, getTranslations, hany, Bool.false_eq_true, if_false,
      if_neg hnil, hf, hg]

end Single

section Card

/-- A type with an identifier and a title. -/
def cardTypes : Types Unit where
  fields _ := [
    ⟨"ID", true, false, [("translate", "primary")], .string none⟩,
    ⟨"Title", true, false, [("translate", "title")], .string none⟩]

def card (title : String) : Heap cardTypes Unit where
  type _ := .struct ()
  value _ := .struct () [.string none "1", .string none title]
  address _ := 128
  typed := by
    intro b
    rfl

def cardSchema : List FieldSchema := [
  { path := ["ID"], columnName := "primary", isPrimary := true },
  { path := ["Title"], columnName := "title" }]

def cardKey (_ : Heap cardTypes Unit) (_ : Translatable Unit) : String × String := ("card", "1")

def german : Language := ⟨"de", "Deutsch"⟩

def cards (lang : Language) : Translator where
  defaultLang := ⟨"en", "English"⟩
  supportedLangs := [⟨"en", "English"⟩, lang]
  named := by decide
  supported := ⟨_, List.mem_cons_self, rfl⟩

theorem card_plain : Plain cardTypes () cardSchema := by
  refine ⟨by decide, ?_⟩
  intro fs hfs hprim
  have hfs' : fs = { path := ["Title"], columnName := "title" } := by
    simp only [cardSchema, List.mem_cons, List.not_mem_nil, or_false] at hfs
    rcases hfs with rfl | rfl
    · cases hprim
    · rfl
  subst hfs'
  exact ⟨[], _, rfl, by simp, rfl, rfl⟩

theorem card_not_held (title : String) (impl : Unit → Option Receiver) (s : Translatable Unit) :
    ¬ Held impl (card title) ⟨(), []⟩ s := by
  intro hs
  have hmem : s ∈ nested impl (card title) (.pointer ⟨(), []⟩) := mem_nested_iff.mpr hs
  have hnil : nested impl (card title) (.pointer ⟨(), []⟩) = [] := rfl
  rw [hnil] at hmem
  cases hmem

end Card

end Skit.Translation
