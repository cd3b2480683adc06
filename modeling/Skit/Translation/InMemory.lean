import Skit.Translation.Translator
import Mathlib.Data.Finmap
import Mathlib.Data.Set.Function

/-!
# The in-memory store

`translationtest.Store` keeps a map of the columns under one text for the model name, the key and
the language. It is compared with the Postgres store call by call. The stores agree as long as
the texts of the map tell the models apart, no empty value is saved, the table takes the names and
no statement has more parameters than Postgres takes.
-/
namespace Skit.Translation
open List

/-- `translation.Store` over states of the type `σ`; an error leaves the state as it was. -/
structure Store (σ : Type) where
  saveTranslation : σ → Data → List (String × String) → Except Err σ
  getTranslations : σ → String → String → Language → Except Err (String → Option String)
  deleteTranslations : σ → String → String → Language → Except Err σ
  checkTranslationsExist : σ → String → String → List String → List Language →
    Except CheckError Unit
  getTranslationsBatch : σ → String → List String → Language →
    Except Err (String → Option (String → Option String))

/-- A statement with more parameters than Postgres takes is refused. -/
def errTooManyBinds : Err := .text "extended protocol limited to 65535 parameters"

/-- The parameters of a check, which makes no statement where there is nothing to check. -/
def checkBinds (columns : List String) (langs : List Language) : Nat :=
  if columns = [] ∨ langs = [] then 0 else columns.length + langs.length + 2

/-- `translationpg.Store`. A check and a batch bind each text of their lists. -/
def pgStore : Store Table where
  saveTranslation := saveTranslation
  getTranslations := getTranslations
  deleteTranslations := deleteTranslations
  checkTranslationsExist t modelName keyID columns langs :=
    if maxBinds < checkBinds columns langs then
      .error (.failed (.wrap ("query translations: " ++ errTooManyBinds.error) errTooManyBinds))
    else checkTranslationsExist t modelName keyID columns langs
  getTranslationsBatch t modelName keyIDs lang :=
    if maxBinds < keyIDs.length + 2 then
      .error (.wrap ("query batch translations: " ++ errTooManyBinds.error) errTooManyBinds)
    else getTranslationsBatch t modelName keyIDs lang

/-- The map of `translationtest.Store`. -/
structure Memory where
  translations : Finmap fun _ : String => Finmap fun _ : String => String

def buildKey (modelName keyID langCode : String) : String :=
  modelName ++ ":" ++ keyID ++ ":" ++ langCode

namespace Memory

def new : Memory := ⟨∅⟩

/-- The value of a column. -/
def get (s : Memory) (key column : String) : Option String :=
  (s.translations.lookup key).bind fun columns => columns.lookup column

def saveColumn (key : String) (s : Memory) (entry : String × String) : Memory :=
  let columns := (s.translations.lookup key).getD ∅
  ⟨s.translations.insert key (columns.insert entry.1 entry.2)⟩

/-- `SaveTranslation` with the columns in the order in which the loop ranges over them. -/
def saveTranslation (s : Memory) (data : Data) (order : List (String × String)) :
    Except Err Memory :=
  .ok (order.foldl (saveColumn (buildKey data.modelName data.keyID data.language.code)) s)

def getTranslations (s : Memory) (modelName keyID : String) (lang : Language) :
    Except Err (String → Option String) :=
  match s.translations.lookup (buildKey modelName keyID lang.code) with
  | some columns =>
    if columns = ∅ then .error errTranslationNotFound else .ok fun c => columns.lookup c
  | none => .error errTranslationNotFound

def deleteTranslations (s : Memory) (modelName keyID : String) (lang : Language) :
    Except Err Memory :=
  let key := buildKey modelName keyID lang.code
  match s.translations.lookup key with
  | some _ => .ok ⟨s.translations.erase key⟩
  | none => .error errTranslationNotFound

/-- A column that is absent reads as the empty text. -/
def checkTranslationsExist (s : Memory) (modelName keyID : String) (columns : List String)
    (langs : List Language) : Except CheckError Unit :=
  let missing := columns.flatMap fun column =>
    (langs.filter fun lang => (s.get (buildKey modelName keyID lang.code) column).getD "" = "").map
      fun lang => (column, lang.code)
  if missing = [] then .ok () else .error (.missing missing)

def getTranslationsBatch (s : Memory) (modelName : String) (keyIDs : List String)
    (lang : Language) : Except Err (String → Option (String → Option String)) :=
  .ok fun keyID =>
    if keyID ∈ keyIDs then
      (s.translations.lookup (buildKey modelName keyID lang.code)).map fun columns c =>
        columns.lookup c
    else none

end Memory

/-- `translationtest.Store`. -/
def memStore : Store Memory where
  saveTranslation := Memory.saveTranslation
  getTranslations := Memory.getTranslations
  deleteTranslations := Memory.deleteTranslations
  checkTranslationsExist := Memory.checkTranslationsExist
  getTranslationsBatch := Memory.getTranslationsBatch

section Calls

inductive StoreCall
  | save (data : Data) (order : List (String × String))
  | get (modelName keyID : String) (lang : Language)
  | delete (modelName keyID : String) (lang : Language)
  | check (modelName keyID : String) (columns : List String) (langs : List Language)
  | batch (modelName : String) (keyIDs : List String) (lang : Language)

inductive StoreReply
  | done (err : Option Err)
  | columns (res : Except Err (String → Option String))
  | checked (res : Except CheckError Unit)
  | batch (res : Except Err (String → Option (String → Option String)))

/-- What a write answers and leaves. -/
def written {σ : Type} (s : σ) : Except Err σ → StoreReply × σ
  | .ok s' => (.done none, s')
  | .error err => (.done (some err), s)

namespace StoreCall

def run {σ : Type} (A : Store σ) (s : σ) : StoreCall → StoreReply × σ
  | save data order => written s (A.saveTranslation s data order)
  | get modelName keyID lang => (.columns (A.getTranslations s modelName keyID lang), s)
  | delete modelName keyID lang => written s (A.deleteTranslations s modelName keyID lang)
  | check modelName keyID columns langs =>
    (.checked (A.checkTranslationsExist s modelName keyID columns langs), s)
  | batch modelName keyIDs lang => (.batch (A.getTranslationsBatch s modelName keyIDs lang), s)

def replies {σ : Type} (A : Store σ) : List StoreCall → σ → List StoreReply
  | [], _ => []
  | call :: calls, s => (call.run A s).1 :: replies A calls (call.run A s).2

/-- The model names, keys and languages that a call is about. -/
def subjects : StoreCall → List (String × String × String)
  | save data _ => [(data.modelName, data.keyID, data.language.code)]
  | get modelName keyID lang => [(modelName, keyID, lang.code)]
  | delete modelName keyID lang => [(modelName, keyID, lang.code)]
  | check modelName keyID _ langs => langs.map fun lang => (modelName, keyID, lang.code)
  | batch modelName keyIDs lang => keyIDs.map fun keyID => (modelName, keyID, lang.code)

/-- The loop of a save ranges over a map in any order. -/
inductive SameCall : StoreCall → StoreCall → Prop
  | refl (call : StoreCall) : SameCall call call
  | save (data : Data) {order order' : List (String × String)} : order.Perm order' →
      SameCall (.save data order) (.save data order')

/-- A save of texts that are not empty under names that the columns of the table hold. -/
structure SaveFits (data : Data) (order : List (String × String)) : Prop where
  ranges : order.Perm data.columns
  distinct : (data.columns.map Prod.fst).Nodup
  filled : ∀ e ∈ data.columns, e.2 ≠ ""
  modelName : data.modelName.length ≤ 100
  keyID : data.keyID.length ≤ 255
  languageID : data.language.code.length ≤ 10
  columns : ∀ e ∈ data.columns, e.1.length ≤ 100

/-- A check whose pairs of a column and a language are told apart. -/
structure CheckFits (columns : List String) (langs : List Language) : Prop where
  apart : ∀ c ∈ columns, ∀ c' ∈ columns, ∀ lang ∈ langs, ∀ lang' ∈ langs,
    c ++ "|" ++ lang.code = c' ++ "|" ++ lang'.code → c = c' ∧ lang.code = lang'.code
  binds : checkBinds columns langs ≤ maxBinds

def Fits : StoreCall → Prop
  | save data order => SaveFits data order
  | check _ _ columns langs => CheckFits columns langs
  | batch _ keyIDs _ => keyIDs.length + 2 ≤ maxBinds
  | _ => True

end StoreCall

end Calls

section Memory

variable {s : Memory} {key key' c c' : String}

theorem Memory.get_saveColumn (e : String × String) : (s.saveColumn key e).get key' c =
    if key' = key ∧ c = e.1 then some e.2 else s.get key' c := by
  unfold saveColumn get
  dsimp only
  by_cases hkey : key' = key
  · subst hkey
    rw [Finmap.lookup_insert, Option.bind_some]
    by_cases hc : c = e.1
    · rw [if_pos ⟨rfl, hc⟩, hc, Finmap.lookup_insert]
    · rw [if_neg fun h => hc h.2, Finmap.lookup_insert_of_ne _ hc]
      cases s.translations.lookup key' with
      | none => rw [Option.getD_none, Finmap.lookup_empty, Option.bind_none]
      | some columns => rfl
  · rw [if_neg fun h => hkey h.1, Finmap.lookup_insert_of_ne _ hkey]

/-- The maps of the columns are never empty. -/
def Memory.Inhabited (s : Memory) : Prop := ∀ key, s.translations.lookup key ≠ some ∅

theorem Memory.saveColumn_inhabited (hs : s.Inhabited) (e : String × String) :
    (s.saveColumn key e).Inhabited := by
  intro key' h
  unfold saveColumn at h
  dsimp only at h
  by_cases hkey : key' = key
  · subst hkey
    rw [Finmap.lookup_insert, Option.some.injEq] at h
    have hfound := congrArg (Finmap.lookup e.1) h
    rw [Finmap.lookup_insert, Finmap.lookup_empty] at hfound
    cases hfound
  · rw [Finmap.lookup_insert_of_ne _ hkey] at h
    exact hs key' h

theorem Memory.lookup_eq_none_iff (hs : s.Inhabited) :
    s.translations.lookup key = none ↔ ∀ c, s.get key c = none := by
  unfold get
  constructor
  · intro h c
    rw [h, Option.bind_none]
  · intro h
    cases hcolumns : s.translations.lookup key with
    | none => rfl
    | some columns =>
      refine absurd (hcolumns.trans (congrArg some (Finmap.ext_lookup fun c => ?_))) (hs key)
      have hc := h c
      rwa [hcolumns, Option.bind_some] at hc

theorem Memory.get_foldl_saveColumn (key : String) {order : List (String × String)}
    (hnodup : (order.map Prod.fst).Nodup) :
    (∀ e ∈ order, (order.foldl (saveColumn key) s).get key e.1 = some e.2) ∧
      ∀ key' c, (key' = key → ∀ e ∈ order, c ≠ e.1) →
        (order.foldl (saveColumn key) s).get key' c = s.get key' c := by
  induction order generalizing s with
  | nil => exact ⟨nofun, fun _ _ _ => rfl⟩
  | cons e order ih =>
    rw [map_cons, nodup_cons] at hnodup
    obtain ⟨hin, hout⟩ := ih (s := s.saveColumn key e) hnodup.2
    rw [foldl_cons]
    constructor
    · intro e' he'
      rcases mem_cons.mp he' with rfl | he'
      · rw [hout, get_saveColumn, if_pos ⟨rfl, rfl⟩]
        rintro - e'' he'' heq
        exact hnodup.1 (heq ▸ mem_map_of_mem he'')
      · exact hin e' he'
    · intro key' c hc
      rw [hout key' c fun hkey e' he' => hc hkey e' (mem_cons_of_mem _ he'), get_saveColumn,
        if_neg]
      rintro ⟨hkey, hce⟩
      exact hc hkey e mem_cons_self hce

end Memory

section Simulation

/-- What the two stores share on some subjects. -/
structure Agrees (subjects : Set (String × String × String)) (s : Memory) (t : Table) : Prop where
  same : ∀ m k l, (m, k, l) ∈ subjects → ∀ c,
    s.get (buildKey m k l) c = (t.get ⟨m, c, k, l⟩).map (·.getD "")
  inhabited : s.Inhabited
  filled : t.Filled

variable {subjects : Set (String × String × String)} {s : Memory} {t : Table}
  {m k l : String} {lang : Language}

theorem Agrees.init : Agrees subjects .new .empty where
  same _ _ _ _ _ := by
    rw [Table.get_empty, Option.map_none]
    rfl
  inhabited key h := by cases h
  filled k v h := by cases h

section

variable (h : Agrees subjects s t)
include h

theorem Agrees.lookup_eq_none_iff (hin : (m, k, l) ∈ subjects) :
    s.translations.lookup (buildKey m k l) = none ↔ t.select m k l = [] := by
  rw [Memory.lookup_eq_none_iff h.inhabited, select_eq_nil_iff]
  refine forall_congr' fun c => ?_
  rw [h.same m k l hin c, Option.map_eq_none_iff]

theorem Agrees.lookup_eq_some (hin : (m, k, l) ∈ subjects)
    {columns : Finmap fun _ : String => String}
    (hcolumns : s.translations.lookup (buildKey m k l) = some columns) :
    (fun c => columns.lookup c) = columnsOf (t.select m k l) := by
  funext c
  have hc := h.same m k l hin c
  rw [Memory.get, hcolumns, Option.bind_some] at hc
  rw [hc, columnsOf_select]

theorem Agrees.no_null : (t.select m k l).any (·.value.isNone) = false := by
  rw [select_all_some_iff]
  intro c hnull
  obtain ⟨v, hv, -⟩ := h.filled _ _ hnull
  cases hv

theorem Agrees.get_eq (hin : (m, k, lang.code) ∈ subjects) :
    s.getTranslations m k lang = getTranslations t m k lang := by
  unfold Memory.getTranslations getTranslations
  dsimp only
  rw [h.no_null, if_neg Bool.false_ne_true]
  cases hcolumns : s.translations.lookup (buildKey m k lang.code) with
  | none =>
    rw [if_pos ((h.lookup_eq_none_iff hin).mp hcolumns)]
  | some columns =>
    have hsel : t.select m k lang.code ≠ [] := by
      rw [Ne, ← h.lookup_eq_none_iff hin, hcolumns]
      exact Option.some_ne_none columns
    have hne : columns ≠ ∅ := by
      rintro rfl
      exact h.inhabited _ hcolumns
    rw [if_neg hsel]
    dsimp only
    rw [if_neg hne, h.lookup_eq_some hin hcolumns]

theorem Agrees.batch_eq {keyIDs : List String} (hin : ∀ k ∈ keyIDs, (m, k, lang.code) ∈ subjects) :
    s.getTranslationsBatch m keyIDs lang = getTranslationsBatch t m keyIDs lang := by
  unfold Memory.getTranslationsBatch getTranslationsBatch
  dsimp only
  have hfilled : ((t.rows.filter fun r => r.modelName = m && r.languageID = lang.code &&
      r.keyID ∈ keyIDs).any (·.value.isNone)) = false := by
    refine any_eq_false.mpr fun r hr hnone => ?_
    obtain ⟨v, hv, -⟩ := h.filled _ _ (Table.get_eq_of_mem (mem_filter.mp hr).1)
    rw [hv] at hnone
    cases hnone
  rw [hfilled, if_neg Bool.false_ne_true]
  congr 1
  funext k
  rw [filter_filter]
  split_ifs with hk
  · have hrows : (t.rows.filter fun r => decide (r.keyID = k) && (r.modelName = m &&
        r.languageID = lang.code && r.keyID ∈ keyIDs)) = t.select m k lang.code := by
      refine filter_congr fun r _ => ?_
      rw [Bool.eq_iff_iff]
      simp only [Bool.and_eq_true, decide_eq_true_eq]
      constructor
      · rintro ⟨rfl, ⟨hm, hl⟩, -⟩
        exact ⟨⟨hm, rfl⟩, hl⟩
      · rintro ⟨⟨hm, rfl⟩, hl⟩
        exact ⟨rfl, ⟨hm, hl⟩, hk⟩
    rw [hrows]
    cases hcolumns : s.translations.lookup (buildKey m k lang.code) with
    | none => rw [(h.lookup_eq_none_iff (hin k hk)).mp hcolumns, Option.map_none]
    | some columns =>
      have hsel : t.select m k lang.code ≠ [] := by
        rw [Ne, ← h.lookup_eq_none_iff (hin k hk), hcolumns]
        exact Option.some_ne_none columns
      rw [Option.map_some, h.lookup_eq_some (hin k hk) hcolumns]
      split
      · next hnil => exact absurd hnil hsel
      · rfl
  · have hrows : (t.rows.filter fun r => decide (r.keyID = k) && (r.modelName = m &&
        r.languageID = lang.code && r.keyID ∈ keyIDs)) = [] := by
      refine filter_eq_nil_iff.mpr fun r _ => ?_
      simp only [Bool.and_eq_true, decide_eq_true_eq]
      rintro ⟨rfl, -, hmem⟩
      exact hk hmem
    rw [hrows]

theorem Agrees.empty_iff (hin : (m, k, l) ∈ subjects) (c : String) :
    (s.get (buildKey m k l) c).getD "" = "" ↔ ¬ HasText t ⟨m, c, k, l⟩ := by
  rw [h.same m k l hin c, HasText]
  cases hget : t.get ⟨m, c, k, l⟩ with
  | none => simp
  | some v =>
    obtain ⟨text, rfl, hne⟩ := h.filled _ _ hget
    simp [hne]

theorem Agrees.check_eq {columns : List String} {langs : List Language}
    (hin : ∀ lang ∈ langs, (m, k, lang.code) ∈ subjects)
    (hfits : StoreCall.CheckFits columns langs) :
    s.checkTranslationsExist m k columns langs = checkTranslationsExist t m k columns langs := by
  have hmissing : (columns.flatMap fun column =>
      (langs.filter fun lang => (s.get (buildKey m k lang.code) column).getD "" = "").map
        fun lang => (column, lang.code)) =
      missingPairs columns (langs.map Language.code)
        (filledPairs t m k columns (langs.map Language.code)) := by
    unfold missingPairs
    refine flatMap_congr fun c hc => ?_
    rw [filter_map, map_map]
    refine congrArg _ (filter_congr fun lang hlang => ?_)
    rw [Function.comp_apply, decide_eq_decide, h.empty_iff (hin lang hlang) c,
      mem_filledPairs_iff hc (mem_map_of_mem hlang)]
    intro c' hc' code hcode heq
    obtain ⟨lang', hlang', rfl⟩ := mem_map.mp hcode
    exact hfits.apart c' hc' c hc lang' hlang' lang hlang heq
  rw [Memory.checkTranslationsExist, checkTranslationsExist_eq, hmissing]

end

theorem Table.get_deleteTranslations {t' : Table} (hdel : deleteTranslations t m k lang = .ok t')
    (key : Key) : t'.get key =
      if key.modelName = m ∧ key.keyID = k ∧ key.languageID = lang.code then none
      else t.get key := by
  unfold deleteTranslations at hdel
  split_ifs at hdel
  cases hdel
  unfold Table.get
  rw [find?_filter]
  split_ifs with hkey
  · rw [Option.map_eq_none_iff, find?_eq_none]
    intro r _
    simp only [decide_eq_true_eq, not_and]
    intro hr heq
    rw [← heq] at hkey
    simp [hkey] at hr
  · congr 2
    funext r
    by_cases hr : r.toKey = key
    · subst hr
      simp only [Bool.not_eq_true', Bool.and_eq_false_iff, decide_eq_false_iff_not]
      exact decide_eq_true (by tauto)
    · simp [hr]

/-- The keys of the map tell the subjects apart. -/
def ToldApart (subjects : Set (String × String × String)) : Prop :=
  ∀ x ∈ subjects, ∀ y ∈ subjects, buildKey x.1 x.2.1 x.2.2 = buildKey y.1 y.2.1 y.2.2 → x = y

theorem Agrees.delete (h : Agrees subjects s t) (hapart : ToldApart subjects)
    (hin : (m, k, lang.code) ∈ subjects) :
    (∃ err, s.deleteTranslations m k lang = .error err ∧
      deleteTranslations t m k lang = .error err) ∨
    ∃ s' t', s.deleteTranslations m k lang = .ok s' ∧
      deleteTranslations t m k lang = .ok t' ∧ Agrees subjects s' t' := by
  have hnone := h.lookup_eq_none_iff hin
  cases hcolumns : s.translations.lookup (buildKey m k lang.code) with
  | none =>
    refine .inl ⟨errTranslationNotFound, ?_, ?_⟩
    · rw [Memory.deleteTranslations, hcolumns]
    · rw [deleteTranslations, if_pos (hnone.mp hcolumns)]
  | some columns =>
    have hsel : t.select m k lang.code ≠ [] := by
      rw [Ne, ← hnone, hcolumns]
      exact Option.some_ne_none columns
    have hpg := deleteTranslations.eq_def t m k lang
    rw [if_neg hsel] at hpg
    refine .inr ⟨⟨s.translations.erase (buildKey m k lang.code)⟩, _, ?_, hpg, ?_, ?_, ?_⟩
    · rw [Memory.deleteTranslations, hcolumns]
    · intro m' k' l' hin' c
      rw [Table.get_deleteTranslations hpg]
      by_cases hsame : m' = m ∧ k' = k ∧ l' = lang.code
      · obtain ⟨rfl, rfl, rfl⟩ := hsame
        rw [if_pos ⟨rfl, rfl, rfl⟩, Memory.get, Finmap.lookup_erase, Option.bind_none,
          Option.map_none]
      · rw [if_neg hsame, ← h.same m' k' l' hin' c, Memory.get, Finmap.lookup_erase_ne]
        · rfl
        · intro heq
          have := hapart _ hin' _ hin heq
          simp only [Prod.mk.injEq] at this
          exact hsame this
    · intro key hkey
      by_cases heq : key = buildKey m k lang.code
      · rw [heq, Finmap.lookup_erase] at hkey
        cases hkey
      · rw [Finmap.lookup_erase_ne heq] at hkey
        exact h.inhabited key hkey
    · intro key v hv
      rw [Table.get_deleteTranslations hpg] at hv
      split_ifs at hv
      exact h.filled key v hv

variable {text : String} {data : Data} {order order' : List (String × String)}

theorem varchar_eq_ok {n : Nat} (h : text.length ≤ n) : varchar n text = .ok text := if_pos h

theorem kept_of_length {n : Nat} (h : text.length ≤ n) : Kept n text := by
  intro text' heq
  rw [varchar_eq_ok h] at heq
  exact (Except.ok.inj heq).symm

theorem saveTranslation_ok {order rest : List (String × String)}
    (hfits : StoreCall.SaveFits data order) (hrest : ∀ e ∈ rest, e ∈ data.columns) :
    ∃ t', saveTranslation t data rest = .ok t' := by
  induction rest generalizing t with
  | nil => exact ⟨t, rfl⟩
  | cons e rest ih =>
    obtain ⟨he, hrest⟩ := forall_mem_cons.mp hrest
    have hcolumn : saveColumn data t e = .ok (t.put ⟨data.rowKey e.1, some e.2⟩) := by
      rw [saveColumn, if_neg (hfits.filled e he)]
      simp only [upsert, Data.rowKey, varchar_eq_ok hfits.modelName,
        varchar_eq_ok (hfits.columns e he), varchar_eq_ok hfits.keyID,
        varchar_eq_ok hfits.languageID]
      rfl
    obtain ⟨t', ht'⟩ := ih (t := t.put ⟨data.rowKey e.1, some e.2⟩) hrest
    refine ⟨t', ?_⟩
    rw [saveTranslation, foldlM_cons, hcolumn]
    exact ht'

theorem Memory.foldl_saveColumn_inhabited {key : String} {order : List (String × String)}
    (hs : s.Inhabited) : (order.foldl (saveColumn key) s).Inhabited := by
  induction order generalizing s with
  | nil => exact hs
  | cons e order ih => exact ih (saveColumn_inhabited hs e)

/-- A save writes the same columns to both stores, in whatever order the loops range. -/
theorem Agrees.save (h : Agrees subjects s t) (hapart : ToldApart subjects)
    (hfits : StoreCall.SaveFits data order)
    (hfits' : StoreCall.SaveFits data order')
    (hin : (data.modelName, data.keyID, data.language.code) ∈ subjects) :
    ∃ s' t', s.saveTranslation data order = .ok s' ∧ saveTranslation t data order' = .ok t' ∧
      Agrees subjects s' t' := by
  obtain ⟨t', ht'⟩ := saveTranslation_ok (t := t) hfits' fun e he => hfits'.ranges.mem_iff.mp he
  refine ⟨_, t', rfl, ht', ?_, Memory.foldl_saveColumn_inhabited h.inhabited,
    saveTranslation_filled h.filled ht'⟩
  intro m k l hsubject c
  have hnodup : (order.map Prod.fst).Nodup :=
    (hfits.ranges.map Prod.fst).nodup_iff.mpr hfits.distinct
  have hnodup' : (order'.map Prod.fst).Nodup :=
    (hfits'.ranges.map Prod.fst).nodup_iff.mpr hfits.distinct
  have hkept : data.Kept :=
    ⟨kept_of_length hfits.modelName, kept_of_length hfits.keyID, kept_of_length hfits.languageID⟩
  obtain ⟨hmem, hmemOut⟩ := Memory.get_foldl_saveColumn (s := s)
    (buildKey data.modelName data.keyID data.language.code) hnodup
  obtain ⟨hpg, hpgOut⟩ := saveTranslation_get hkept
    (fun e he => kept_of_length (hfits.columns e (hfits'.ranges.mem_iff.mp he))) hnodup' ht'
  by_cases hsaved : (m, k, l) = (data.modelName, data.keyID, data.language.code) ∧
      ∃ e ∈ data.columns, c = e.1
  · obtain ⟨heq, e, he, rfl⟩ := hsaved
    cases heq
    have hstored := hpg e (hfits'.ranges.mem_iff.mpr he)
    rw [Data.rowKey, stored, if_neg (hfits.filled e he)] at hstored
    rw [hmem e (hfits.ranges.mem_iff.mpr he), hstored]
    rfl
  · rw [hmemOut, hpgOut, h.same m k l hsubject c]
    · intro e he heq
      refine hsaved ⟨?_, e, hfits'.ranges.mem_iff.mp he, congrArg Key.columnName heq⟩
      cases heq
      rfl
    · intro heq e he hc
      exact hsaved ⟨hapart _ hsubject _ hin heq, e, hfits.ranges.mem_iff.mp he, hc⟩

theorem Agrees.run_save (h : Agrees subjects s t) (hapart : ToldApart subjects)
    (hfits : StoreCall.SaveFits data order)
    (hfits' : StoreCall.SaveFits data order')
    (hin : (data.modelName, data.keyID, data.language.code) ∈ subjects) :
    ((StoreCall.save data order).run memStore s).1 =
        ((StoreCall.save data order').run pgStore t).1 ∧
      Agrees subjects ((StoreCall.save data order).run memStore s).2
        ((StoreCall.save data order').run pgStore t).2 := by
  obtain ⟨s', t', hs', ht', hagrees⟩ := h.save hapart hfits hfits' hin
  simp only [StoreCall.run, memStore, pgStore, hs', ht', written]
  exact ⟨trivial, hagrees⟩

/-- One call on two stores that agree. -/
theorem Agrees.run (h : Agrees subjects s t) (hapart : ToldApart subjects)
    {call call' : StoreCall} (hsame : call.SameCall call') (hfits : call.Fits)
    (hfits' : call'.Fits) (hin : ∀ x ∈ call.subjects, x ∈ subjects) :
    (call.run memStore s).1 = (call'.run pgStore t).1 ∧
      Agrees subjects (call.run memStore s).2 (call'.run pgStore t).2 := by
  cases hsame with
  | save data _ => exact h.run_save hapart hfits hfits' (hin _ (mem_singleton_self _))
  | refl =>
    cases call with
    | save data order =>
      exact h.run_save hapart hfits hfits' (hin _ (mem_singleton_self _))
    | get m k lang =>
      exact ⟨congrArg StoreReply.columns (h.get_eq (hin _ (mem_singleton_self _))), h⟩
    | delete m k lang =>
      obtain ⟨err, hs', ht'⟩ | ⟨s', t', hs', ht', hagrees⟩ :=
        h.delete hapart (hin _ (mem_singleton_self _))
      · simp only [StoreCall.run, memStore, pgStore, hs', ht', written]
        exact ⟨trivial, h⟩
      · simp only [StoreCall.run, memStore, pgStore, hs', ht', written]
        exact ⟨trivial, hagrees⟩
    | check m k columns langs =>
      refine ⟨congrArg StoreReply.checked ?_, h⟩
      have hbinds : ¬ maxBinds < checkBinds columns langs := Nat.not_lt.mpr hfits.binds
      have hcheck := h.check_eq (fun lang hlang => hin _ (mem_map_of_mem hlang)) hfits
      exact hcheck.trans (if_neg hbinds).symm
    | batch m keyIDs lang =>
      refine ⟨congrArg StoreReply.batch ?_, h⟩
      have hbinds : ¬ maxBinds < keyIDs.length + 2 := Nat.not_lt.mpr hfits
      have hbatch := h.batch_eq fun k hk => hin _ (mem_map_of_mem hk)
      exact hbatch.trans (if_neg hbinds).symm

/-- Calls that fit are answered alike, from two stores that agree. -/
theorem Agrees.replies (h : Agrees subjects s t) (hapart : ToldApart subjects)
    {calls calls' : List StoreCall} (hsame : List.Forall₂ StoreCall.SameCall calls calls')
    (hfits : ∀ call ∈ calls, call.Fits) (hfits' : ∀ call ∈ calls', call.Fits)
    (hin : ∀ call ∈ calls, ∀ x ∈ call.subjects, x ∈ subjects) :
    StoreCall.replies memStore calls s = StoreCall.replies pgStore calls' t := by
  induction hsame generalizing s t with
  | nil => rfl
  | cons hcall _ ih =>
    obtain ⟨hfit, hfits⟩ := forall_mem_cons.mp hfits
    obtain ⟨hfit', hfits'⟩ := forall_mem_cons.mp hfits'
    obtain ⟨hin₁, hin⟩ := forall_mem_cons.mp hin
    obtain ⟨hreply, hagrees⟩ := h.run hapart hcall hfit hfit' hin₁
    rw [StoreCall.replies, StoreCall.replies, hreply, ih hagrees hfits hfits' hin]

end Simulation

/-- The in-memory store stands in for the Postgres one. -/
theorem memory_stands_in {calls calls' : List StoreCall}
    (hsame : List.Forall₂ StoreCall.SameCall calls calls')
    (hfits : ∀ call ∈ calls, call.Fits) (hfits' : ∀ call ∈ calls', call.Fits)
    (hapart : ToldApart {x | ∃ call ∈ calls, x ∈ call.subjects}) :
    StoreCall.replies memStore calls .new = StoreCall.replies pgStore calls' .empty :=
  Agrees.init.replies hapart hsame hfits hfits' fun call hcall _ hx => ⟨call, hcall, hx⟩

section Examples

/-- The reply of a call that failed or found something missing. -/
def StoreReply.failed : StoreReply → Bool
  | done err => err.isSome
  | columns res => !res.isOk
  | checked res => !res.isOk
  | batch res => !res.isOk

theorem replies_ne {calls : List StoreCall}
    (h : (StoreCall.replies memStore calls .new).map StoreReply.failed ≠
      (StoreCall.replies pgStore calls .empty).map StoreReply.failed) :
    StoreCall.replies memStore calls .new ≠ StoreCall.replies pgStore calls .empty :=
  fun heq => h (congrArg _ heq)

def titleOf (modelName keyID : String) (lang : Language) (title : String) : Data :=
  ⟨modelName, keyID, lang, [("title", title)]⟩

def cardTexts : Data := ⟨"card", "a:1", german, [("title", "Titel"), ("note", "Text")]⟩

/-- A save, every kind of lookup, and a delete. -/
def cardCalls (order : List (String × String)) : List StoreCall :=
  [.save cardTexts order, .get "card" "a:1" german, .batch "card" ["a:1", "b"] german,
    .check "card" "a:1" ["title", "text"] [german], .delete "card" "a:1" german,
    .get "card" "a:1" german]

theorem cardCalls_fit {order : List (String × String)} (h : order.Perm cardTexts.columns) :
    ∀ call ∈ cardCalls order, call.Fits := by
  have hfits : StoreCall.SaveFits cardTexts order :=
    ⟨h, by decide, by decide, by decide, by decide, by decide, by decide⟩
  simp only [cardCalls, forall_mem_cons]
  exact ⟨hfits, trivial, by unfold StoreCall.Fits; decide, ⟨by decide, by decide⟩, trivial,
    trivial, nofun⟩

theorem memory_stands_in_card :
    StoreCall.replies memStore (cardCalls cardTexts.columns) .new =
      StoreCall.replies pgStore (cardCalls cardTexts.columns.reverse) .empty ∧
    (StoreCall.replies memStore (cardCalls cardTexts.columns) .new).map StoreReply.failed =
      [false, false, false, true, false, true] := by
  refine ⟨memory_stands_in ?_ (cardCalls_fit (.refl _)) (cardCalls_fit (reverse_perm _)) ?_,
    by decide⟩
  · refine .cons (.save _ (reverse_perm _).symm) ?_
    simp only [List.forall₂_cons, StoreCall.SameCall.refl, List.forall₂_nil_left_iff, and_self]
  · have hapart : ∀ x ∈ (cardCalls cardTexts.columns).flatMap StoreCall.subjects,
        ∀ y ∈ (cardCalls cardTexts.columns).flatMap StoreCall.subjects,
          buildKey x.1 x.2.1 x.2.2 = buildKey y.1 y.2.1 y.2.2 → x = y := by decide
    rintro x ⟨call, hcall, hx⟩ y ⟨call', hcall', hy⟩
    exact hapart x (mem_flatMap.mpr ⟨call, hcall, hx⟩) y
      (mem_flatMap.mpr ⟨call', hcall', hy⟩)

theorem batch_refused {keyIDs : List String} (h : maxBinds < keyIDs.length + 2) :
    StoreCall.replies memStore [.batch "card" keyIDs german] .new ≠
      StoreCall.replies pgStore [.batch "card" keyIDs german] .empty := by
  refine replies_ne ?_
  simp only [StoreCall.replies, StoreCall.run, pgStore, if_pos h]
  exact (by decide : [false] ≠ [true])

/-- A language code that its column refuses, an empty value, two models under one key of the map,
two pairs of a check under one text, and a batch with too many keys for one statement. -/
theorem memory_differs :
    (let lang : Language := ⟨"de-DE-1996x", "Deutsch"⟩
     let calls := [.save (titleOf "card" "1" lang "Titel") [("title", "Titel")],
       .get "card" "1" lang]
     StoreCall.replies memStore calls .new ≠ StoreCall.replies pgStore calls .empty) ∧
    (let calls := [.save (titleOf "card" "1" german "") [("title", "")], .get "card" "1" german]
     StoreCall.replies memStore calls .new ≠ StoreCall.replies pgStore calls .empty) ∧
    (let calls := [.save (titleOf "a:b" "c" german "Titel") [("title", "Titel")],
       .get "a" "b:c" german]
     StoreCall.replies memStore calls .new ≠ StoreCall.replies pgStore calls .empty) ∧
    (let lang : Language := ⟨"de|de", "Deutsch"⟩
     let calls := [.save ⟨"card", "1", german, [("x", "A"), ("x|de", "B")]⟩
         [("x", "A"), ("x|de", "B")], .save ⟨"card", "1", lang, [("x|de", "C")]⟩ [("x|de", "C")],
       .check "card" "1" ["x", "x|de"] [german, lang]]
     StoreCall.replies memStore calls .new ≠ StoreCall.replies pgStore calls .empty) ∧
    (let calls := [.batch "card" (List.replicate 65534 "1") german]
     StoreCall.replies memStore calls .new ≠ StoreCall.replies pgStore calls .empty) := by
  refine ⟨replies_ne ?_, replies_ne ?_, replies_ne ?_, replies_ne ?_, batch_refused ?_⟩
  · decide
  · decide
  · decide
  · decide
  · rw [length_replicate]
    decide

end Examples

end Skit.Translation
