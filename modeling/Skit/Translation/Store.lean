import Skit.Basic
import Skit.Lib.Loop
import Mathlib.Data.List.Pairwise
import Mathlib.Tactic.SplitIfs

/-!
# The table of translations

`translations` with the statements of `translationpg.Store`. The primary key is a field of
`Table`, and the proofs see a table as the function `Table.get` of its keys. A name or a key that
is longer than its column is refused, unless it is so only by spaces: these are dropped.
-/
namespace Skit.Translation
open List

structure Language where
  code : String
  name : String
  deriving DecidableEq, Repr

def errTranslationNotFound : Err := .sentinel "translation not found"

/-- The primary key. -/
structure Key where
  modelName : String
  columnName : String
  keyID : String
  languageID : String
  deriving DecidableEq, Repr

/-- A row; `translation_value` may be NULL. -/
structure Row extends Key where
  value : Option String
  deriving DecidableEq, Repr

structure Table where
  rows : List Row
  unique : rows.Pairwise fun r r' => r.toKey ≠ r'.toKey

namespace Table

def empty : Table := ⟨[], .nil⟩

/-- The value in the row of the key. -/
def get (t : Table) (k : Key) : Option (Option String) :=
  (t.rows.find? (·.toKey = k)).map Row.value

/-- `ON CONFLICT … DO UPDATE`. -/
def put (t : Table) (row : Row) : Table where
  rows := row :: t.rows.filter (·.toKey ≠ row.toKey)
  unique := by
    refine pairwise_cons.mpr ⟨fun r hr => ?_, t.unique.filter _⟩
    have hne : r.toKey ≠ row.toKey := by simpa using (mem_filter.mp hr).2
    exact hne.symm

def delete (t : Table) (k : Key) : Table where
  rows := t.rows.filter (·.toKey ≠ k)
  unique := t.unique.filter _

variable {t : Table} {k k' : Key}

@[simp] theorem get_empty : empty.get k = none := rfl

theorem get_delete : (t.delete k).get k' = if k' = k then none else t.get k' := by
  unfold get delete
  rw [find?_filter]
  split
  · next h =>
    subst h
    simp
  · next h =>
    congr 2
    funext r
    by_cases hr : r.toKey = k'
    · simp [hr, h]
    · simp [hr]

theorem get_put {row : Row} :
    (t.put row).get k = if k = row.toKey then some row.value else t.get k := by
  have hdel : ((t.rows.filter (·.toKey ≠ row.toKey)).find? (·.toKey = k)).map Row.value =
      (t.delete row.toKey).get k := rfl
  unfold get put
  rw [find?_cons]
  by_cases h : k = row.toKey
  · simp [h]
  · simp only [Ne.symm h, decide_false, hdel, get_delete, if_neg h]
    rfl

theorem get_eq_of_mem {row : Row} (h : row ∈ t.rows) : t.get row.toKey = some row.value := by
  have hex : (t.rows.find? (·.toKey = row.toKey)).isSome := by
    rw [find?_isSome]
    exact ⟨row, h, by simp⟩
  obtain ⟨r, hr⟩ := Option.isSome_iff_exists.mp hex
  have hkey : r.toKey = row.toKey := by simpa using find?_some hr
  have : Std.Symm fun r r' : Row => r.toKey ≠ r'.toKey := ⟨fun _ _ => Ne.symm⟩
  have heq : r = row := by
    by_contra hne
    exact t.unique.forall (mem_of_find?_eq_some hr) h hne hkey
  rw [get, hr, heq]
  rfl

theorem exists_mem_of_get {v : Option String} (h : t.get k = some v) :
    ∃ row ∈ t.rows, row.toKey = k ∧ row.value = v := by
  obtain ⟨row, hrow, rfl⟩ := Option.map_eq_some_iff.mp h
  exact ⟨row, mem_of_find?_eq_some hrow, by simpa using find?_some hrow, rfl⟩

end Table

section Statements

/-- What a `VARCHAR(n)` column takes. -/
def varchar (n : Nat) (s : String) : Except Err String :=
  if s.length ≤ n then .ok s
  else if (s.toList.drop n).all (· = ' ') then .ok (String.ofList (s.toList.take n))
  else .error (.text ("value too long for type character varying(" ++ toString n ++ ")"))

structure Data where
  modelName : String
  keyID : String
  language : Language
  columns : List (String × String)
  deriving DecidableEq, Repr

def Data.rowKey (data : Data) (column : String) : Key :=
  ⟨data.modelName, column, data.keyID, data.language.code⟩

/-- The `INSERT` of a translation. -/
def upsert (t : Table) (k : Key) (value : String) : Except Err Table := do
  let modelName ← varchar 100 k.modelName
  let columnName ← varchar 100 k.columnName
  let keyID ← varchar 255 k.keyID
  let languageID ← varchar 10 k.languageID
  return t.put ⟨⟨modelName, columnName, keyID, languageID⟩, some value⟩

def saveColumn (data : Data) (t : Table) (entry : String × String) : Except Err Table :=
  if entry.2 = "" then .ok (t.delete (data.rowKey entry.1))
  else
    match upsert t (data.rowKey entry.1) entry.2 with
    | .ok t' => .ok t'
    | .error err => .error (.wrap ("save column " ++ entry.1 ++ ": " ++ err.error) err)

/-- `SaveTranslation` with the columns in the order in which the loop ranges over them. An error
leaves the table as it was: the statements are those of one transaction. -/
def saveTranslation (t : Table) (data : Data) (order : List (String × String)) :
    Except Err Table :=
  order.foldlM (saveColumn data) t

/-- The rows of a model in a language. -/
def Table.select (t : Table) (modelName keyID languageID : String) : List Row :=
  t.rows.filter fun r =>
    r.modelName = modelName && r.keyID = keyID && r.languageID = languageID

/-- The scan of a NULL into a Go string. -/
def errScanNull : Err := .text "converting NULL to string is unsupported"

/-- The map of the columns to the values. -/
def columnsOf (rows : List Row) (column : String) : Option String :=
  (rows.find? (·.columnName = column)).map fun r => r.value.getD ""

def getTranslations (t : Table) (modelName keyID : String) (lang : Language) :
    Except Err (String → Option String) :=
  let rows := t.select modelName keyID lang.code
  if rows.any (·.value.isNone) then
    .error (.wrap ("get translations: " ++ errScanNull.error) errScanNull)
  else if rows = [] then .error errTranslationNotFound
  else .ok (columnsOf rows)

/-- `DeleteTranslations`, an error if there was nothing to delete. -/
def deleteTranslations (t : Table) (modelName keyID : String) (lang : Language) :
    Except Err Table :=
  if t.select modelName keyID lang.code = [] then .error errTranslationNotFound
  else .ok
    { rows := t.rows.filter fun r =>
        !(r.modelName = modelName && r.keyID = keyID && r.languageID = lang.code)
      unique := t.unique.filter _ }

/-- The maps of the keys that have rows. -/
def getTranslationsBatch (t : Table) (modelName : String) (keyIDs : List String)
    (lang : Language) : Except Err (String → Option (String → Option String)) :=
  let rows := t.rows.filter fun r =>
    r.modelName = modelName && r.languageID = lang.code && r.keyID ∈ keyIDs
  if rows.any (·.value.isNone) then
    .error (.wrap ("query batch translations: " ++ errScanNull.error) errScanNull)
  else .ok fun keyID =>
    match rows.filter (·.keyID = keyID) with
    | [] => none
    | rows => some (columnsOf rows)

/-- How `CheckTranslationsExist` fails: with a `MissingTranslationsError`, whose map lists the
columns with the languages that were appended for them, or with another error. -/
inductive CheckError
  | missing (pairs : List (String × String))
  | failed (err : Err)
  deriving DecidableEq, Repr

/-- `translation_value <> ''`, which a NULL does not satisfy. -/
def Row.filled (r : Row) : Bool := r.value.any (· ≠ "")

/-- The keys of the map `filled`. -/
def filledPairs (t : Table) (modelName keyID : String) (columns langCodes : List String) :
    List String :=
  let rows := t.rows.filter fun r => r.modelName = modelName && r.keyID = keyID &&
    r.columnName ∈ columns && r.languageID ∈ langCodes && r.filled
  rows.map fun r => r.columnName ++ "|" ++ r.languageID

def missingPairs (columns langCodes filled : List String) : List (String × String) :=
  columns.flatMap fun column =>
    (langCodes.filter fun code => column ++ "|" ++ code ∉ filled).map fun code => (column, code)

def checkTranslationsExist (t : Table) (modelName keyID : String) (columns : List String)
    (langs : List Language) : Except CheckError Unit :=
  if columns = [] ∨ langs = [] then .ok ()
  else
    let langCodes := langs.map Language.code
    let filled := filledPairs t modelName keyID columns langCodes
    let missing := missingPairs columns langCodes filled
    if missing = [] then .ok () else .error (.missing missing)

end Statements

section Effects

variable {t t' : Table} {data : Data} {entry : String × String} {order : List (String × String)}

theorem mem_select {r : Row} {m k l : String} :
    r ∈ t.select m k l ↔ r ∈ t.rows ∧ r.modelName = m ∧ r.keyID = k ∧ r.languageID = l := by
  simp [Table.select, and_assoc]

theorem columnsOf_select (t : Table) (m k l c : String) :
    columnsOf (t.select m k l) c = (t.get ⟨m, c, k, l⟩).map (·.getD "") := by
  unfold columnsOf Table.select Table.get
  rw [find?_filter, Option.map_map]
  congr 2
  funext r
  obtain ⟨⟨m', c', k', l'⟩, v⟩ := r
  simp only [Key.mk.injEq, ← Bool.decide_and, decide_eq_decide, decide_eq_true_eq]
  tauto

theorem select_eq_nil_iff (t : Table) (m k l : String) :
    t.select m k l = [] ↔ ∀ c, t.get ⟨m, c, k, l⟩ = none := by
  rw [eq_nil_iff_forall_not_mem]
  constructor
  · intro h c
    cases hc : t.get ⟨m, c, k, l⟩ with
    | none => rfl
    | some v =>
      obtain ⟨row, hrow, hkey, -⟩ := Table.exists_mem_of_get hc
      exact absurd (mem_select.mpr ⟨hrow, by simp [hkey]⟩) (h row)
  · intro h row hrow
    obtain ⟨hmem, rfl, rfl, rfl⟩ := mem_select.mp hrow
    have := h row.columnName
    rw [Table.get_eq_of_mem hmem] at this
    cases this

/-- The rows that the statements of a lookup scan hold no NULL. -/
theorem select_all_some_iff (t : Table) (m k l : String) :
    (t.select m k l).any (·.value.isNone) = false ↔ ∀ c, t.get ⟨m, c, k, l⟩ ≠ some none := by
  rw [any_eq_false]
  constructor
  · intro h c hc
    obtain ⟨row, hrow, hkey, hv⟩ := Table.exists_mem_of_get hc
    refine h row (mem_select.mpr ⟨hrow, ?_⟩) (by simp [hv])
    simp [hkey]
  · intro h row hrow hnone
    obtain ⟨hmem, rfl, rfl, rfl⟩ := mem_select.mp hrow
    refine h row.columnName ?_
    have := Table.get_eq_of_mem hmem
    rw [Option.isNone_iff_eq_none.mp hnone] at this
    exact this

/-- A batch scans the rows of a lookup of each of its keys. -/
theorem getTranslationsBatch_spec (t : Table) (m : String) (ks : List String) (lang : Language) :
    (∃ err, getTranslationsBatch t m ks lang = .error err ∧
      ∃ k ∈ ks, (t.select m k lang.code).any (·.value.isNone) = true) ∨
    ∃ batch, getTranslationsBatch t m ks lang = .ok batch ∧
      ∀ k ∈ ks, (t.select m k lang.code).any (·.value.isNone) = false ∧
        batch k = if t.select m k lang.code = [] then none
          else some (columnsOf (t.select m k lang.code)) := by
  unfold getTranslationsBatch
  generalize hrows : (t.rows.filter fun r =>
    r.modelName = m && r.languageID = lang.code && r.keyID ∈ ks) = rows
  have hmem : ∀ r, r ∈ rows ↔ r.keyID ∈ ks ∧ r ∈ t.select m r.keyID lang.code := by
    intro r
    simp only [← hrows, mem_filter, mem_select, Bool.and_eq_true, decide_eq_true_eq]
    tauto
  dsimp only
  cases hany : rows.any (·.value.isNone) with
  | true =>
    obtain ⟨r, hr, hnone⟩ := any_eq_true.mp hany
    obtain ⟨hk, hsel⟩ := (hmem r).mp hr
    exact .inl ⟨_, rfl, r.keyID, hk, any_eq_true.mpr ⟨r, hsel, hnone⟩⟩
  | false =>
    refine .inr ⟨_, rfl, fun k hk => ⟨?_, ?_⟩⟩
    · rw [any_eq_false] at hany ⊢
      intro r hr
      obtain rfl := (mem_select.mp hr).2.2.1
      exact hany r ((hmem r).mpr ⟨hk, hr⟩)
    · have hself : rows.filter (·.keyID = k) = t.select m k lang.code := by
        rw [← hrows, filter_filter, Table.select]
        refine filter_congr fun r _ => ?_
        by_cases hrk : r.keyID = k
        · simp [hrk, hk]
        · simp [hrk]
      simp only [hself]
      cases t.select m k lang.code <;> simp

/-- A batch of one key scans the rows of a single lookup. -/
theorem getTranslationsBatch_singleton (t : Table) (m k : String) (lang : Language) :
    (∃ err, (∃ c, t.get ⟨m, c, k, lang.code⟩ = some none) ∧
      getTranslationsBatch t m [k] lang = .error err) ∨
    ∃ batch, (∀ c, t.get ⟨m, c, k, lang.code⟩ ≠ some none) ∧
      getTranslationsBatch t m [k] lang = .ok batch ∧
      batch k = if t.select m k lang.code = [] then none
        else some (columnsOf (t.select m k lang.code)) := by
  obtain ⟨err, herr, k', hk', hany⟩ | ⟨batch, hok, hkeys⟩ :=
    getTranslationsBatch_spec t m [k] lang
  · obtain rfl := mem_singleton.mp hk'
    refine .inl ⟨err, ?_, herr⟩
    by_contra hno
    rw [(select_all_some_iff t m k' lang.code).mpr (not_exists.mp hno)] at hany
    cases hany
  · obtain ⟨hany, hbatch⟩ := hkeys k (mem_singleton.mpr rfl)
    exact .inr ⟨batch, (select_all_some_iff t m k lang.code).mp hany, hok, hbatch⟩

/-- A text that its column keeps as it is, or refuses. -/
def Kept (n : Nat) (s : String) : Prop := ∀ s', varchar n s = .ok s' → s' = s

theorem kept_of_last {s : String} (n : Nat) (hs : s.toList.getLast? ≠ some ' ') : Kept n s := by
  intro s' h
  unfold varchar at h
  split_ifs at h with hlen hsp
  · cases h
    rfl
  · exfalso
    have hlen' : ¬ s.toList.length ≤ n := by rwa [String.length_toList]
    have hlast : (s.toList.drop n).getLast? = s.toList.getLast? := by
      rw [getLast?_drop, if_neg hlen']
    cases hc : s.toList.getLast? with
    | none =>
      rw [getLast?_eq_none_iff.mp hc] at hlen'
      exact hlen' (Nat.zero_le n)
    | some c =>
      have hmem := mem_of_getLast? (hlast.trans hc)
      have hspace : c = ' ' := by simpa using all_eq_true.mp hsp c hmem
      rw [hspace] at hc
      exact hs hc

/-- The names in the rows of a save are those that were given. -/
structure Data.Kept (data : Data) : Prop where
  modelName : Translation.Kept 100 data.modelName
  keyID : Translation.Kept 255 data.keyID
  languageID : Translation.Kept 10 data.language.code

/-- What a row holds after a value was saved; an empty one is no translation. -/
def stored (value : String) : Option (Option String) :=
  if value = "" then none else some (some value)

theorem upsert_eq_ok {k : Key} {v : String} (h : upsert t k v = .ok t') :
    ∃ m c i l, varchar 100 k.modelName = .ok m ∧ varchar 100 k.columnName = .ok c ∧
      varchar 255 k.keyID = .ok i ∧ varchar 10 k.languageID = .ok l ∧
      t' = t.put ⟨⟨m, c, i, l⟩, some v⟩ := by
  unfold upsert at h
  cases hm : varchar 100 k.modelName with
  | error e => rw [hm] at h; cases h
  | ok m =>
    cases hc : varchar 100 k.columnName with
    | error e => rw [hm, hc] at h; cases h
    | ok c =>
      cases hi : varchar 255 k.keyID with
      | error e => rw [hm, hc, hi] at h; cases h
      | ok i =>
        cases hl : varchar 10 k.languageID with
        | error e => rw [hm, hc, hi, hl] at h; cases h
        | ok l =>
          rw [hm, hc, hi, hl] at h
          cases h
          exact ⟨m, c, i, l, rfl, rfl, rfl, rfl, rfl⟩

theorem saveColumn_eq_ok (h : saveColumn data t entry = .ok t') :
    (entry.2 = "" ∧ t' = t.delete (data.rowKey entry.1)) ∨
      entry.2 ≠ "" ∧ upsert t (data.rowKey entry.1) entry.2 = .ok t' := by
  unfold saveColumn at h
  split at h
  · next he =>
    cases h
    exact .inl ⟨he, rfl⟩
  · next he =>
    split at h
    · next t₁ ht₁ =>
      cases h
      exact .inr ⟨he, ht₁⟩
    · cases h

theorem saveColumn_get (hkept : data.Kept)
    (hcol : Kept 100 entry.1) (h : saveColumn data t entry = .ok t') (k : Key) :
    t'.get k = if k = data.rowKey entry.1 then stored entry.2 else t.get k := by
  obtain ⟨he, rfl⟩ | ⟨he, hup⟩ := saveColumn_eq_ok h
  · rw [Table.get_delete, stored, if_pos he]
  · obtain ⟨m, c, i, l, hm, hc, hi, hl, rfl⟩ := upsert_eq_ok hup
    have hkey : data.rowKey entry.1 = ⟨m, c, i, l⟩ := by
      rw [hkept.modelName m hm, hcol c hc, hkept.keyID i hi, hkept.languageID l hl]
      rfl
    rw [Table.get_put, stored, if_neg he, hkey]

theorem saveTranslation_get (hkept : data.Kept)
    (hcols : ∀ e ∈ order, Kept 100 e.1) (hnodup : (order.map Prod.fst).Nodup)
    (h : saveTranslation t data order = .ok t') :
    (∀ e ∈ order, t'.get (data.rowKey e.1) = stored e.2) ∧
      ∀ k, (∀ e ∈ order, k ≠ data.rowKey e.1) → t'.get k = t.get k := by
  induction order generalizing t with
  | nil =>
    cases h
    exact ⟨by simp, fun k _ => rfl⟩
  | cons e order ih =>
    unfold saveTranslation at h
    rw [foldlM_cons] at h
    cases he : saveColumn data t e with
    | error err => rw [he] at h; cases h
    | ok t₁ =>
      rw [he] at h
      obtain ⟨hnot, hnodup⟩ := nodup_cons.mp hnodup
      obtain ⟨hin, hout⟩ := ih (fun e' he' => hcols e' (mem_cons_of_mem _ he')) hnodup h
      have hget := saveColumn_get hkept (hcols e mem_cons_self) he
      have hne : ∀ e' ∈ order, data.rowKey e.1 ≠ data.rowKey e'.1 := by
        intro e' he' heq
        have : e.1 = e'.1 := congrArg Key.columnName heq
        exact hnot (this ▸ mem_map_of_mem he')
      constructor
      · intro e' he'
        rcases mem_cons.mp he' with rfl | he'
        · rw [hout _ hne, hget, if_pos rfl]
        · exact hin e' he'
      · intro k hk
        rw [hout k fun e' he' => hk e' (mem_cons_of_mem _ he'), hget,
          if_neg (hk e mem_cons_self)]

/-- The table has a text under the key. -/
def HasText (t : Table) (k : Key) : Prop := ∃ s, s ≠ "" ∧ t.get k = some (some s)

theorem Row.filled_iff {r : Row} : r.filled = true ↔ ∃ s, s ≠ "" ∧ r.value = some s := by
  unfold Row.filled
  cases r.value with
  | none => simp
  | some s => simp

/-- A pair is found if it has a text, where its column and code can be told from the others. -/
theorem mem_filledPairs_iff {m k c code : String} {columns langCodes : List String}
    (hc : c ∈ columns) (hcode : code ∈ langCodes)
    (hinj : ∀ c' ∈ columns, ∀ l ∈ langCodes, c' ++ "|" ++ l = c ++ "|" ++ code →
      c' = c ∧ l = code) :
    c ++ "|" ++ code ∈ filledPairs t m k columns langCodes ↔ HasText t ⟨m, c, k, code⟩ := by
  constructor
  · intro hmem
    obtain ⟨r, hr, heq⟩ := mem_map.mp hmem
    simp only [mem_filter, Bool.and_eq_true, decide_eq_true_eq] at hr
    obtain ⟨hrow, ⟨⟨⟨rfl, rfl⟩, hcol⟩, hl⟩, hfill⟩ := hr
    obtain ⟨rfl, rfl⟩ := hinj _ hcol _ hl heq
    obtain ⟨s, hs, hv⟩ := Row.filled_iff.mp hfill
    exact ⟨s, hs, hv ▸ Table.get_eq_of_mem hrow⟩
  · rintro ⟨s, hs, hget⟩
    obtain ⟨r, hrow, hkey, hv⟩ := Table.exists_mem_of_get hget
    refine mem_map.mpr ⟨r, ?_, by rw [hkey]⟩
    simp [hrow, hkey, hc, hcode, Row.filled_iff.mpr ⟨s, hs, hv⟩]

theorem checkTranslationsExist_eq (t : Table) (m k : String) (columns : List String)
    (langs : List Language) :
    checkTranslationsExist t m k columns langs =
      let missing := missingPairs columns (langs.map Language.code)
        (filledPairs t m k columns (langs.map Language.code))
      if missing = [] then .ok () else .error (.missing missing) := by
  unfold checkTranslationsExist
  split
  · next hnil =>
    have hempty : missingPairs columns (langs.map Language.code)
        (filledPairs t m k columns (langs.map Language.code)) = [] := by
      rcases hnil with rfl | rfl <;> simp [missingPairs]
    exact (if_pos hempty).symm
  · rfl

/-- The tables that saves write: every row has a text. -/
def Table.Filled (t : Table) : Prop := ∀ k v, t.get k = some v → ∃ s, v = some s ∧ s ≠ ""

theorem saveTranslation_filled (ht : t.Filled)
    (h : saveTranslation t data order = .ok t') : t'.Filled := by
  refine Lib.foldlM_invariant Table.Filled (fun e _ t₁ t₂ ht₁ hround => ?_) ht h
  intro k v hv
  obtain ⟨-, rfl⟩ | ⟨he, hup⟩ := saveColumn_eq_ok hround
  · rw [Table.get_delete] at hv
    split at hv
    · cases hv
    · exact ht₁ k v hv
  · obtain ⟨m, c, i, l, -, -, -, -, rfl⟩ := upsert_eq_ok hup
    rw [Table.get_put] at hv
    split at hv
    · cases hv
      exact ⟨e.2, rfl, he⟩
    · exact ht₁ k v hv

end Effects

end Skit.Translation
