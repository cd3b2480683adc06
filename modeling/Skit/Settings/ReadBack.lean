import Skit.Basic
import Skit.Lib.GoMerge

/-!
# Settings and their documents

Settings of a type are one JSON document of the table `settings`. A read decodes the stored
document over a fresh copy of the defaults. What it makes of a saved value is
`read_after_save`: the value itself, unless a map of the defaults has a key that the value lacks
at the same place, or a pointer of the value leads to a nil pointer.
-/
namespace Skit

open Lib Lib.GoJson

variable {N : Type}

/-- `Settings[T]` for the type `t`. -/
structure Settings (E : Types N) (t : Ty N) where
  name : String
  defaults : Json Int

namespace Settings

/-- The column `value`: it gives back a document that is equal to the one it was given. -/
structure Jsonb where
  stored : Json Int → Json Int
  equal : ∀ j, j.distinct = true → docOf (stored j) = docOf j
  distinct : ∀ j, j.distinct = true → (stored j).distinct = true

/-- The table `settings`. -/
abbrev Table := String → Option (Json Int)

/-- What `dbx.NamedQueryOne` answers. -/
inductive Reply
  | found (stored : Json Int)
  | notFound
  | failed (err : Err)

/-- `SELECT value FROM settings WHERE name = :name`. -/
def Table.select (table : Table) (name : String) : Reply :=
  match table name with
  | some stored => .found stored
  | none => .notFound

/-- `INSERT INTO settings … ON CONFLICT (name) DO UPDATE SET value = EXCLUDED.value`. -/
def Table.upsert (table : Table) (name : String) (value : Json Int) : Table :=
  fun name' => if name' = name then some value else table name'

theorem Table.select_upsert (table : Table) (name : String) (value : Json Int) :
    (table.upsert name value).select name = .found value := by
  simp only [select, upsert, if_true]

variable {E : Types N} {t : Ty N}

def read (s : Settings E t) (reply : Reply) : Except Err Val :=
  match unmarshal E s.defaults t (E.zero t) with
  | .error err => .error (.text ("settings " ++ s.name ++ ": decode the defaults: " ++ err))
  | .ok v =>
    match reply with
    | .notFound => .ok v
    | .failed err => .error (.wrap ("settings " ++ s.name ++ ": read: " ++ err.error) err)
    | .found stored =>
      match unmarshal E stored t v with
      | .error err => .error (.text ("settings " ++ s.name ++ ": decode: " ++ err))
      | .ok v => .ok v

/-- `New`, with the answer to its read: the settings and the first value of their poller. -/
def new (E : Types N) (t : Ty N) (name : String) (defaults : Val) (reply : Reply) :
    Except Err (Settings E t × Val) :=
  if name = "" then .error (.text "settings: no name")
  else
    let s : Settings E t := ⟨name, marshal defaults⟩
    match s.read reply with
    | .error err => .error err
    | .ok v => .ok (s, v)

/-- `Save` up to its poll: the error of the statement, if it fails, or the table after it. -/
def save (s : Settings E t) (column : Jsonb) (v : Val) (failed : Option Err)
    (table : Table) : Except Err Table :=
  match failed with
  | some err => .error (.wrap ("settings " ++ s.name ++ ": save: " ++ err.error) err)
  | none => .ok (table.upsert s.name (column.stored (marshal v)))

theorem save_ok (s : Settings E t) (column : Jsonb) (v : Val) (table : Table) :
    s.save column v none table = .ok (table.upsert s.name (column.stored (marshal v))) := rfl

section Read

theorem unmarshal_defaults {d : Val} (hd : HasType E d t) :
    ∃ d', unmarshal E (marshal d) t (E.zero t) = .ok d' ∧ HasType E d' t ∧ d'.doc = d.doc := by
  have hdistinct := distinct_marshal hd
  obtain ⟨d', hd', htd', -, hdoc⟩ := reads hd _ (E.hasType_zero t) (marshal d) hdistinct rfl
  exact ⟨d', by rw [unmarshal, if_pos hdistinct, hd'], htd', hdoc rfl⟩

variable {s : Settings E t}

theorem read_found {d v : Val} (hs : s.defaults = marshal d)
    (hd : HasType E d t) (hv : HasType E v t) {j : Json Int} (hj : j.distinct = true)
    (hdoc : docOf j = v.doc) :
    ∃ w, s.read (.found j) = .ok w ∧ HasType E w t ∧ (w.view = v.view ↔ Covers d.doc v) := by
  obtain ⟨d', hd', htd', hdoc'⟩ := unmarshal_defaults hd
  obtain ⟨w, hw, htw, hview, -⟩ := reads hv d' htd' j hj hdoc
  refine ⟨w, ?_, htw, hdoc' ▸ hview⟩
  have hj' : unmarshal E j t d' = .ok w := by rw [unmarshal, if_pos hj, hw]
  simp only [read, hs, hd', hj']

theorem new_eq_ok {name : String} {d : Val} {reply : Reply} {v : Val}
    (h : new E t name d reply = .ok (s, v)) :
    s = ⟨name, marshal d⟩ ∧ s.read reply = .ok v := by
  simp only [new] at h
  split at h
  · cases h
  · split at h
    · cases h
    · next hread =>
      cases h
      exact ⟨rfl, hread⟩

end Read

section Limits

/-- `type Limits struct { MaxWithdrawal int64; Regions map[string]int64 }`. -/
def limitTypes : Types Unit where
  fields _ := [("max_withdrawal", .int (2 ^ 63) (2 ^ 63 - 1)),
    ("regions", .map (.int (2 ^ 63) (2 ^ 63 - 1)))]
  distinct _ := by decide
  rank _ := 0
  contains _ _ name h := by simp at h

def limits (maxWithdrawal : Int) (regions : List (String × Val)) : Val :=
  .struct [("max_withdrawal", .int maxWithdrawal), ("regions", .map regions)]

/-- A column that keeps the text of its documents. -/
def verbatim : Jsonb := ⟨id, fun _ _ => rfl, fun _ h => h⟩

def limitSettings (defaults : Val) : Settings limitTypes (.struct ()) :=
  ⟨"limits", marshal defaults⟩

def region (name : String) : List (String × Val) := [(name, .int 1)]

theorem hasType_limits {n : Int} (hl : -2 ^ 63 ≤ n) (hu : n < 2 ^ 63) (name : String) :
    HasType limitTypes (limits n (region name)) (.struct ()) := by
  have hn : HasType limitTypes (.int n) (.int (2 ^ 63) (2 ^ 63 - 1)) :=
    .int (by push_cast; omega) (by push_cast; omega)
  have hregion : HasType limitTypes (.map (region name)) (.map (.int (2 ^ 63) (2 ^ 63 - 1))) := by
    refine .map (List.nodup_singleton name) fun e he => ?_
    rw [List.mem_singleton.mp he]
    exact .int (by decide) (by decide)
  refine .struct rfl fun field v t hv ht => ?_
  by_cases h1 : field = "max_withdrawal"
  · subst h1
    cases hv
    cases ht
    exact hn
  · by_cases h2 : field = "regions"
    · subst h2
      cases hv
      cases ht
      exact hregion
    · have hnone : (limitTypes.fields ()).lookup field = none := by
        simp [limitTypes, List.lookup_cons, beq_false_of_ne h1, beq_false_of_ne h2]
      rw [hnone] at ht
      cases ht

theorem covers_limits (m n : Int) (name : String) :
    Covers (limits m (region name)).doc (limits n (region name)) := by
  have hregion : Covers (Val.map (region name)).doc (.map (region name)) := by
    refine .map (fun k hk h => ?_) fun k v hv => ?_
    · rw [member_doc_map, h] at hk
      exact hk rfl
    · have hmem := mem_of_lookup hv
      cases List.mem_singleton.mp hmem
      exact .int
  refine .struct fun field v hv => ?_
  rw [limits, member_doc_struct]
  have hmem := mem_of_lookup hv
  rcases List.mem_cons.mp hmem with h | h
  · cases h
    exact .int
  · cases List.mem_singleton.mp h
    exact hregion

end Limits

/-- What a read finds after a `Save` that succeeded. -/
theorem read_after_save (column : Jsonb) {name : String} {d v first : Val} {reply : Reply}
    {s : Settings E t} {table saved : Table} (hd : HasType E d t) (hv : HasType E v t)
    (hnew : new E t name d reply = .ok (s, first))
    (hsave : s.save column v none table = .ok saved) :
    ∃ w, s.read (saved.select s.name) = .ok w ∧ HasType E w t ∧
      (w.view = v.view ↔ Covers d.doc v) := by
  obtain ⟨rfl, -⟩ := new_eq_ok hnew
  rw [save_ok] at hsave
  cases hsave
  have hdistinct := distinct_marshal hv
  rw [Table.select_upsert]
  exact read_found rfl hd hv (column.distinct _ hdistinct) (column.equal _ hdistinct)

/-- Limits that keep the region of the defaults are read back as they were saved. -/
theorem read_after_save_limits :
    ∃ s first saved w, new limitTypes (.struct ()) "limits" (limits 100 (region "kz")) .notFound =
        .ok (s, first) ∧
      s.save verbatim (limits 5 (region "kz")) none (fun _ => none) = .ok saved ∧
      s.read (saved.select s.name) = .ok w ∧ w.view = (limits 5 (region "kz")).view := by
  have hd := hasType_limits (n := 100) (by decide) (by decide) "kz"
  have hv := hasType_limits (n := 5) (by decide) (by decide) "kz"
  obtain ⟨first, hfirst, -⟩ := unmarshal_defaults hd
  have hnew : new limitTypes (.struct ()) "limits" (limits 100 (region "kz")) .notFound =
      .ok (limitSettings (limits 100 (region "kz")), first) := by
    simp only [new, read, hfirst]
    rfl
  have hsave := save_ok (limitSettings (limits 100 (region "kz"))) verbatim
    (limits 5 (region "kz")) fun _ => none
  obtain ⟨w, hw, -, hview⟩ := read_after_save verbatim hd hv hnew hsave
  exact ⟨_, first, _, w, hnew, hsave, hw, hview.mpr (covers_limits 100 5 "kz")⟩

/-- A region that the saved limits lack comes back from the defaults. -/
theorem removed_region_comes_back :
    ∃ s first saved w, HasType limitTypes (limits 100 (region "kz")) (.struct ()) ∧
      HasType limitTypes (limits 5 (region "kg")) (.struct ()) ∧
      new limitTypes (.struct ()) "limits" (limits 100 (region "kz")) .notFound = .ok (s, first) ∧
      s.save verbatim (limits 5 (region "kg")) none (fun _ => none) = .ok saved ∧
      s.read (saved.select s.name) = .ok w ∧ w.view ≠ (limits 5 (region "kg")).view := by
  refine ⟨_, _, _, limits 5 [("kz", .int 1), ("kg", .int 1)],
    hasType_limits (by decide) (by decide) "kz", hasType_limits (by decide) (by decide) "kg",
    rfl, rfl, rfl, fun h => ?_⟩
  have hregions := congrFun (View.record.inj h) "regions"
  have hkz := congrFun (View.record.inj (Option.some.inj hregions)) "kz"
  exact Option.some_ne_none _ hkz

end Settings

end Skit
