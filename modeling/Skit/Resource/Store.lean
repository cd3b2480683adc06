import Skit.Basic
import Mathlib.Algebra.Group.Nat.Defs
import Mathlib.Data.List.Basic

/-!
# The store of a generated resource

A row of the table that the store of a generated resource reads and writes. The id is the number of
a `uuid.UUID`, most significant byte first, so that its order is the one of the bytes. A
`timestamptz` is in microseconds.
-/
namespace Skit.Resource

abbrev UUID := Fin (2 ^ 128)

/-- The last `w` digits in base sixteen. -/
def hexDigits : Nat → Nat → List Char
  | 0, _ => []
  | w + 1, n => hexDigits w (n / 16) ++ [(n % 16).digitChar]

/-- `UUID.String`: groups of 8, 4, 4, 4 and 12 digits. -/
def UUID.string (id : UUID) : List Char :=
  let h := hexDigits 32 id
  [h.take 8, ['-'], (h.drop 8).take 4, ['-'], (h.drop 12).take 4, ['-'], (h.drop 16).take 4, ['-'],
    h.drop 20].flatten

structure Row where
  id : UUID
  name : String
  description : String
  createdAt : Int
  updatedAt : Int
  deriving DecidableEq, Repr

/-- The rows, whose ids are a primary key. -/
structure Table where
  rows : List Row
  distinct : (rows.map Row.id).Nodup

namespace Table

variable (t : Table)

/-- `SELECT … WHERE id = :id`. -/
def find (id : UUID) : Option Row := t.rows.find? fun r => r.id = id

/-- What an `UPDATE` sets in a row. -/
def assign (v r : Row) : Row :=
  { r with name := v.name, description := v.description, updatedAt := v.updatedAt }

/-- `UPDATE … SET … WHERE id = :id`, in one row. -/
def updateRow (v r : Row) : Row := if r.id = v.id then assign v r else r

theorem updateRow_id (v r : Row) : (updateRow v r).id = r.id := by
  unfold updateRow
  split <;> rfl

def update (v : Row) : Table where
  rows := t.rows.map (updateRow v)
  distinct := by
    rw [List.map_map, (funext (updateRow_id v) : Row.id ∘ updateRow v = Row.id)]
    exact t.distinct

variable {t} {v r : Row} {id : UUID}

theorem find_id (h : t.find id = some r) : r.id = id := by
  simpa using List.find?_some h

theorem find_update : (t.update v).find id = (t.find id).map (updateRow v) := by
  rw [find, update, List.find?_map]
  simp only [Function.comp_def, updateRow_id]
  rfl

theorem find_update_self : (t.update v).find v.id = (t.find v.id).map (assign v) := by
  rw [find_update]
  exact Option.map_congr fun r hr => if_pos (find_id hr)

theorem find_update_ne (h : id ≠ v.id) : (t.update v).find id = t.find id := by
  rw [find_update]
  refine (Option.map_congr fun r hr => ?_).trans (congrFun Option.map_id (t.find id))
  exact if_neg (find_id hr ▸ h)

end Table

/-- The domain entity; its instants are in nanoseconds. -/
structure Item where
  id : UUID
  name : String
  description : String
  createdAt : Int
  updatedAt : Int
  deriving DecidableEq, Repr

/-- The driver writes whole microseconds. -/
def toDB (v : Item) : Row :=
  ⟨v.id, v.name, v.description, stamp v.createdAt, stamp v.updatedAt⟩

def toCore (r : Row) : Item :=
  ⟨r.id, r.name, r.description, 1000 * r.createdAt, 1000 * r.updatedAt⟩

end Skit.Resource
