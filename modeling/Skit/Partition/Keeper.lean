import Skit.Lib.Digits
import Skit.Partition.Period

/-!
# The keeper of partitions

`Config`, its check in `New`, and the names of partitions: `part` writes the start of a period
behind the name of the table, and `parse` reads it back. Texts are lists of characters where
they are taken apart.
-/
namespace Skit.Partition
open Lib Calendar

section Layout

/-- The elements of a layout of package `time`, as it reads the text of the layout. -/
inductive Chunk
  | longYear
  | zeroMonth
  | zeroDay
  | underscore
  deriving DecidableEq, Repr

def Chunk.text : Chunk → String
  | .longYear => "2006"
  | .zeroMonth => "01"
  | .zeroDay => "02"
  | .underscore => "_"

/-- The time in the name of a partition of the period. -/
def Period.layout : Period → List Chunk
  | .day => [.longYear, .underscore, .zeroMonth, .underscore, .zeroDay]
  | _ => [.longYear, .underscore, .zeroMonth]

/-- The text of the layout: `2006_01_02` or `2006_01`. -/
def Period.layoutText (p : Period) : String := String.join (p.layout.map Chunk.text)

def Chunk.format (t : Time) : Chunk → List Char
  | .longYear => appendInt 4 t.year
  | .zeroMonth => appendInt 2 t.month
  | .zeroDay => appendInt 2 t.day
  | .underscore => ['_']

/-- `Time.Format`. -/
def format (t : Time) (layout : List Chunk) : List Char := layout.flatMap (Chunk.format t)

/-- What `time.Parse` has read; minus one is nothing yet. -/
structure Fields where
  year : Int := 0
  month : Int := -1
  day : Int := -1

/-- One element read from the front of the text. -/
def Chunk.read (f : Fields) (cs : List Char) : Chunk → Option (Fields × List Char)
  | .longYear => do
    let (n, rest) ← number 4 cs
    some ({ f with year := n }, rest)
  | .zeroMonth => do
    let (n, rest) ← number 2 cs
    if n = 0 ∨ 12 < n then none else some ({ f with month := n }, rest)
  | .zeroDay => do
    let (n, rest) ← number 2 cs
    some ({ f with day := n }, rest)
  | .underscore =>
    match cs with
    | [] => none
    | c :: rest => if c = '_' then some (f, rest) else none

def readAll : List Chunk → Fields → List Char → Option (Fields × List Char)
  | [], f, cs => some (f, cs)
  | c :: layout, f, cs => do
    let (f, cs) ← c.read f cs
    readAll layout f cs

/-- `time.Parse` in UTC. A text that goes on, or a day that the month does not have, is
refused; what the layout does not have is the first. -/
def parse (layout : List Chunk) (text : List Char) : Option Time := do
  let (f, rest) ← readAll layout {} text
  if rest ≠ [] then none
  else
    let month := if f.month < 0 then 1 else f.month
    let day := if f.day < 0 then 1 else f.day
    if day < 1 ∨ daysIn f.year month < day then none
    else some (Time.date f.year month day)

end Layout

section Config

structure Config where
  tables : List String
  period : Period
  ahead : Int
  /-- Nanoseconds. -/
  retention : Int

/-- `strings.Cut` at the first dot. -/
def cutDot : List Char → Option (List Char × List Char)
  | [] => none
  | c :: cs =>
    if c = '.' then some ([], cs) else (cutDot cs).map fun p => (c :: p.1, p.2)

/-- The name of the table without its schema. -/
def baseName (table : String) : String :=
  match cutDot table.toList with
  | some (_, name) => String.ofList name
  | none => table

def nameStart (c : Char) : Bool := ('a' ≤ c ∧ c ≤ 'z') ∨ c = '_'

def nameRest (c : Char) : Bool := nameStart c ∨ isDigit c

/-- `[a-z_][a-z0-9_]*` -/
def plainName : List Char → Bool
  | [] => false
  | c :: cs => nameStart c && cs.all nameRest

/-- `^([a-z_][a-z0-9_]*\.)?[a-z_][a-z0-9_]*$`; the dot is in neither class. -/
def tableName (table : String) : Bool :=
  match cutDot table.toList with
  | some (schema, name) => plainName schema && plainName name
  | none => plainName table.toList

def maxName : Nat := 63

inductive ConfigError
  | unknownPeriod (p : Period)
  | negative (ahead retention : Int)
  | noTables
  | notPlain (table : String)
  | longNames (table : String)
  | listedTwice (table : String)
  deriving DecidableEq, Repr

/-- The loop of `check` over the tables. -/
def checkTables (p : Period) : List String → List String → Except ConfigError Unit
  | _, [] => .ok ()
  | seen, table :: tables =>
    if ! tableName table then .error (.notPlain table)
    else if maxName < (baseName table).utf8ByteSize + "_".utf8ByteSize + p.layoutText.utf8ByteSize
    then .error (.longNames table)
    else if seen.contains table then .error (.listedTwice table)
    else checkTables p (table :: seen) tables

/-- The first setting a keeper cannot work with. -/
def Config.check (cfg : Config) : Except ConfigError Unit :=
  if cfg.period ≠ .day ∧ cfg.period ≠ .month then .error (.unknownPeriod cfg.period)
  else if cfg.ahead < 0 ∨ cfg.retention < 0 then .error (.negative cfg.ahead cfg.retention)
  else if cfg.tables = [] then .error .noTables
  else checkTables cfg.period [] cfg.tables

/-- A keeper of settings that passed the check; the logger, the database and the clock are
those of its runs. -/
structure Keeper where
  cfg : Config
  checked : cfg.check = .ok ()

/-- `New`. -/
def Keeper.new (cfg : Config) : Except ConfigError Keeper :=
  let cfg := { cfg with ahead := if cfg.ahead = 0 then 1 else cfg.ahead }
  match h : cfg.check with
  | .ok () => .ok ⟨cfg, h⟩
  | .error e => .error e

theorem checkTables_ok {p : Period} {seen tables : List String}
    (h : checkTables p seen tables = .ok ()) :
    tables.Nodup ∧ ∀ table ∈ tables, table ∉ seen ∧ tableName table = true ∧
      (baseName table).utf8ByteSize + "_".utf8ByteSize + p.layoutText.utf8ByteSize ≤ maxName := by
  induction tables generalizing seen with
  | nil => simp
  | cons table tables ih =>
    unfold checkTables at h
    split_ifs at h with hname hlen hseen
    obtain ⟨hnodup, hall⟩ := ih h
    have hfresh : table ∉ tables := fun hmem => (hall table hmem).1 (by simp)
    refine ⟨List.nodup_cons.mpr ⟨hfresh, hnodup⟩, fun u hu => ?_⟩
    rcases List.mem_cons.mp hu with rfl | hu
    · exact ⟨by simpa using hseen, by simpa using hname, not_lt.mp hlen⟩
    · obtain ⟨hmem, hrest⟩ := hall u hu
      exact ⟨fun hs => hmem (List.mem_cons_of_mem _ hs), hrest⟩

/-- What the check of the settings gives. -/
structure Config.Accepted (cfg : Config) : Prop where
  ahead : 0 ≤ cfg.ahead
  retention : 0 ≤ cfg.retention
  nodup : cfg.tables.Nodup
  plain : ∀ table ∈ cfg.tables, tableName table = true
  short : ∀ table ∈ cfg.tables, (baseName table).utf8ByteSize + "_".utf8ByteSize +
    cfg.period.layoutText.utf8ByteSize ≤ maxName

theorem Keeper.accepted (k : Keeper) : k.cfg.Accepted := by
  have h := k.checked
  unfold Config.check at h
  split_ifs at h with hperiod hneg htables
  obtain ⟨hnodup, hall⟩ := checkTables_ok h
  exact ⟨by omega, by omega, hnodup, fun u hu => (hall u hu).2.1, fun u hu => (hall u hu).2.2⟩

end Config

/-- A partition of a table, with its range from `starts` to before `ends`. -/
structure Part where
  table : String
  name : String
  starts : Time
  ends : Time
  deriving DecidableEq, Repr

/-- The partition of the table for the period that starts at `since`. -/
def Keeper.part (k : Keeper) (table : String) (since : Time) : Part where
  table := table
  name := table ++ "_" ++ String.ofList (format since k.cfg.period.layout)
  starts := since
  ends := k.cfg.period.add since 1

/-- The partition of the table from the name of its relation. -/
def Keeper.parse (k : Keeper) (table relname : String) : Option Part := do
  let suffix ← relname.toList.dropPrefix? ((baseName table).toList ++ ['_'])
  let since ← Partition.parse k.cfg.period.layout suffix
  some (k.part table since)

end Skit.Partition
