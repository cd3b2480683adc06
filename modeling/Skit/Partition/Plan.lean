import Skit.Partition.Names
import Mathlib.Data.List.Nodup

/-!
# Maintenance of partitions

`plan` says which partitions a run creates and drops, `apply` turns them into statements, and
`maintain` is a run against a database. Through the numbers of the periods that have a
partition (`Keeper.periods`) a run is an upkeep of a grid, table by table.
-/
namespace Skit.Partition
open Lib Calendar List

section Run

/-- The partitions to create and to drop at `now`. -/
def Keeper.plan (k : Keeper) (now : Time) (existing : List Part) : List Part × List Part :=
  let names := existing.map Part.name
  let current := k.cfg.period.start now
  let create := (List.range (k.cfg.ahead + 1).toNat).flatMap fun (i : Nat) =>
    k.cfg.tables.filterMap fun table =>
      let p := k.part table (k.cfg.period.add current i)
      if names.contains p.name then none else some p
  if k.cfg.retention = 0 then (create, [])
  else
    let cutoff := now - k.cfg.retention
    (create, k.cfg.tables.reverse.flatMap fun table =>
      existing.filter fun p => p.table = table ∧ ¬ cutoff < p.ends)

inductive Statement
  | create (p : Part)
  | detach (p : Part)
  | drop (p : Part)

/-- The statements that `apply` executes one after the other. -/
def apply (create drop : List Part) : List Statement :=
  create.map .create ++ drop.flatMap fun p => [.detach p, .drop p]

/-- The partitions of the tables with their ranges, and the names of all relations. A relation
has one name here, as the configuration would write it. -/
structure Database where
  attached : List Part
  relations : List String

/-- Two ranges have an instant in common. -/
def Part.overlaps (p q : Part) : Prop := p.starts < q.ends ∧ q.starts < p.ends

instance (p q : Part) : Decidable (p.overlaps q) := inferInstanceAs (Decidable (_ ∧ _))

/-- A statement fails if its relation is there already, or is not; and a partition is not
created over the range of another one of its table. -/
def Database.exec (db : Database) : Statement → Option Database
  | .create p =>
    if p.name ∈ db.relations ∨ (∃ q ∈ db.attached, q.table = p.table ∧ q.overlaps p) then none
    else some ⟨db.attached ++ [p], db.relations ++ [p.name]⟩
  | .detach p =>
    if ∃ q ∈ db.attached, q.table = p.table ∧ q.name = p.name then
      some { db with attached := db.attached.filter (·.name ≠ p.name) }
    else none
  | .drop p =>
    if p.name ∈ db.relations then
      some ⟨db.attached.filter (·.name ≠ p.name), db.relations.filter (· ≠ p.name)⟩
    else none

/-- `selectPartitions`: the names of the partitions of a table in their order. -/
def Database.selectPartitions (db : Database) (table : String) : List String :=
  ((db.attached.filter (·.table = table)).map Part.relname).mergeSort

/-- The partitions that the tables have. -/
def Keeper.partitions (k : Keeper) (db : Database) : List Part :=
  k.cfg.tables.flatMap fun table => (db.selectPartitions table).filterMap (k.parse table)

/-- `Maintain`; the transaction of a run that fails leaves the database as it was. -/
def Keeper.maintain (k : Keeper) (now : Time) (db : Database) : Option Database :=
  let plan := k.plan now (k.partitions db)
  (apply plan.1 plan.2).foldlM Database.exec db

/-- The partitions after a run. -/
def Keeper.run (k : Keeper) (now : Time) (existing : List Part) : List Part :=
  existing.filter (· ∉ (k.plan now existing).2) ++ (k.plan now existing).1

/-- The partitions after runs at the times of a list, latest first. -/
def Keeper.runs (k : Keeper) (existing : List Part) : List Time → List Part
  | [] => existing
  | now :: nows => k.run now (k.runs existing nows)

end Run

section Numbers

variable (k : Keeper) {table : String} {now x : Time} {existing : List Part} {n : ℤ}

/-- The number of periods ahead. -/
def Keeper.ahead (k : Keeper) : ℕ := k.cfg.ahead.toNat

/-- The time that rows must be older than to go, if any go. -/
def Keeper.cutoff (k : Keeper) (now : Time) : Option Time :=
  if k.cfg.retention = 0 then none else some (now - k.cfg.retention)

theorem cutoff_le : ∀ c ∈ k.cutoff now, c ≤ now := by
  have hpos := k.accepted.retention
  unfold Keeper.cutoff
  split_ifs with h <;> simp
  omega

theorem cutoff_mono {now' : Time} (h : now ≤ now') :
    ∀ c ∈ k.cutoff now, ∃ c' ∈ k.cutoff now', c ≤ c' := by
  unfold Keeper.cutoff
  split_ifs with h <;> simp
  omega

def Keeper.grid (k : Keeper) : Grid Time := k.cfg.period.grid

theorem add_start_eq (i : ℤ) :
    k.cfg.period.add (k.cfg.period.start now) i = k.grid.start (k.grid.index now + i) := by
  rw [Period.start_eq]
  exact k.cfg.period.add_start _ _

/-- The partition of the table for a numbered period. -/
def Keeper.nth (k : Keeper) (table : String) (n : ℤ) : Part := k.part table (k.grid.start n)

@[simp] theorem nth_table : (k.nth table n).table = table := rfl

@[simp] theorem nth_starts : (k.nth table n).starts = k.grid.start n := rfl

@[simp] theorem nth_ends : (k.nth table n).ends = k.grid.start (n + 1) :=
  k.cfg.period.add_start n 1

theorem nth_inj {m : ℤ} : k.nth table n = k.nth table m ↔ n = m := by
  refine ⟨fun h => ?_, fun h => by rw [h]⟩
  exact k.grid.strictMono.injective (congrArg Part.starts h)

/-- Every partition is the one of a table and a period of the keeper, in a year of four
digits. -/
def Keeper.WellNamed (k : Keeper) (existing : List Part) : Prop :=
  ∀ q ∈ existing, ∃ table ∈ k.cfg.tables, ∃ n, InYears (k.grid.start n) ∧ q = k.nth table n

/-- The current period and those ahead are in years of four digits. -/
def Keeper.Within (k : Keeper) (now : Time) : Prop :=
  ∀ n ∈ k.grid.window k.ahead now, InYears (k.grid.start n)

/-- The periods of the table that have a partition. -/
def Keeper.periods (k : Keeper) (existing : List Part) (table : String) : Set ℤ :=
  {n | k.nth table n ∈ existing}

theorem nth_name_inj {table' : String} {m : ℤ} (hn : InYears (k.grid.start n))
    (hm : InYears (k.grid.start m)) (heq : (k.nth table n).name = (k.nth table' m).name) :
    table = table' ∧ n = m := by
  have hstart (n : ℤ) : k.cfg.period.start (k.grid.start n) = k.grid.start n :=
    (k.cfg.period.start_self_iff _).mpr ⟨n, rfl⟩
  obtain ⟨htable, heq⟩ := part_name_inj k (hstart n) (hstart m) hn hm heq
  exact ⟨htable, k.grid.strictMono.injective heq⟩

theorem name_mem_iff (hw : k.WellNamed existing) (hn : InYears (k.grid.start n)) :
    (k.nth table n).name ∈ existing.map Part.name ↔ n ∈ k.periods existing table := by
  refine ⟨fun h => ?_, fun h => mem_map_of_mem h⟩
  obtain ⟨q, hq, hname⟩ := mem_map.mp h
  obtain ⟨table', -, m, hm, rfl⟩ := hw q hq
  obtain ⟨rfl, rfl⟩ := nth_name_inj k hm hn hname
  exact hq

theorem mem_window_iff : n ∈ k.grid.window k.ahead now ↔
    ∃ i < (k.cfg.ahead + 1).toNat, n = k.grid.index now + (i : ℕ) := by
  have hpos := k.accepted.ahead
  have hcast : (k.ahead : ℤ) = k.cfg.ahead := Int.toNat_of_nonneg hpos
  refine ⟨fun ⟨hlow, hhigh⟩ => ⟨(n - k.grid.index now).toNat, by omega, by omega⟩, ?_⟩
  rintro ⟨i, hi, rfl⟩
  exact ⟨by omega, by omega⟩

theorem plan_create : (k.plan now existing).1 = (List.range (k.cfg.ahead + 1).toNat).flatMap
    fun (i : ℕ) => k.cfg.tables.filterMap fun table =>
      if (existing.map Part.name).contains (k.nth table (k.grid.index now + i)).name then none
      else some (k.nth table (k.grid.index now + i)) := by
  unfold Keeper.plan
  simp only [add_start_eq, Keeper.nth]
  split_ifs <;> rfl

theorem plan_drop : (k.plan now existing).2 = k.cfg.tables.reverse.flatMap fun table =>
    existing.filter fun p => p.table = table ∧ ∃ c ∈ k.cutoff now, p.ends ≤ c := by
  unfold Keeper.plan Keeper.cutoff
  split_ifs with h
  · simp
  · simp

variable (hw : k.WellNamed existing)
include hw

theorem mem_create_iff (hnow : k.Within now) {p : Part} :
    p ∈ (k.plan now existing).1 ↔ ∃ table ∈ k.cfg.tables, ∃ n ∈ k.grid.window k.ahead now,
      n ∉ k.periods existing table ∧ p = k.nth table n := by
  rw [plan_create]
  simp only [mem_flatMap, mem_range, mem_filterMap, Option.ite_none_left_eq_some,
    Option.some.injEq, contains_iff_mem]
  refine ⟨?_, ?_⟩
  · rintro ⟨i, hi, table, ht, hname, rfl⟩
    have hn : k.grid.index now + (i : ℕ) ∈ k.grid.window k.ahead now :=
      (mem_window_iff k).mpr ⟨i, hi, rfl⟩
    exact ⟨table, ht, _, hn, fun h => hname ((name_mem_iff k hw (hnow _ hn)).mpr h), rfl⟩
  · rintro ⟨table, ht, n, hn, hnew, rfl⟩
    obtain ⟨i, hi, rfl⟩ := (mem_window_iff k).mp hn
    exact ⟨i, hi, table, ht, fun h => hnew ((name_mem_iff k hw (hnow _ hn)).mp h), rfl⟩

theorem mem_drop_iff {q : Part} :
    q ∈ (k.plan now existing).2 ↔ q ∈ existing ∧ ∃ c ∈ k.cutoff now, q.ends ≤ c := by
  rw [plan_drop]
  simp only [mem_flatMap, mem_reverse, mem_filter, decide_eq_true_eq]
  refine ⟨?_, ?_⟩
  · rintro ⟨table, -, hq, -, hexp⟩
    exact ⟨hq, hexp⟩
  · rintro ⟨hq, hexp⟩
    obtain ⟨table, ht, n, -, rfl⟩ := hw q hq
    exact ⟨table, ht, hq, rfl, hexp⟩

theorem mem_run_iff (hnow : k.Within now) {q : Part} :
    q ∈ k.run now existing ↔ (q ∈ existing ∧ ¬ ∃ c ∈ k.cutoff now, q.ends ≤ c) ∨
      ∃ table ∈ k.cfg.tables, ∃ n ∈ k.grid.window k.ahead now,
        n ∉ k.periods existing table ∧ q = k.nth table n := by
  rw [Keeper.run, mem_append, mem_filter, mem_create_iff k hw hnow, decide_eq_true_eq,
    mem_drop_iff k hw]
  exact or_congr_left (and_congr_right fun hq => not_congr (and_iff_right hq))

theorem WellNamed.run (hnow : k.Within now) : k.WellNamed (k.run now existing) := by
  intro q hq
  rcases (mem_run_iff k hw hnow).mp hq with ⟨hq, -⟩ | ⟨table, ht, n, hn, -, rfl⟩
  · exact hw q hq
  · exact ⟨table, ht, n, hnow n hn, rfl⟩

theorem periods_run (hnow : k.Within now)
    (ht : table ∈ k.cfg.tables) : k.periods (k.run now existing) table =
      k.grid.upkeep k.ahead k.cutoff now (k.periods existing table) := by
  ext n
  have hexp : (∃ c ∈ k.cutoff now, (k.nth table n).ends ≤ c) ↔
      k.grid.Expired (k.cutoff now) n := by
    rw [nth_ends, Grid.Expired]
  change k.nth table n ∈ k.run now existing ↔ _
  rw [mem_run_iff k hw hnow, hexp]
  refine ⟨?_, ?_⟩
  · rintro (h | ⟨table', -, m, hm, -, heq⟩)
    · exact .inl h
    · obtain rfl : table = table' := congrArg Part.table heq
      exact .inr ((nth_inj k).mp heq ▸ hm)
  · rintro (h | h)
    · exact .inl h
    · by_cases hold : n ∈ k.periods existing table
      · exact .inl ⟨hold, k.grid.not_expired_of_window (cutoff_le k) h⟩
      · exact .inr ⟨table, ht, n, h, hold, rfl⟩

end Numbers

section Coverage

variable {nows : List Time} (k : Keeper) {table : String} {now x : Time} {existing : List Part}
  {n : ℤ}

/-- The partition of the table holds the instant. -/
def Part.Holds (q : Part) (table : String) (x : Time) : Prop :=
  q.table = table ∧ q.starts ≤ x ∧ x < q.ends

theorem nth_holds {table' : String} :
    (k.nth table' n).Holds table x ↔ table' = table ∧ n = k.grid.index x := by
  rw [Part.Holds, nth_table, nth_starts, nth_ends, ← k.grid.index_eq_iff, eq_comm (a := n)]

/-- An instant lies in exactly one partition if its period has one, and else in none. -/
theorem existsUnique_holds_iff (hw : k.WellNamed existing) :
    (∃! q, q ∈ existing ∧ q.Holds table x) ↔ k.grid.index x ∈ k.periods existing table := by
  refine ⟨?_, fun h => ⟨k.nth table (k.grid.index x), ⟨h, (nth_holds k).mpr ⟨rfl, rfl⟩⟩, ?_⟩⟩
  · rintro ⟨q, ⟨hq, hholds⟩, -⟩
    obtain ⟨table', -, n, -, rfl⟩ := hw q hq
    obtain ⟨rfl, rfl⟩ := (nth_holds k).mp hholds
    exact hq
  · rintro q ⟨hq, hholds⟩
    obtain ⟨table', -, n, -, rfl⟩ := hw q hq
    obtain ⟨rfl, rfl⟩ := (nth_holds k).mp hholds
    rfl

theorem disjoint_of_ne (hw : k.WellNamed existing) {p q : Part} (hp : p ∈ existing)
    (hq : q ∈ existing) (htable : p.table = q.table) (hne : p ≠ q) :
    p.ends ≤ q.starts ∨ q.ends ≤ p.starts := by
  obtain ⟨table, -, n, -, rfl⟩ := hw p hp
  obtain ⟨table', -, m, -, rfl⟩ := hw q hq
  obtain rfl : table = table' := htable
  simp only [nth_ends, nth_starts, k.grid.strictMono.le_iff_le]
  rcases lt_trichotomy n m with hlt | rfl | hlt
  · exact .inl hlt
  · exact absurd rfl hne
  · exact .inr hlt

theorem index_mem_window_iff : k.grid.index x ∈ k.grid.window k.ahead now ↔
    k.cfg.period.start now ≤ x ∧
      x < k.cfg.period.add (k.cfg.period.start now) (k.cfg.ahead + 1) := by
  have hcast : (k.ahead : ℤ) = k.cfg.ahead := Int.toNat_of_nonneg k.accepted.ahead
  rw [add_start_eq, ← k.grid.index_lt_iff, Period.start_eq, ← hcast, ← add_assoc,
    Int.lt_add_one_iff]
  exact and_congr_left' k.grid.le_index_iff

/-- A run leaves nothing to do to another one at the same time. -/
theorem plan_run (hw : k.WellNamed existing) (hnow : k.Within now) :
    k.plan now (k.run now existing) = ([], []) := by
  have hw' := WellNamed.run k hw hnow
  refine Prod.ext (eq_nil_iff_forall_not_mem.mpr fun p hp => ?_)
    (eq_nil_iff_forall_not_mem.mpr fun q hq => ?_)
  · obtain ⟨table, ht, n, hn, hnew, -⟩ := (mem_create_iff k hw' hnow).mp hp
    rw [periods_run k hw hnow ht] at hnew
    exact hnew (.inr hn)
  · obtain ⟨hq, hexp⟩ := (mem_drop_iff k hw').mp hq
    obtain ⟨table, ht, n, -, rfl⟩ := hw' q hq
    have hn : n ∈ k.periods (k.run now existing) table := hq
    rw [periods_run k hw hnow ht] at hn
    rw [nth_ends] at hexp
    exact k.grid.not_expired_of_upkeep (cutoff_le k) hn hexp

theorem WellNamed.runs (hw : k.WellNamed existing)
    (hnows : ∀ now ∈ nows, k.Within now) : k.WellNamed (k.runs existing nows) := by
  induction nows with
  | nil => exact hw
  | cons now nows ih =>
    rw [forall_mem_cons] at hnows
    exact WellNamed.run k (ih hnows.2) hnows.1

theorem periods_runs (hw : k.WellNamed existing) (ht : table ∈ k.cfg.tables)
    (hnows : ∀ now ∈ nows, k.Within now) : k.periods (k.runs existing nows) table =
      k.grid.upkeeps k.ahead k.cutoff (k.periods existing table) nows := by
  induction nows with
  | nil => rfl
  | cons now nows ih =>
    rw [forall_mem_cons] at hnows
    rw [Keeper.runs, periods_run k (WellNamed.runs k hw hnows.2) hnows.1 ht, ih hnows.2]
    rfl

theorem pairwise_idxOf {tables : List String} (h : tables.Nodup) :
    tables.Pairwise fun t u => tables.idxOf t ≤ tables.idxOf u := by
  rw [pairwise_iff_getElem]
  intro i j hi hj hij
  rw [h.idxOf_getElem i hi, h.idxOf_getElem j hj]
  exact hij.le

/-- The partitions of a table go before those of the tables listed before it. -/
theorem drop_order : (k.plan now existing).2.Pairwise fun p q =>
    k.cfg.tables.idxOf q.table ≤ k.cfg.tables.idxOf p.table := by
  have htable {table : String} {p : Part} (hp : p ∈ existing.filter fun p =>
      p.table = table ∧ ∃ c ∈ k.cutoff now, p.ends ≤ c) : p.table = table := by
    simp only [mem_filter, decide_eq_true_eq] at hp
    exact hp.2.1
  rw [plan_drop, pairwise_flatMap]
  refine ⟨fun table _ => ?_, ?_⟩
  · refine pairwise_of_forall_mem_list fun p hp q hq => ?_
    rw [htable hp, htable hq]
  · refine (pairwise_reverse.mpr (pairwise_idxOf k.accepted.nodup)).imp ?_
    intro t u hle p hp q hq
    rwa [htable hp, htable hq]

end Coverage

section Statements

variable (k : Keeper) {now : Time} {existing : List Part} {db : Database} {ps : List Part}

theorem exec_creates (hfree : ∀ p ∈ ps, p.name ∉ db.relations) (hnames : (ps.map Part.name).Nodup)
    (hrange : ∀ p ∈ ps, ∀ q ∈ db.attached, q.table = p.table → ¬ q.overlaps p)
    (hps : ps.Pairwise fun p q => p.table = q.table → ¬ p.overlaps q) :
    (ps.map Statement.create).foldlM Database.exec db =
      some ⟨db.attached ++ ps, db.relations ++ ps.map Part.name⟩ := by
  induction ps generalizing db with
  | nil => simp
  | cons p ps ih =>
    rw [map_cons, nodup_cons] at hnames
    rw [pairwise_cons] at hps
    have hexec : db.exec (.create p) = some ⟨db.attached ++ [p], db.relations ++ [p.name]⟩ := by
      refine if_neg (not_or.mpr ⟨hfree p (by simp), ?_⟩)
      rintro ⟨q, hq, htable, hover⟩
      exact hrange p (by simp) q hq htable hover
    rw [map_cons, foldlM_cons, hexec]
    change List.foldlM _ _ _ = _
    rw [ih]
    · simp
    · intro q hq hmem
      rcases mem_append.mp hmem with hmem | hmem
      · exact hfree q (by simp [hq]) hmem
      · rw [mem_singleton] at hmem
        exact hnames.1 (hmem ▸ mem_map_of_mem hq)
    · exact hnames.2
    · intro q hq r hr
      rcases mem_append.mp hr with hr | hr
      · exact hrange q (by simp [hq]) r hr
      · rw [mem_singleton.mp hr]
        exact hps.1 q hq
    · exact hps.2

theorem exec_creates_none {p : Part} (hp : p ∈ ps) (hname : p.name ∈ db.relations)
    (rest : List Statement) :
    (ps.map Statement.create ++ rest).foldlM Database.exec db = none := by
  induction ps generalizing db with
  | nil => simp at hp
  | cons q ps ih =>
    rw [map_cons, cons_append, foldlM_cons]
    by_cases hq : q.name ∈ db.relations ∨ ∃ r ∈ db.attached, r.table = q.table ∧ r.overlaps q
    · rw [Database.exec, if_pos hq]
      rfl
    · rw [Database.exec, if_neg hq]
      rcases mem_cons.mp hp with rfl | hp
      · exact absurd (.inl hname) hq
      · exact ih hp (by simp [hname])

theorem exec_drops (hps : ∀ p ∈ ps, p ∈ db.attached ∧ p.name ∈ db.relations)
    (hnames : (ps.map Part.name).Nodup) :
    (ps.flatMap fun p => [Statement.detach p, .drop p]).foldlM Database.exec db =
      some ⟨db.attached.filter (·.name ∉ ps.map Part.name),
        db.relations.filter (· ∉ ps.map Part.name)⟩ := by
  induction ps generalizing db with
  | nil => simp
  | cons p ps ih =>
    rw [map_cons, nodup_cons] at hnames
    obtain ⟨hatt, hrel⟩ := hps p (by simp)
    have hdetach : db.exec (.detach p) =
        some { db with attached := db.attached.filter (·.name ≠ p.name) } :=
      if_pos ⟨p, hatt, rfl, rfl⟩
    have hdrop : Database.exec { db with attached := db.attached.filter (·.name ≠ p.name) }
        (.drop p) =
          some ⟨db.attached.filter (·.name ≠ p.name), db.relations.filter (· ≠ p.name)⟩ := by
      rw [Database.exec, if_pos hrel, filter_filter]
      simp
    rw [flatMap_cons, cons_append, foldlM_cons, hdetach]
    change List.foldlM _ _ _ = _
    rw [cons_append, foldlM_cons, hdrop]
    change List.foldlM _ _ _ = _
    rw [nil_append, ih]
    · have hboth (name : String) :
          (decide (name ∉ ps.map Part.name) && decide (name ≠ p.name)) =
            decide (name ∉ (p :: ps).map Part.name) := by
        rw [← Bool.decide_and]
        exact decide_eq_decide.mpr (by simp [and_comm])
      simp only [filter_filter, hboth]
    · intro q hq
      have hne : q.name ≠ p.name := fun h => hnames.1 (h ▸ mem_map_of_mem hq)
      obtain ⟨hq, hqr⟩ := hps q (by simp [hq])
      exact ⟨by simp [hq, hne], by simp [hqr, hne]⟩
    · exact hnames.2

theorem name_inj (hw : k.WellNamed existing) :
    ∀ p ∈ existing, ∀ q ∈ existing, p.name = q.name → p = q := by
  intro p hp q hq hname
  obtain ⟨table, -, n, hn, rfl⟩ := hw p hp
  obtain ⟨table', -, m, hm, rfl⟩ := hw q hq
  obtain ⟨rfl, rfl⟩ := nth_name_inj k hn hm hname
  rfl

theorem parse_nth (table : String) {n : ℤ} (hn : InYears (k.grid.start n)) :
    k.parse table (k.nth table n).relname = some (k.nth table n) :=
  (parse_relname_iff k).mpr
    ⟨_, (k.cfg.period.start_self_iff _).mpr ⟨n, rfl⟩, hn, rfl, rfl⟩

theorem mem_partitions (hw : k.WellNamed db.attached) {q : Part} :
    q ∈ k.partitions db ↔ q ∈ db.attached := by
  simp only [Keeper.partitions, Database.selectPartitions, mem_flatMap, mem_filterMap,
    mem_mergeSort, mem_map, mem_filter, decide_eq_true_eq]
  refine ⟨?_, fun hq => ?_⟩
  · rintro ⟨table, -, _, ⟨r, ⟨hr, rfl⟩, rfl⟩, hparse⟩
    obtain ⟨table', -, n, hn, rfl⟩ := hw r hr
    rw [nth_table, parse_nth k _ hn] at hparse
    exact Option.some.inj hparse ▸ hr
  · obtain ⟨table, ht, n, hn, rfl⟩ := hw q hq
    exact ⟨table, ht, _, ⟨_, ⟨hq, rfl⟩, rfl⟩, parse_nth k table hn⟩

theorem nodup_partitions (hw : k.WellNamed db.attached) (hnodup : db.attached.Nodup) :
    (k.partitions db).Nodup := by
  refine nodup_flatMap.mpr ⟨fun table _ => ?_, ?_⟩
  · refine List.Nodup.filterMap (fun a b q ha hb => ?_) ?_
    · obtain ⟨_, -, -, -, rfl⟩ := (parse_relname_iff k).mp ha
      obtain ⟨_, -, -, -, rfl⟩ := (parse_relname_iff k).mp hb
      rfl
    · refine (mergeSort_perm _ _).nodup_iff.mpr ?_
      refine List.Nodup.map_on (fun p hp q hq hrel => ?_) (hnodup.filter _)
      simp only [mem_filter, decide_eq_true_eq] at hp hq
      obtain ⟨hp, rfl⟩ := hp
      obtain ⟨hq, htable⟩ := hq
      obtain ⟨table, -, n, hn, rfl⟩ := hw p hp
      obtain ⟨table', -, m, hm, rfl⟩ := hw q hq
      obtain rfl : table' = table := htable
      have hparse := parse_nth k table' hn
      rw [hrel, parse_nth k table' hm] at hparse
      exact (Option.some.inj hparse).symm
  · refine k.accepted.nodup.imp fun {t u} hne q ht hu => hne ?_
    obtain ⟨rel, -, ht⟩ := mem_filterMap.mp ht
    obtain ⟨rel', -, hu⟩ := mem_filterMap.mp hu
    obtain ⟨_, -, -, rfl, -⟩ := (parse_relname_iff k).mp ht
    obtain ⟨_, -, -, heq, -⟩ := (parse_relname_iff k).mp hu
    exact congrArg Part.table heq

theorem nodup_create : (k.plan now existing).1.Nodup := by
  rw [plan_create]
  refine nodup_flatMap.mpr ⟨fun i _ => ?_, ?_⟩
  · refine List.Nodup.filterMap (fun t u q ht hu => ?_) k.accepted.nodup
    simp only [Option.mem_def, Option.ite_none_left_eq_some, Option.some.injEq] at ht hu
    exact congrArg Part.table (ht.2.trans hu.2.symm)
  · refine nodup_range.imp fun {i j} hne q hi hj => hne ?_
    simp only [mem_filterMap, Option.ite_none_left_eq_some, Option.some.injEq] at hi hj
    obtain ⟨t, -, -, rfl⟩ := hi
    obtain ⟨u, -, -, heq⟩ := hj
    obtain rfl : u = t := congrArg Part.table heq
    have hindex := (nth_inj k).mp heq
    omega

theorem nodup_drop (hnodup : existing.Nodup) : (k.plan now existing).2.Nodup := by
  rw [plan_drop]
  refine nodup_flatMap.mpr ⟨fun table _ => hnodup.filter _, ?_⟩
  refine (nodup_reverse.mpr k.accepted.nodup).imp fun {t u} hne q ht hu => hne ?_
  simp only [mem_filter, decide_eq_true_eq] at ht hu
  exact ht.2.1.symm.trans hu.2.1

theorem WellNamed.create (hw : k.WellNamed existing) (hnow : k.Within now) :
    k.WellNamed (existing ++ (k.plan now existing).1) := by
  intro q hq
  rcases mem_append.mp hq with hq | hq
  · exact hw q hq
  · obtain ⟨table, ht, n, hn, -, rfl⟩ := (mem_create_iff k hw hnow).mp hq
    exact ⟨table, ht, n, hnow n hn, rfl⟩

theorem not_overlaps {p q : Part} (h : p.ends ≤ q.starts ∨ q.ends ≤ p.starts) : ¬ p.overlaps q := by
  rintro ⟨hpq, hqp⟩
  rcases h with h | h
  · exact absurd hqp (not_lt.mpr h)
  · exact absurd hpq (not_lt.mpr h)

/-- The statements for partitions that are new and for some that are attached. -/
theorem exec_apply {create drop : List Part} (hall : k.WellNamed (db.attached ++ create))
    (hrel : ∀ q ∈ db.attached, q.name ∈ db.relations)
    (hfree : ∀ p ∈ create, p.name ∉ db.relations) (hcreate : create.Nodup)
    (hsub : ∀ q ∈ drop, q ∈ db.attached) (hdrop : drop.Nodup) :
    ∃ db', (apply create drop).foldlM Database.exec db = some db' ∧
      ∀ q, q ∈ db'.attached ↔ (q ∈ db.attached ∧ q ∉ drop) ∨ q ∈ create := by
  have hinj := name_inj k hall
  have hnew {p q : Part} (hp : p ∈ create) (hq : q ∈ db.attached) : q ≠ p := by
    rintro rfl
    exact hfree q hp (hrel q hq)
  have hcreates := exec_creates hfree
    (hcreate.map_on fun p hp q hq => hinj p (by simp [hp]) q (by simp [hq]))
    (fun p hp q hq ht =>
      not_overlaps (disjoint_of_ne k hall (by simp [hq]) (by simp [hp]) ht (hnew hp hq)))
    (hcreate.imp_of_mem fun {p q} hp hq hne ht =>
      not_overlaps (disjoint_of_ne k hall (by simp [hp]) (by simp [hq]) ht hne))
  have hexec : (apply create drop).foldlM Database.exec db =
      some ⟨(db.attached ++ create).filter (·.name ∉ drop.map Part.name),
        (db.relations ++ create.map Part.name).filter (· ∉ drop.map Part.name)⟩ := by
    rw [apply, foldlM_append, hcreates]
    refine exec_drops (fun p hp => ?_)
      (hdrop.map_on fun p hp q hq => hinj p (by simp [hsub p hp]) q (by simp [hsub q hq]))
    exact ⟨by simp [hsub p hp], by simp [hrel p (hsub p hp)]⟩
  refine ⟨_, hexec, fun q => ?_⟩
  have hname (hq : q ∈ db.attached ++ create) : q.name ∈ drop.map Part.name ↔ q ∈ drop := by
    refine ⟨fun h => ?_, fun h => mem_map_of_mem h⟩
    obtain ⟨p, hp, heq⟩ := mem_map.mp h
    exact hinj p (by simp [hsub p hp]) q hq heq ▸ hp
  rw [mem_filter, decide_eq_true_eq]
  refine ⟨fun ⟨hq, hkept⟩ => ?_, fun h => ?_⟩
  · rw [hname hq] at hkept
    exact (mem_append.mp hq).imp_left fun hq => ⟨hq, hkept⟩
  · have hq : q ∈ db.attached ++ create := mem_append.mpr (h.imp_left And.left)
    rw [hname hq]
    refine ⟨hq, fun hd => ?_⟩
    rcases h with ⟨-, hkept⟩ | hp
    · exact hkept hd
    · exact hnew hp (hsub q hd) rfl

/-- A run takes a database to the partitions of the plan, unless the name of a partition to
create is taken by some relation; then it fails. -/
theorem maintain_spec (hw : k.WellNamed db.attached) (hnodup : db.attached.Nodup)
    (hrel : ∀ q ∈ db.attached, q.name ∈ db.relations) (hnow : k.Within now) :
    ((∀ p ∈ (k.plan now (k.partitions db)).1, p.name ∉ db.relations) →
        ∃ db', k.maintain now db = some db' ∧
          ∀ q, q ∈ db'.attached ↔ q ∈ k.run now (k.partitions db)) ∧
      ((∃ p ∈ (k.plan now (k.partitions db)).1, p.name ∈ db.relations) →
        k.maintain now db = none) := by
  have hmem {q : Part} : q ∈ k.partitions db ↔ q ∈ db.attached := mem_partitions k hw
  have hwp : k.WellNamed (k.partitions db) := fun q hq => hw q (hmem.mp hq)
  refine ⟨fun hfree => ?_, ?_⟩
  · have hall : k.WellNamed (db.attached ++ (k.plan now (k.partitions db)).1) := fun q hq =>
      WellNamed.create k hwp hnow q (by simpa [hmem] using hq)
    obtain ⟨db', hexec, hattached⟩ := exec_apply k hall hrel hfree (nodup_create k)
      (fun q hq => hmem.mp ((mem_drop_iff k hwp).mp hq).1)
      (nodup_drop k (nodup_partitions k hw hnodup))
    refine ⟨db', hexec, fun q => ?_⟩
    rw [hattached, Keeper.run, mem_append, mem_filter, hmem, decide_eq_true_eq]
  · rintro ⟨p, hp, hname⟩
    exact exec_creates_none hp hname _

end Statements

section Maintenance

variable (k : Keeper) {table : String} {now x : Time} {existing : List Part} {nows : List Time}

theorem not_expired_iff : ¬ k.grid.Expired (k.cutoff now) (k.grid.index x) ↔
    k.cfg.retention = 0 ∨ now - k.cfg.retention < k.cfg.period.add (k.cfg.period.start x) 1 := by
  rw [add_start_eq, Grid.Expired, Keeper.cutoff]
  split_ifs with h <;> simp [h]

/-- A run at `t` follows one at `u`, in a period that the run at `u` has made. -/
def Keeper.Follows (k : Keeper) (t u : Time) : Prop :=
  u ≤ t ∧ k.cfg.period.start t ≤ k.cfg.period.add (k.cfg.period.start u) k.cfg.ahead

theorem start_le_add_iff {t u : Time} :
    k.cfg.period.start t ≤ k.cfg.period.add (k.cfg.period.start u) k.cfg.ahead ↔
      k.grid.index t ≤ k.grid.index u + k.ahead := by
  have hcast : (k.ahead : ℤ) = k.cfg.ahead := Int.toNat_of_nonneg k.accepted.ahead
  rw [add_start_eq, Period.start_eq, hcast]
  exact k.grid.strictMono.le_iff_le

section

variable (hw : k.WellNamed existing)
include hw

/-- After runs that follow each other, an instant since the first one has its partition until
the partition expires. -/
theorem runs_hold_iff (hnows : ∀ t ∈ now :: nows, k.Within t)
    (hchain : (now :: nows).IsChain k.Follows) (ht : table ∈ k.cfg.tables)
    (hlow : k.cfg.period.start ((now :: nows).getLast (cons_ne_nil now nows)) ≤ x)
    (hhigh : x < k.cfg.period.add (k.cfg.period.start now) (k.cfg.ahead + 1)) :
    (∃! q, q ∈ k.runs existing (now :: nows) ∧ q.Holds table x) ↔
      k.cfg.retention = 0 ∨ now - k.cfg.retention < k.cfg.period.add (k.cfg.period.start x) 1 := by
  have hcast : (k.ahead : ℤ) = k.cfg.ahead := Int.toNat_of_nonneg k.accepted.ahead
  have hgrid : (now :: nows).IsChain (k.grid.Follows k.ahead) :=
    hchain.imp fun t u h => ⟨h.1, (start_le_add_iff k).mp h.2⟩
  rw [Period.start_eq] at hlow
  rw [add_start_eq] at hhigh
  rw [existsUnique_holds_iff k (WellNamed.runs k hw hnows), periods_runs k hw ht hnows,
    k.grid.mem_upkeeps_iff (fun _ => cutoff_le k) (fun _ _ => cutoff_mono k) hgrid
      (k.grid.le_index_iff.mpr hlow) (by have := k.grid.index_lt_iff.mpr hhigh; omega),
    not_expired_iff]

/-- Until the next run every instant has its partition. -/
theorem runs_hold_next (hnows : ∀ t ∈ now :: nows, k.Within t)
    (ht : table ∈ k.cfg.tables) (hx : k.Follows x now) :
    ∃! q, q ∈ k.runs existing (now :: nows) ∧ q.Holds table x := by
  rw [existsUnique_holds_iff k (WellNamed.runs k hw hnows), periods_runs k hw ht hnows]
  exact .inr ⟨k.grid.index_mono hx.1, (start_le_add_iff k).mp hx.2⟩

theorem drop_before {q : Part} (hq : q ∈ (k.plan now existing).2) :
    q.ends ≤ now - k.cfg.retention ∧ q.ends ≤ k.cfg.period.start now := by
  obtain ⟨hq, c, hc, hle⟩ := (mem_drop_iff k hw).mp hq
  have hnow : q.ends ≤ now := hle.trans (cutoff_le k c hc)
  refine ⟨?_, ?_⟩
  · unfold Keeper.cutoff at hc
    split_ifs at hc with h
    · simp at hc
    · simpa using Option.some.inj hc ▸ hle
  · obtain ⟨table, -, n, -, rfl⟩ := hw q hq
    rw [nth_ends] at hnow ⊢
    rw [Period.start_eq]
    exact k.grid.strictMono.monotone (k.grid.le_index_iff.mpr hnow)

theorem plan_congr {found : List Part} (hnow : k.Within now)
    (h : ∀ q, q ∈ found ↔ q ∈ existing) :
    (∀ p, p ∈ (k.plan now found).1 ↔ p ∈ (k.plan now existing).1) ∧
      ∀ q, q ∈ k.run now found ↔ q ∈ k.run now existing := by
  have hw' : k.WellNamed found := fun q hq => hw q ((h q).mp hq)
  have hperiods (table : String) : k.periods found table = k.periods existing table :=
    Set.ext fun n => h _
  refine ⟨fun p => ?_, fun q => ?_⟩
  · simp only [mem_create_iff k hw hnow, mem_create_iff k hw' hnow, hperiods]
  · simp only [mem_run_iff k hw hnow, mem_run_iff k hw' hnow, hperiods, h]

end

/-- A run covers the current period and those ahead, drops what has expired and nothing else,
leaves nothing to a second run, and drops in the reverse order of the tables; runs that follow
each other keep every instant covered until it expires; and a run against a database gives
these partitions unless the name of a new one is taken. -/
theorem maintenance_covers_retains_converges (hw : k.WellNamed existing) (hnow : k.Within now) :
    (∀ table ∈ k.cfg.tables,
        (∀ x, k.cfg.period.start now ≤ x →
          x < k.cfg.period.add (k.cfg.period.start now) (k.cfg.ahead + 1) →
          ∃! q, q ∈ k.run now existing ∧ q.Holds table x) ∧
        ∀ i : ℤ, 0 ≤ i → i ≤ k.cfg.ahead →
          k.part table (k.cfg.period.add (k.cfg.period.start now) i) ∈ k.run now existing ∧
            (k.part table (k.cfg.period.add (k.cfg.period.start now) i)).ends =
              (k.part table (k.cfg.period.add (k.cfg.period.start now) (i + 1))).starts) ∧
      (∀ p ∈ k.run now existing, ∀ q ∈ k.run now existing, p.table = q.table → p ≠ q →
        p.ends ≤ q.starts ∨ q.ends ≤ p.starts) ∧
      (∀ q, q ∈ (k.plan now existing).2 ↔
        q ∈ existing ∧ k.cfg.retention ≠ 0 ∧ q.ends ≤ now - k.cfg.retention) ∧
      (∀ q ∈ (k.plan now existing).2, ∀ table x, q.Holds table x →
        x < now - k.cfg.retention ∧ x < k.cfg.period.start now) ∧
      k.plan now (k.run now existing) = ([], []) ∧
      ((k.plan now existing).2.Pairwise fun p q =>
        k.cfg.tables.idxOf q.table ≤ k.cfg.tables.idxOf p.table) ∧
      (∀ nows, (∀ t ∈ nows, k.Within t) → (now :: nows).IsChain k.Follows →
        ∀ table ∈ k.cfg.tables,
          (∀ x, k.cfg.period.start ((now :: nows).getLast (cons_ne_nil now nows)) ≤ x →
            x < k.cfg.period.add (k.cfg.period.start now) (k.cfg.ahead + 1) →
            ((∃! q, q ∈ k.runs existing (now :: nows) ∧ q.Holds table x) ↔ k.cfg.retention = 0 ∨
              now - k.cfg.retention < k.cfg.period.add (k.cfg.period.start x) 1)) ∧
          ∀ x, k.Follows x now → ∃! q, q ∈ k.runs existing (now :: nows) ∧ q.Holds table x) ∧
      ∀ db : Database, (∀ q, q ∈ db.attached ↔ q ∈ existing) → db.attached.Nodup →
        (∀ q ∈ db.attached, q.name ∈ db.relations) →
        (∀ p ∈ (k.plan now existing).1, p.name ∉ db.relations) →
        ∃ db', k.maintain now db = some db' ∧ ∀ q, q ∈ db'.attached ↔ q ∈ k.run now existing := by
  have hcast : (k.ahead : ℤ) = k.cfg.ahead := Int.toNat_of_nonneg k.accepted.ahead
  have hrun := WellNamed.run k hw hnow
  refine ⟨fun table ht => ⟨fun x hlow hhigh => ?_, fun i hi hi' => ⟨?_, ?_⟩⟩,
    fun p hp q hq => disjoint_of_ne k hrun hp hq, fun q => ?_, fun q hq table x hx => ?_,
    plan_run k hw hnow, drop_order k, fun nows hnows hchain table ht => ⟨fun x hlow hhigh => ?_,
      fun x hx => ?_⟩, fun db hmem hnodup hrel hfree => ?_⟩
  · rw [existsUnique_holds_iff k hrun, periods_run k hw hnow ht]
    exact .inr ((index_mem_window_iff k).mpr ⟨hlow, hhigh⟩)
  · rw [add_start_eq]
    have hmem : k.grid.index now + i ∈ k.periods (k.run now existing) table := by
      rw [periods_run k hw hnow ht]
      exact .inr ⟨by omega, by omega⟩
    exact hmem
  · rw [add_start_eq, add_start_eq, ← add_assoc]
    exact nth_ends k
  · rw [mem_drop_iff k hw, Keeper.cutoff]
    split_ifs with h <;> simp [h]
  · obtain ⟨hcut, hcurrent⟩ := drop_before k hw hq
    exact ⟨hx.2.2.trans_le hcut, hx.2.2.trans_le hcurrent⟩
  · exact runs_hold_iff k hw (forall_mem_cons.mpr ⟨hnow, hnows⟩) hchain ht hlow hhigh
  · exact runs_hold_next k hw (forall_mem_cons.mpr ⟨hnow, hnows⟩) ht hx
  · have hwdb : k.WellNamed db.attached := fun q hq => hw q ((hmem q).mp hq)
    obtain ⟨hcreate, hrun⟩ := plan_congr k hw hnow fun q => (mem_partitions k hwdb).trans (hmem q)
    obtain ⟨db', hmaintain, hattached⟩ := (maintain_spec k hwdb hnodup hrel hnow).1
      fun p hp => hfree p ((hcreate p).mp hp)
    exact ⟨db', hmaintain, fun q => (hattached q).trans (hrun q)⟩

end Maintenance

section Messages

def november : Time := Time.date 2026 11 15

theorem messages_within : messages.Within november := by
  rintro n ⟨hlow, hhigh⟩
  have hindex : messages.grid.index november = 24322 := by decide +kernel
  have hahead : messages.ahead = 1 := rfl
  rw [hindex] at hlow hhigh
  rw [hahead] at hhigh
  rcases (by omega : n = 24322 ∨ n = 24323) with rfl | rfl <;>
    exact ⟨by decide +kernel, by decide +kernel⟩

/-- The partitions of June. -/
def june : List Part := [messages.nth "messages" 24317, messages.nth "deliveries" 24317]

theorem june_wellNamed : messages.WellNamed june := by
  have hyears : InYears (messages.grid.start 24317) := ⟨by decide +kernel, by decide +kernel⟩
  intro q hq
  simp only [june, mem_cons, not_mem_nil, or_false] at hq
  rcases hq with rfl | rfl
  · exact ⟨"messages", by decide, 24317, hyears, rfl⟩
  · exact ⟨"deliveries", by decide, 24317, hyears, rfl⟩

theorem maintenance_covers_retains_converges_june :
    ((messages.plan november june).1.map Part.name =
        ["messages_2026_11", "deliveries_2026_11", "messages_2026_12", "deliveries_2026_12"] ∧
      (messages.plan november june).2.map Part.name =
        ["deliveries_2026_06", "messages_2026_06"]) ∧
      messages.plan november (messages.run november june) = ([], []) := by
  obtain ⟨-, -, -, -, hagain, -⟩ :=
    maintenance_covers_retains_converges messages june_wellNamed messages_within
  exact ⟨by decide +kernel, hagain⟩

end Messages

end Skit.Partition
