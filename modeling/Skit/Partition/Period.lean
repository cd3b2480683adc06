import Skit.Lib.Calendar

/-!
# Periods

The periods of a partition. Their starts are a grid (`Period.grid`): `Period.start` goes to the
start of the interval that holds an instant, and `Period.add` counts intervals.
-/
namespace Skit.Partition
open Lib Calendar

/-- The range of time one partition holds. -/
inductive Period
  | day
  | month
  | other (n : Int)
  deriving DecidableEq, Repr

namespace Period

def start (p : Period) (t : Time) : Time :=
  match p with
  | .day => Time.date t.year t.month t.day
  | _ => Time.date t.year t.month 1

def add (p : Period) (start : Time) (n : Int) : Time :=
  match p with
  | .day => start.addDate 0 0 n
  | _ => start.addDate 0 n 0

/-- The periods as intervals of instants. -/
def grid : Period → Grid Time
  | .day => days.scale nsPerDay (by decide)
  | _ => months.scale nsPerDay (by decide)

variable (p : Period)

theorem start_eq (t : Time) : p.start t = p.grid.start (p.grid.index t) := by
  cases p with
  | day => exact t.date_eq
  | month | other =>
    change Time.date t.year t.month 1 = monthStart (monthIndex (t / nsPerDay)) * nsPerDay
    rw [Time.date, Time.index_eq]
    congr 1
    omega

theorem add_start (n k : Int) : p.add (p.grid.start n) k = p.grid.start (n + k) := by
  cases p with
  | day =>
    change Time.addDate (n * nsPerDay) 0 0 k = (n + k) * nsPerDay
    rw [Time.addDate_midnight, add_zero]
    congr 1
    omega
  | month | other =>
    change Time.addDate (monthStart n * nsPerDay) 0 k 0 = monthStart (n + k) * nsPerDay
    have hindex : monthIndex (monthStart n) = n := months.index_start
    rw [Time.addDate_midnight, hindex]
    congr 1
    omega

/-- The instants at which a period starts. -/
theorem start_self_iff (t : Time) : p.start t = t ↔ ∃ n, t = p.grid.start n := by
  rw [start_eq]
  refine ⟨fun h => ⟨_, h.symm⟩, ?_⟩
  rintro ⟨n, rfl⟩
  rw [Grid.index_start]

end Period

end Skit.Partition
