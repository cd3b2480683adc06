import Mathlib.Order.Interval.Set.Basic
import Mathlib.Order.SuccPred.IntervalSucc
import Mathlib.Data.Int.SuccPred
import Mathlib.Data.Int.ConditionallyCompleteOrder
import Mathlib.Data.List.Chain

/-!
# Grids of half-open intervals

A grid cuts a linear order into consecutive half-open intervals, numbered by the integers. A
set of numbers is then a set of pairwise disjoint intervals, and keeping such a set up is to
add the intervals of a window from now on and to remove those that end before a cutoff.
-/
namespace Skit.Lib

/-- `start n` is where interval `n` starts and interval `n - 1` ends; `index t` is the number
of the interval that holds `t`. -/
structure Grid (α : Type) [LinearOrder α] where
  start : ℤ → α
  index : α → ℤ
  start_lt : ∀ n, start n < start (n + 1)
  start_index_le : ∀ t, start (index t) ≤ t
  lt_start_index : ∀ t, t < start (index t + 1)

namespace Grid

variable {α : Type} [LinearOrder α] (g : Grid α) {n m : ℤ} {t u : α}

theorem strictMono : StrictMono g.start := strictMono_int_of_lt_succ g.start_lt

/-- The start and the index are adjoint. -/
theorem le_index_iff : n ≤ g.index t ↔ g.start n ≤ t := by
  refine ⟨fun h => (g.strictMono.monotone h).trans (g.start_index_le t), fun h => ?_⟩
  have hlt := g.strictMono.lt_iff_lt.mp (h.trans_lt (g.lt_start_index t))
  omega

theorem index_lt_iff : g.index t < n ↔ t < g.start n := by
  rw [← not_le, ← not_le, g.le_index_iff]

theorem index_eq_iff : g.index t = n ↔ g.start n ≤ t ∧ t < g.start (n + 1) := by
  rw [← g.le_index_iff, ← g.index_lt_iff]
  omega

@[simp] theorem index_start : g.index (g.start n) = n :=
  g.index_eq_iff.mpr ⟨le_rfl, g.start_lt n⟩

theorem index_mono : Monotone g.index := fun _ _ h =>
  g.le_index_iff.mpr ((g.start_index_le _).trans h)

/-- A grid of the integers, with `c` points for each. -/
def scale (g : Grid ℤ) (c : ℤ) (hc : 0 < c) : Grid ℤ where
  start n := g.start n * c
  index t := g.index (t / c)
  start_lt n := Int.mul_lt_mul_of_pos_right (g.start_lt n) hc
  start_index_le t := (Int.le_ediv_iff_mul_le hc).mp (g.start_index_le (t / c))
  lt_start_index t := (Int.ediv_lt_iff_lt_mul hc).mp (g.lt_start_index (t / c))

section Upkeep

variable {ahead : ℕ} {cut : α → Option α} {S : Set ℤ}

/-- The interval ends no later than the cutoff; without a cutoff none does. -/
def Expired (cutoff : Option α) (n : ℤ) : Prop := ∃ c ∈ cutoff, g.start (n + 1) ≤ c

/-- The interval that holds `now` and those `ahead` of it. -/
def window (ahead : ℕ) (now : α) : Set ℤ := Set.Icc (g.index now) (g.index now + ahead)

/-- The intervals after an upkeep at `now`. -/
def upkeep (ahead : ℕ) (cut : α → Option α) (now : α) (S : Set ℤ) : Set ℤ :=
  {n ∈ S | ¬ g.Expired (cut now) n} ∪ g.window ahead now

theorem expired_mono {c d : Option α} (h : ∀ x ∈ c, ∃ y ∈ d, x ≤ y) (he : g.Expired c n) :
    g.Expired d n := by
  obtain ⟨x, hx, hle⟩ := he
  obtain ⟨y, hy, hxy⟩ := h x hx
  exact ⟨y, hy, hle.trans hxy⟩

/-- The window is not expired. -/
theorem not_expired_of_window (hcut : ∀ c ∈ cut t, c ≤ t) (hn : n ∈ g.window ahead t) :
    ¬ g.Expired (cut t) n := by
  rintro ⟨c, hc, hle⟩
  refine lt_irrefl c ?_
  calc c ≤ t := hcut c hc
    _ < g.start (g.index t + 1) := g.lt_start_index t
    _ ≤ g.start (n + 1) := g.strictMono.monotone (Int.add_le_add_right hn.1 1)
    _ ≤ c := hle

/-- An upkeep leaves nothing to a second one at the same time. -/
theorem not_expired_of_upkeep (hcut : ∀ c ∈ cut t, c ≤ t) (hn : n ∈ g.upkeep ahead cut t S) :
    ¬ g.Expired (cut t) n := by
  rcases hn with ⟨-, hn⟩ | hn
  · exact hn
  · exact g.not_expired_of_window hcut hn

/-- The intervals after upkeeps at the times of a list, latest first. -/
def upkeeps (ahead : ℕ) (cut : α → Option α) (S : Set ℤ) : List α → Set ℤ
  | [] => S
  | t :: ts => g.upkeep ahead cut t (upkeeps ahead cut S ts)

/-- Upkeep at `t` follows one at `u`, not before it, and before its window has passed. -/
def Follows (ahead : ℕ) (t u : α) : Prop := u ≤ t ∧ g.index t ≤ g.index u + ahead

/-- After upkeeps that follow each other, the intervals from the first one on are there until
they expire. -/
theorem mem_upkeeps_iff (hcut : ∀ t, ∀ c ∈ cut t, c ≤ t)
    (hmono : ∀ t u, t ≤ u → ∀ x ∈ cut t, ∃ y ∈ cut u, x ≤ y) {ts : List α}
    (hchain : (t :: ts).IsChain (g.Follows ahead))
    (hlow : g.index ((t :: ts).getLast (List.cons_ne_nil t ts)) ≤ n)
    (hhigh : n ≤ g.index t + ahead) :
    n ∈ g.upkeeps ahead cut S (t :: ts) ↔ ¬ g.Expired (cut t) n := by
  induction ts generalizing t with
  | nil =>
    have hn : n ∈ g.window ahead t := ⟨hlow, hhigh⟩
    exact iff_of_true (.inr hn) (g.not_expired_of_window (hcut t) hn)
  | cons u ts ih =>
    obtain ⟨⟨hle, hnext⟩, hchain⟩ := List.isChain_cons_cons.mp hchain
    refine ⟨g.not_expired_of_upkeep (hcut t), fun hn => ?_⟩
    by_cases hwin : g.index t ≤ n
    · exact .inr ⟨hwin, hhigh⟩
    · refine .inl ⟨(ih hchain hlow (by omega)).mpr fun he => hn ?_, hn⟩
      exact g.expired_mono (hmono u t hle) he

end Upkeep

end Grid

end Skit.Lib
