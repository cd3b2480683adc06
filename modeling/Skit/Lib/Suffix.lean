import Mathlib.Data.List.Infix
import Mathlib.Data.List.Nodup

/-!
# Histories as lists

A history is a list with its latest element first, so what had happened at some point
of it is a suffix. These are the facts about suffixes that the runs below use.
-/
namespace Skit.Lib
open List

variable {α : Type} {l m n l' r r' : List α}

/-- Of two points of a history one comes first. -/
theorem suffix_trichotomy {a b : α} (h : a :: l <:+ n)
    (h' : b :: m <:+ n) : a :: l = b :: m ∨ a :: l <:+ m ∨ b :: m <:+ l := by
  rcases suffix_or_suffix_of_suffix h h' with hs | hs
  · exact (suffix_cons_iff.mp hs).imp id .inl
  · rcases suffix_cons_iff.mp hs with heq | hs
    · exact .inl heq.symm
    · exact .inr (.inr hs)

/-- All points of a history, as a check. -/
theorem forall_suffix_iff {P : α → List α → Prop} {l : List α} :
    (∀ a r, a :: r <:+ l → P a r) ↔ ∀ s ∈ l.tails, ∀ a ∈ s.head?, P a s.tail := by
  refine ⟨fun h s hs a ha => h a _ ?_,
    fun h a r hr => h (a :: r) ((mem_tails _ _).mpr hr) a rfl⟩
  rw [cons_head?_tail ha]
  exact (mem_tails _ _).mp hs

/-- What had happened at a point of a history does not hold its latest element. -/
theorem suffix_tail {a : α} {l n : List α} (h : a :: l <:+ n) : l <:+ n.tail := by
  obtain ⟨p, rfl⟩ := h
  cases p with
  | nil => exact suffix_refl l
  | cons b p => exact (suffix_cons a l).trans (suffix_append p _)

/-- A point of a joined history is in the later part or lies in the earlier one. -/
theorem mem_or_suffix_of_append {a : α} (h : a :: l <:+ m ++ n) : a ∈ m ∨ a :: l <:+ n := by
  rcases suffix_or_suffix_of_suffix h (suffix_append m n) with hs | hs
  · exact .inr hs
  · rcases suffix_cons_iff.mp hs with rfl | hs
    · exact .inr (suffix_refl _)
    · obtain ⟨k, rfl⟩ := hs
      obtain ⟨q, hq⟩ := h
      rw [← cons_append, ← append_assoc] at hq
      rw [← append_cancel_right hq]
      exact .inl (by simp)

/-- A point of a history of selected elements is one of the whole history. -/
theorem exists_suffix_of_filterMap {β : Type} {f : α → Option β} {b : β} {l : List β} {n : List α}
    (h : b :: l <:+ n.filterMap f) : ∃ a r, f a = some b ∧ a :: r <:+ n ∧ r.filterMap f = l := by
  induction n with
  | nil => cases suffix_nil.mp h
  | cons a n ih =>
    cases hf : f a with
    | none =>
      rw [filterMap_cons_none hf] at h
      obtain ⟨a', r, ha, hr, hl⟩ := ih h
      exact ⟨a', r, ha, hr.trans (suffix_cons a n), hl⟩
    | some b' =>
      rw [filterMap_cons_some hf] at h
      rcases suffix_cons_iff.mp h with heq | h
      · obtain ⟨rfl, rfl⟩ := List.cons.inj heq
        exact ⟨a, n, hf, suffix_refl _, rfl⟩
      · obtain ⟨a', r, ha, hr, hl⟩ := ih h
        exact ⟨a', r, ha, hr.trans (suffix_cons a n), hl⟩

/-- A list is cut in one way at the first place of an element. -/
theorem append_cons_inj {x : α} (hl : x ∉ l) (hl' : x ∉ l')
    (heq : l ++ x :: r = l' ++ x :: r') : l = l' ∧ r = r' := by
  rcases append_eq_append_iff.mp heq with ⟨m, rfl, hm⟩ | ⟨m, rfl, hm⟩
  · cases m with
    | nil => exact ⟨(append_nil l).symm, (List.cons.inj hm).2⟩
    | cons y m =>
      obtain ⟨rfl, -⟩ := List.cons.inj hm
      simp at hl'
  · cases m with
    | nil => exact ⟨append_nil l', (List.cons.inj hm).2.symm⟩
    | cons y m =>
      obtain ⟨rfl, -⟩ := List.cons.inj hm
      simp at hl

/-- A list without repetitions splits at a member in one way. -/
theorem rest_unique {x : α} (hn : (l ++ x :: r).Nodup)
    (heq : l ++ x :: r = l' ++ x :: r') : r = r' := by
  have hfirst : ∀ {m k : List α}, (m ++ x :: k).Nodup → x ∉ m := fun hm hx =>
    (nodup_append.mp hm).2.2 x hx x mem_cons_self rfl
  exact (append_cons_inj (hfirst hn) (hfirst (heq ▸ hn)) heq).2

end Skit.Lib
