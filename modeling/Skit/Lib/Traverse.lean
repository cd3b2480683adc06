import Mathlib.Data.Finset.Card
import Mathlib.Logic.Relation

/-!
# Depth-first traversal with a guard on some of its steps

`collect` lists what it comes to and goes on from there. A step with a key goes on only the first
time its key is seen; a step without one always goes on. The traversal finds everything when
steps of one key go on to the same things, and it ends when the keys are finitely many and no
infinite chain of steps is without keys.
-/
namespace Skit.Lib.Traverse
open List

variable {H κ : Type}

/-- One step. -/
def Next (next : H → List H) (a b : H) : Prop := b ∈ next a

section All

/-- One after the other, each with the keys that the ones before it have seen. -/
def collectAll (walk : H → List κ → Option (List H × List κ)) :
    List H → List κ → Option (List H × List κ)
  | [], seen => some ([], seen)
  | a :: as, seen =>
    (walk a seen).bind fun (found, seen) =>
      (collectAll walk as seen).map fun (rest, seen) => (a :: found ++ rest, seen)

variable {walk walk' : H → List κ → Option (List H × List κ)} {next : H → List H} {a b : H}
  {as res : List H} {seen seen' : List κ} {r : List H × List κ}

theorem collectAll_cons_eq_some_iff :
    collectAll walk (a :: as) seen = some r ↔
      ∃ found seen₁ rest seen₂, walk a seen = some (found, seen₁) ∧
        collectAll walk as seen₁ = some (rest, seen₂) ∧ r = (a :: found ++ rest, seen₂) := by
  simp only [collectAll, Option.bind_eq_some_iff, Option.map_eq_some_iff, Prod.exists]
  constructor
  · rintro ⟨found, seen₁, hw, rest, seen₂, has, rfl⟩
    exact ⟨found, seen₁, rest, seen₂, hw, has, rfl⟩
  · rintro ⟨found, seen₁, rest, seen₂, hw, has, rfl⟩
    exact ⟨found, seen₁, hw, rest, seen₂, has, rfl⟩

theorem collectAll_mono (hw : ∀ a seen r, walk a seen = some r → walk' a seen = some r)
    (h : collectAll walk as seen = some r) : collectAll walk' as seen = some r := by
  induction as generalizing seen r with
  | nil => exact h
  | cons a as ih =>
    obtain ⟨found, seen₁, rest, seen₂, ha, has, rfl⟩ := collectAll_cons_eq_some_iff.mp h
    exact collectAll_cons_eq_some_iff.mpr
      ⟨found, seen₁, rest, seen₂, hw _ _ _ ha, ih has, rfl⟩

/-- Each is found, and the traversal below it has ended. -/
theorem collectAll_heads (h : collectAll walk as seen = some (res, seen')) (ha : a ∈ as) :
    a ∈ res ∧ ∃ seen₁ r, walk a seen₁ = some r := by
  induction as generalizing seen res with
  | nil => cases ha
  | cons a' as ih =>
    obtain ⟨found, seen₁, rest, seen₂, ha', has, hr⟩ := collectAll_cons_eq_some_iff.mp h
    cases hr
    rcases mem_cons.mp ha with rfl | ha
    · exact ⟨by simp, seen, _, ha'⟩
    · obtain ⟨hmem, hend⟩ := ih has ha
      exact ⟨by simp [hmem], hend⟩

/-- Everything found is one of them or was found below one of them. -/
theorem collectAll_mem (h : collectAll walk as seen = some (res, seen')) (hb : b ∈ res) :
    b ∈ as ∨ ∃ a ∈ as, ∃ seen₁ found seen₂, walk a seen₁ = some (found, seen₂) ∧ b ∈ found := by
  induction as generalizing seen res with
  | nil =>
    cases h
    cases hb
  | cons a as ih =>
    obtain ⟨found, seen₁, rest, seen₂, ha, has, hr⟩ := collectAll_cons_eq_some_iff.mp h
    cases hr
    rcases mem_append.mp hb with hb | hb
    · rcases mem_cons.mp hb with rfl | hb
      · exact .inl mem_cons_self
      · exact .inr ⟨a, mem_cons_self, seen, found, seen₁, ha, hb⟩
    · rcases ih has hb with hb | ⟨a', ha', hfound⟩
      · exact .inl (mem_cons_of_mem _ hb)
      · exact .inr ⟨a', mem_cons_of_mem _ ha', hfound⟩

end All

variable [DecidableEq κ] (guard : H → Option κ) (next : H → List H)

/-- The keys to go on with, unless the key of the step was seen before. -/
def proceed (a : H) (seen : List κ) : Option (List κ) :=
  match guard a with
  | none => some seen
  | some k => if k ∈ seen then none else some (k :: seen)

/-- What is found below `a`, and the keys seen; `none` when the depth does not suffice. -/
def collect : Nat → H → List κ → Option (List H × List κ)
  | 0, _, _ => none
  | depth + 1, a, seen =>
    match proceed guard a seen with
    | none => some ([], seen)
    | some seen => collectAll (collect depth) (next a) seen

variable {guard next} {a b : H} {as res : List H} {seen seen' : List κ} {n m : Nat}
  {r : List H × List κ}

theorem collect_succ_eq_some_iff : collect guard next (n + 1) a seen = some r ↔
      (proceed guard a seen = none ∧ r = ([], seen)) ∨
      ∃ seen₁, proceed guard a seen = some seen₁ ∧
        collectAll (collect guard next n) (next a) seen₁ = some r := by
  rw [collect]
  cases proceed guard a seen with
  | none => simp [eq_comm]
  | some seen₁ => simp

theorem collect_mono (hnm : n ≤ m)
    (h : collect guard next n a seen = some r) : collect guard next m a seen = some r := by
  induction n generalizing a seen r m with
  | zero => cases h
  | succ n ih =>
    obtain ⟨m, rfl⟩ := Nat.exists_eq_add_of_lt hnm
    rw [collect_succ_eq_some_iff] at h ⊢
    obtain hstop | ⟨seen₁, hgo, hall⟩ := h
    · exact .inl hstop
    · exact .inr ⟨seen₁, hgo, collectAll_mono (fun _ _ _ => ih (by omega)) hall⟩

/-- Everything found lies below the start, and the traversal below it has ended. -/
theorem collect_sound (h : collect guard next n a seen = some (res, seen')) :
    ∀ b ∈ res, Relation.TransGen (Next next) a b ∧
      ∃ m seen₁ r, collect guard next m b seen₁ = some r := by
  induction n generalizing a seen res seen' with
  | zero => cases h
  | succ n ih =>
    intro b hb
    obtain ⟨-, hr⟩ | ⟨seen₁, -, hall⟩ := collect_succ_eq_some_iff.mp h
    · cases hr
      cases hb
    · rcases collectAll_mem hall hb with hb | ⟨a', ha', seen₁, found, seen₂, hfound, hb⟩
      · exact ⟨.single hb, n, (collectAll_heads hall hb).2⟩
      · obtain ⟨hreach, hend⟩ := ih hfound b hb
        exact ⟨.head ha' hreach, hend⟩

theorem proceed_eq_none_iff : proceed guard a seen = none ↔ ∃ k ∈ seen, guard a = some k := by
  unfold proceed
  cases guard a with
  | none => simp
  | some k => simp

theorem mem_of_proceed {seen₁ : List κ} (h : proceed guard a seen = some seen₁) {k : κ} :
    k ∈ seen₁ ↔ k ∈ seen ∨ guard a = some k := by
  unfold proceed at h
  split at h
  · next hnone =>
    cases h
    simp [hnone]
  · next k' hk' =>
    split at h
    · cases h
    · cases h
      simp [hk', eq_comm, or_comm]

section Complete

/-- What a traversal has done: it has gone on from `gone`. Every key that was seen is that of one
of these, and everything found was gone on from, unless its key had been seen. -/
structure Traversed (guard : H → Option κ) (next : H → List H) (heads : List H) (seen : List κ)
    (res : List H) (seen' : List κ) (gone : List H) : Prop where
  keys : ∀ k ∈ seen', k ∈ seen ∨ ∃ x ∈ gone, guard x = some k
  kept : seen ⊆ seen'
  closed : ∀ x ∈ gone, next x ⊆ res
  among : gone ⊆ heads ++ res
  covered : ∀ y ∈ heads ++ res, (∃ k ∈ seen', guard y = some k) ∨ y ∈ gone

omit [DecidableEq κ] in
theorem Traversed.append {found rest g₁ g₂ : List H} {seen₁ : List κ}
    (h₁ : Traversed guard next [a] seen found seen₁ g₁)
    (h₂ : Traversed guard next as seen₁ rest seen' g₂) :
    Traversed guard next (a :: as) seen (a :: found ++ rest) seen' (g₁ ++ g₂) where
  keys := by
    intro k hk
    rcases h₂.keys k hk with hk | ⟨x, hx, hkx⟩
    · rcases h₁.keys k hk with hk | ⟨x, hx, hkx⟩
      · exact .inl hk
      · exact .inr ⟨x, by simp [hx], hkx⟩
    · exact .inr ⟨x, by simp [hx], hkx⟩
  kept := List.Subset.trans h₁.kept h₂.kept
  closed := by
    intro x hx y hy
    rcases mem_append.mp hx with hx | hx
    · simp [h₁.closed x hx hy]
    · simp [h₂.closed x hx hy]
  among := by
    intro x hx
    rcases mem_append.mp hx with hx | hx
    · have := h₁.among hx
      simp only [mem_append, mem_cons, not_mem_nil, or_false] at this ⊢
      tauto
    · have := h₂.among hx
      simp only [mem_append, mem_cons] at this ⊢
      tauto
  covered := by
    intro y hy
    have hy' : y ∈ [a] ++ found ∨ y ∈ as ++ rest := by
      simp only [mem_append, mem_cons, not_mem_nil, or_false] at hy ⊢
      tauto
    rcases hy' with hy | hy
    · rcases h₁.covered y hy with ⟨k, hk, hky⟩ | hy
      · exact .inl ⟨k, h₂.kept hk, hky⟩
      · exact .inr (by simp [hy])
    · rcases h₂.covered y hy with hkey | hy
      · exact .inl hkey
      · exact .inr (by simp [hy])

theorem collectAll_traversed
    (hw : ∀ a seen res seen', collect guard next n a seen = some (res, seen') →
      ∃ gone, Traversed guard next [a] seen res seen' gone)
    (h : collectAll (collect guard next n) as seen = some (res, seen')) :
    ∃ gone, Traversed guard next as seen res seen' gone := by
  induction as generalizing seen res with
  | nil =>
    cases h
    exact ⟨[], by simp, by simp, by simp, by simp, by simp⟩
  | cons a as ih =>
    obtain ⟨found, seen₁, rest, seen₂, ha, has, hr⟩ := collectAll_cons_eq_some_iff.mp h
    cases hr
    obtain ⟨g₁, h₁⟩ := hw _ _ _ _ ha
    obtain ⟨g₂, h₂⟩ := ih has
    exact ⟨g₁ ++ g₂, h₁.append h₂⟩

theorem collect_traversed (h : collect guard next n a seen = some (res, seen')) :
    ∃ gone, Traversed guard next [a] seen res seen' gone := by
  induction n generalizing a seen res seen' with
  | zero => cases h
  | succ n ih =>
    obtain ⟨hstop, hr⟩ | ⟨seen₁, hgo, hall⟩ := collect_succ_eq_some_iff.mp h
    · cases hr
      have hkey := proceed_eq_none_iff.mp hstop
      refine ⟨[], fun k hk => .inl hk, fun k hk => hk, by simp, by simp, ?_⟩
      intro y hy
      rw [append_nil] at hy
      rw [mem_singleton.mp hy]
      exact .inl hkey
    · obtain ⟨gone, ht⟩ := collectAll_traversed (fun _ _ _ _ => ih) hall
      have hheads : next a ⊆ res := fun b hb => (collectAll_heads hall hb).1
      refine ⟨a :: gone, ?_, ?_, ?_, ?_, ?_⟩
      · intro k hk
        rcases ht.keys k hk with hk | ⟨x, hx, hkx⟩
        · rcases (mem_of_proceed hgo).mp hk with hk | hka
          · exact .inl hk
          · exact .inr ⟨a, mem_cons_self, hka⟩
        · exact .inr ⟨x, mem_cons_of_mem _ hx, hkx⟩
      · exact fun k hk => ht.kept ((mem_of_proceed hgo).mpr (.inl hk))
      · intro x hx
        rcases mem_cons.mp hx with rfl | hx
        · exact hheads
        · exact ht.closed x hx
      · intro x hx
        rcases mem_cons.mp hx with rfl | hx
        · simp
        · rcases mem_append.mp (ht.among hx) with hx | hx
          · exact mem_append_right _ (hheads hx)
          · exact mem_append_right _ hx
      · intro y hy
        rcases mem_append.mp hy with hy | hy
        · rw [mem_singleton.mp hy]
          exact .inr mem_cons_self
        · rcases ht.covered y (mem_append_right _ hy) with hkey | hy
          · exact .inl hkey
          · exact .inr (mem_cons_of_mem _ hy)

/-- Where steps of one key go on to the same things, everything below the start is found. -/
theorem collect_complete (h : collect guard next n a [] = some (res, seen'))
    (hkey : ∀ x y k, Relation.ReflTransGen (Next next) a x →
      Relation.ReflTransGen (Next next) a y → guard x = some k → guard y = some k →
      next y ⊆ next x) :
    ∀ b, Relation.TransGen (Next next) a b → b ∈ res := by
  obtain ⟨gone, ht⟩ := collect_traversed h
  have hreach : ∀ x ∈ gone, Relation.ReflTransGen (Next next) a x := by
    intro x hx
    rcases mem_append.mp (ht.among hx) with hx | hx
    · rw [mem_singleton.mp hx]
    · exact (collect_sound h x hx).1.to_reflTransGen
  -- from everything found, the traversal has gone on, at least under its key
  have hclosed : ∀ y ∈ [a] ++ res, Relation.ReflTransGen (Next next) a y → next y ⊆ res := by
    intro y hy hay
    rcases ht.covered y hy with ⟨k, hk, hyk⟩ | hgone
    · obtain hk | ⟨x, hx, hxk⟩ := ht.keys k hk
      · cases hk
      · exact List.Subset.trans (hkey x y k (hreach x hx) hay hxk hyk) (ht.closed x hx)
    · exact ht.closed y hgone
  intro b hb
  induction hb with
  | single hab => exact hclosed a (by simp) .refl hab
  | tail hac hcb ih =>
    exact hclosed _ (mem_append_right _ ih) hac.to_reflTransGen hcb

end Complete

section Termination

/-- A step without a key, seen from its end. -/
def Unguarded (guard : H → Option κ) (next : H → List H) (b a : H) : Prop :=
  b ∈ next a ∧ guard b = none

/-- A traversal that has ended had no infinite chain of steps without keys to follow. -/
theorem acc_of_collect (hb : guard b = none) {r : List H × List κ}
    (h : collect guard next n b seen = some r) : Acc (Unguarded guard next) b := by
  induction n generalizing b seen r with
  | zero => cases h
  | succ n ih =>
    obtain ⟨hstop, -⟩ | ⟨seen₁, -, hall⟩ := collect_succ_eq_some_iff.mp h
    · obtain ⟨k, -, hk⟩ := proceed_eq_none_iff.mp hstop
      rw [hb] at hk
      cases hk
    · refine Acc.intro b fun c hc => ?_
      obtain ⟨-, seen₂, r₂, hend⟩ := collectAll_heads hall hc.1
      exact ih hc.2 hend

/-- A step without a key that leads to where it starts is followed for ever. -/
theorem collect_eq_none_of_loop (hb : guard b = none) (hloop : b ∈ next b) (hab : b ∈ next a)
    (hstart : proceed guard a seen ≠ none) : collect guard next n a seen = none := by
  have hirrefl : ∀ b, Acc (Unguarded guard next) b → ¬ Unguarded guard next b b := by
    intro b hacc
    induction hacc with
    | intro b _ ih => exact fun hbb => ih b hbb hbb
  cases hcol : collect guard next n a seen with
  | none => rfl
  | some r =>
    cases n with
    | zero => cases hcol
    | succ n =>
      obtain ⟨hstop, -⟩ | ⟨seen₁, -, hall⟩ := collect_succ_eq_some_iff.mp hcol
      · exact absurd hstop hstart
      · obtain ⟨-, seen₂, r₂, hend⟩ := collectAll_heads hall hab
        exact absurd ⟨hloop, hb⟩ (hirrefl b (acc_of_collect hb hend))

theorem exists_collectAll
    (h : ∀ a ∈ as, ∀ seen₁, seen ⊆ seen₁ → ∃ n r, collect guard next n a seen₁ = some r) :
    ∃ n r, collectAll (collect guard next n) as seen = some r := by
  induction as generalizing seen with
  | nil => exact ⟨0, _, rfl⟩
  | cons a as ih =>
    obtain ⟨n, ⟨found, seen₁⟩, ha⟩ := h a mem_cons_self seen (List.Subset.refl seen)
    obtain ⟨gone, ht⟩ := collect_traversed ha
    obtain ⟨m, ⟨rest, seen₂⟩, has⟩ := @ih seen₁ fun b hb seen₂ hs =>
      h b (mem_cons_of_mem _ hb) seen₂ (List.Subset.trans ht.kept hs)
    refine ⟨max n m, _, collectAll_cons_eq_some_iff.mpr ⟨found, seen₁, rest, seen₂, ?_, ?_, rfl⟩⟩
    · exact collect_mono (Nat.le_max_left n m) ha
    · exact collectAll_mono (fun _ _ _ => collect_mono (Nat.le_max_right n m)) has

variable {keys : Finset κ}

theorem sdiff_toFinset_subset {seen₁ : List κ} (h : seen ⊆ seen₁) :
    keys \ seen₁.toFinset ⊆ keys \ seen.toFinset := by
  intro j hj
  simp only [Finset.mem_sdiff, mem_toFinset] at hj ⊢
  exact ⟨hj.1, fun hjs => hj.2 (h hjs)⟩

/-- Behind a key that is new there are fewer keys to come. -/
theorem exists_collect_of_guard {k : κ} (hk : guard a = some k) (hmem : k ∈ keys)
    (ih : ∀ b ∈ next a, ∀ seen₁ : List κ,
      (keys \ seen₁.toFinset).card < (keys \ seen.toFinset).card →
      ∃ n r, collect guard next n b seen₁ = some r) :
    ∃ n r, collect guard next n a seen = some r := by
  by_cases hs : k ∈ seen
  · exact ⟨1, _, collect_succ_eq_some_iff.mpr
      (.inl ⟨proceed_eq_none_iff.mpr ⟨k, hs, hk⟩, rfl⟩)⟩
  · have hgo : proceed guard a seen = some (k :: seen) := by simp [proceed, hk, hs]
    obtain ⟨n, r, hall⟩ : ∃ n r,
        collectAll (collect guard next n) (next a) (k :: seen) = some r := by
      refine exists_collectAll fun b hb seen₁ hsub => ih b hb seen₁ ?_
      have hk₁ : k ∈ seen₁ := hsub mem_cons_self
      have hsub' : keys \ seen₁.toFinset ⊆ keys \ seen.toFinset :=
        sdiff_toFinset_subset fun j hj => hsub (mem_cons_of_mem _ hj)
      refine Finset.card_lt_card ((Finset.ssubset_iff_of_subset hsub').mpr ⟨k, ?_, ?_⟩)
      · simp [hmem, hs]
      · simp [hk₁]
    exact ⟨n + 1, r, collect_succ_eq_some_iff.mpr (.inr ⟨_, hgo, hall⟩)⟩

/-- A traversal ends when the keys are finitely many and no infinite chain of steps is without
keys. -/
theorem exists_collect (hkeys : ∀ b k, Relation.ReflTransGen (Next next) a b →
      guard b = some k → k ∈ keys)
    (hacc : ∀ b, Relation.ReflTransGen (Next next) a b → Acc (Unguarded guard next) b)
    (seen : List κ) : ∃ n r, collect guard next n a seen = some r := by
  -- the outer induction is on the number of keys to come, the inner one on the chain
  suffices h : ∀ c, ∀ b, Relation.ReflTransGen (Next next) a b → ∀ seen : List κ,
      (keys \ seen.toFinset).card = c → ∃ n r, collect guard next n b seen = some r from
    h _ a .refl seen rfl
  intro c
  induction c using Nat.strong_induction_on with
  | _ c ih =>
    have hguard : ∀ b k, Relation.ReflTransGen (Next next) a b → guard b = some k →
        ∀ seen : List κ, (keys \ seen.toFinset).card ≤ c →
          ∃ n r, collect guard next n b seen = some r := by
      intro b k hb hk seen hc
      refine exists_collect_of_guard hk (hkeys b k hb hk) fun d hd seen₁ hlt => ?_
      exact ih _ (lt_of_lt_of_le hlt hc) d (hb.tail hd) seen₁ rfl
    have hfree : ∀ b, Acc (Unguarded guard next) b → Relation.ReflTransGen (Next next) a b →
        ∀ seen : List κ, (keys \ seen.toFinset).card ≤ c →
          ∃ n r, collect guard next n b seen = some r := by
      intro b hchain
      induction hchain with
      | intro b _ ihchain =>
        intro hb seen hc
        cases hgb : guard b with
        | some k => exact hguard b k hb hgb seen hc
        | none =>
          have hgo : proceed guard b seen = some seen := by simp [proceed, hgb]
          obtain ⟨n, r, hall⟩ :
              ∃ n r, collectAll (collect guard next n) (next b) seen = some r := by
            refine exists_collectAll fun d hd seen₁ hsub => ?_
            have hc₁ : (keys \ seen₁.toFinset).card ≤ c :=
              (Finset.card_le_card (sdiff_toFinset_subset hsub)).trans hc
            cases hgd : guard d with
            | some k => exact hguard d k (hb.tail hd) hgd seen₁ hc₁
            | none => exact ihchain d ⟨hd, hgd⟩ (hb.tail hd) seen₁ hc₁
          exact ⟨n + 1, r, collect_succ_eq_some_iff.mpr (.inr ⟨_, hgo, hall⟩)⟩
    exact fun b hb seen hc => hfree b (hacc b hb) hb seen hc.le

end Termination

end Skit.Lib.Traverse
