import Mathlib.Data.List.Forall2
import Mathlib.Data.List.Sort

/-!
# Paging by a key

The rows are served in descending order of a key, some at a time, and the key of the last row is
the boundary of the next page. The rows may be other ones at every request. `walk` follows the
boundaries: its keys only descend, and a row that is there at every request is served.
-/
namespace Skit.Lib.Keyset
open List

variable {α K : Type} [LinearOrder K] (key : α → K)

def descending (xs : List α) : List α := xs.insertionSort fun a b => key b ≤ key a

/-- A key beyond the boundary; without a boundary every key is. -/
def Past (after : Option K) (k : K) : Prop := ∀ b ∈ after, k < b

instance (after : Option K) (k : K) : Decidable (Past after k) :=
  inferInstanceAs (Decidable (∀ b ∈ after, k < b))

theorem past_none (k : K) : Past none k := nofun

theorem past_some {b k : K} : Past (some b) k ↔ k < b :=
  ⟨fun h => h b rfl, fun h _ hb => Option.some.inj hb ▸ h⟩

def past (after : Option K) (xs : List α) : List α := xs.filter fun x => Past after (key x)

/-- A page of `n` rows and the boundary of the next page, if a row too many tells that there is
one. -/
def page (n : ℕ) (after : Option K) (xs : List α) : List α × Option K :=
  let rows := (descending key (past key after xs)).take (n + 1)
  if n < rows.length then (rows.take n, (rows.take n).getLast?.map key) else (rows, none)

/-- The pages of requests that each follow the boundary of the one before, over the rows there are
at each request; whether the last page has been reached. -/
def walk (n : ℕ) (after : Option K) : List (List α) → List (List α) × Bool
  | [] => ([], false)
  | xs :: xss =>
    match (page key n after xs).2 with
    | none => ([(page key n after xs).1], true)
    | some b => ((page key n after xs).1 :: (walk n (some b) xss).1, (walk n (some b) xss).2)

section Order

variable {key} {xs ys : List α} {after : Option K} {k : K}

theorem mem_past {x : α} : x ∈ past key after xs ↔ x ∈ xs ∧ Past after (key x) := by
  simp [past]

theorem past_none_eq : past key none xs = xs :=
  filter_eq_self.mpr fun x _ => decide_eq_true (past_none (key x))

theorem descending_perm : (descending key xs).Perm xs := perm_insertionSort _ xs

theorem mem_descending {x : α} : x ∈ descending key xs ↔ x ∈ xs := descending_perm.mem_iff

/-- Distinct keys descend strictly. -/
theorem descending_pairwise (h : (xs.map key).Nodup) :
    (descending key xs).Pairwise fun a b => key b < key a := by
  have htotal : Std.Total fun a b : α => key b ≤ key a := ⟨fun a b => le_total (key b) (key a)⟩
  have htrans : IsTrans α fun a b : α => key b ≤ key a := ⟨fun _ _ _ hab hbc => hbc.trans hab⟩
  have hle : (descending key xs).Pairwise fun a b => key b ≤ key a :=
    pairwise_insertionSort _ xs
  have hne : (descending key xs).Pairwise fun a b => key a ≠ key b :=
    pairwise_map.mp ((descending_perm.map key).nodup_iff.mpr h)
  exact (hle.and hne).imp fun hab => lt_of_le_of_ne hab.1 hab.2.symm

/-- A strictly descending list is told by its elements. -/
theorem eq_of_perm (hp : xs.Perm ys) (hx : xs.Pairwise fun a b => key b < key a)
    (hy : ys.Pairwise fun a b => key b < key a) : xs = ys :=
  hp.eq_of_pairwise (fun _ _ _ _ hab hba => absurd (hab.trans hba) (lt_irrefl _)) hx hy

variable (after) in
theorem nodup_past (h : (xs.map key).Nodup) : ((past key after xs).map key).Nodup :=
  h.sublist (filter_sublist.map key)

/-- Beyond a boundary among the rows beyond another one. -/
theorem descending_past {b : K} (h : (xs.map key).Nodup) (hb : Past after b) :
    descending key (past key (some b) xs) =
      (descending key (past key after xs)).filter fun x => key x < b := by
  refine eq_of_perm ?_ (descending_pairwise (nodup_past _ h))
    ((descending_pairwise (nodup_past _ h)).filter _)
  have hpast : past key (some b) xs = (past key after xs).filter fun x => key x < b := by
    unfold past
    rw [filter_filter]
    refine filter_congr fun x _ => ?_
    have hiff : Past (some b) (key x) ↔ key x < b ∧ Past after (key x) := by
      rw [past_some]
      exact ⟨fun hx => ⟨hx, fun c hc => hx.trans (hb c hc)⟩, fun hx => hx.1⟩
    simp [hiff]
  rw [hpast]
  exact descending_perm.trans (descending_perm.filter _).symm

end Order

section Pages

variable {key} {n : ℕ} {xs : List α} {after : Option K}

variable (after) in
/-- What a page does: it is all that is left, or the first rows of it up to a boundary that leaves
the others. -/
theorem page_cases (hn : 0 < n) (h : (xs.map key).Nodup) :
    page key n after xs = (descending key (past key after xs), none) ∨
      ∃ b, page key n after xs = ((descending key (past key after xs)).take n, some b) ∧
        n < (past key after xs).length ∧ Past after b ∧
        (∀ x ∈ (descending key (past key after xs)).take n, b ≤ key x) ∧
        descending key (past key (some b) xs) = (descending key (past key after xs)).drop n := by
  have hsorted := descending_pairwise (nodup_past after h)
  have hmem : ∀ x ∈ descending key (past key after xs), Past after (key x) :=
    fun x hx => (mem_past.mp (mem_descending.mp hx)).2
  have hrest : ∀ b, Past after b → descending key (past key (some b) xs) =
      (descending key (past key after xs)).filter fun x => key x < b :=
    fun _ => descending_past h
  have hlength : (descending key (past key after xs)).length = (past key after xs).length :=
    descending_perm.length_eq
  unfold page
  generalize descending key (past key after xs) = rows at hsorted hmem hrest hlength ⊢
  dsimp only
  by_cases hlen : n < rows.length
  · have htaken : (rows.take n).length = n := length_take_of_le hlen.le
    obtain ⟨front, x, hfront⟩ : ∃ front x, rows.take n = front ++ [x] := by
      refine (eq_nil_or_concat' (rows.take n)).resolve_left fun hnil => ?_
      rw [hnil, length_nil] at htaken
      omega
    have hpair := hsorted
    rw [← take_append_drop n rows, hfront, append_assoc, singleton_append,
      pairwise_append, pairwise_cons] at hpair
    obtain ⟨-, ⟨hbelow, -⟩, habove⟩ := hpair
    have hmin : ∀ y ∈ rows.take n, key x ≤ key y := by
      intro y hy
      rw [hfront, mem_append, mem_singleton] at hy
      rcases hy with hy | rfl
      · exact (habove y hy x mem_cons_self).le
      · exact le_rfl
    have hx : x ∈ rows := mem_of_mem_take (i := n) (by rw [hfront]; simp)
    refine .inr ⟨key x, ?_, hlength ▸ hlen, hmem x hx, hmin, ?_⟩
    · rw [if_pos (by rw [length_take]; omega), take_take, Nat.min_eq_left (by omega),
        hfront]
      simp
    · have htake : (rows.take n).filter (fun y => key y < key x) = [] :=
        filter_eq_nil_iff.mpr fun y hy => by simpa using hmin y hy
      have hdrop : (rows.drop n).filter (fun y => key y < key x) = rows.drop n :=
        filter_eq_self.mpr fun y hy => by simpa using hbelow y hy
      rw [hrest _ (hmem x hx), ← take_append_drop n rows, filter_append, htake, hdrop,
        take_append_drop, nil_append]
  · left
    rw [take_of_length_le (by omega), if_neg hlen]

/-- A boundary is the key of a row. -/
theorem exists_of_boundary {b : K} (h : (page key n after xs).2 = some b) :
    ∃ x ∈ xs, key x = b := by
  dsimp only [page] at h
  split at h
  · obtain ⟨x, hx, rfl⟩ := Option.map_eq_some_iff.mp h
    have hmem := mem_of_mem_take (mem_of_mem_take (mem_of_getLast? hx))
    exact ⟨x, (mem_past.mp (mem_descending.mp hmem)).1, rfl⟩
  · cases h

end Pages

section Walks

variable {key} {n : ℕ} {xs : List α} {xss : List (List α)} {after : Option K} {rows : List α}

theorem walk_last (h : page key n after xs = (rows, none)) :
    walk key n after (xs :: xss) = ([rows], true) := by
  simp only [walk, h]

theorem walk_next {b : K} (h : page key n after xs = (rows, some b)) :
    walk key n after (xs :: xss) =
      (rows :: (walk key n (some b) xss).1, (walk key n (some b) xss).2) := by
  simp only [walk, h]

variable (after) in
/-- The keys descend from page to page. -/
theorem walk_descends (hn : 0 < n) (h : ∀ xs ∈ xss, (xs.map key).Nodup) :
    (walk key n after xss).1.flatten.Pairwise (fun a b => key b < key a) ∧
      ∀ x ∈ (walk key n after xss).1.flatten, Past after (key x) := by
  induction xss generalizing after with
  | nil => exact ⟨.nil, nofun⟩
  | cons xs xss ih =>
    have hxs := h xs mem_cons_self
    have hsorted := descending_pairwise (nodup_past after hxs)
    have hpast : ∀ x ∈ descending key (past key after xs), Past after (key x) :=
      fun x hx => (mem_past.mp (mem_descending.mp hx)).2
    obtain hpage | ⟨b, hpage, -, hb, hmin, -⟩ := page_cases after hn hxs
    · rw [walk_last hpage]
      simp only [flatten_cons, flatten_nil, append_nil]
      exact ⟨hsorted, hpast⟩
    · obtain ⟨hrest, hbeyond⟩ := ih (some b) fun ys hys =>
        h ys (mem_cons_of_mem _ hys)
      rw [walk_next hpage]
      simp only [flatten_cons]
      refine ⟨pairwise_append.mpr ⟨hsorted.sublist (take_sublist n _), hrest, ?_⟩, ?_⟩
      · intro x hx y hy
        exact (hbeyond y hy b rfl).trans_le (hmin x hx)
      · intro x hx
        rcases mem_append.mp hx with hx | hx
        · exact hpast x (mem_of_mem_take hx)
        · exact fun c hc => (hbeyond x hx b rfl).trans (hb c hc)

variable (after) in
/-- The rows of a page are of its request. -/
theorem walk_mem (hn : 0 < n) (h : ∀ xs ∈ xss, (xs.map key).Nodup) :
    List.Forall₂ (fun rows xs => ∀ x ∈ rows, x ∈ xs) (walk key n after xss).1
      (xss.take (walk key n after xss).1.length) := by
  induction xss generalizing after with
  | nil => exact .nil
  | cons xs xss ih =>
    have hmem : ∀ x ∈ descending key (past key after xs), x ∈ xs :=
      fun x hx => (mem_past.mp (mem_descending.mp hx)).1
    obtain hpage | ⟨b, hpage, -⟩ := page_cases after hn (h xs mem_cons_self)
    · rw [walk_last hpage]
      exact .cons hmem .nil
    · rw [walk_next hpage]
      exact .cons (fun x hx => hmem x (mem_of_mem_take hx))
        (ih (some b) fun ys hys => h ys (mem_cons_of_mem _ hys))

theorem exists_of_mem_flatten {rss : List (List α)} {x : α}
    (h : List.Forall₂ (fun rows xs => ∀ x ∈ rows, x ∈ xs) rss xss) (hx : x ∈ rss.flatten) :
    ∃ xs ∈ xss, x ∈ xs := by
  induction h with
  | nil => cases hx
  | cons hrows _ ih =>
    rcases mem_append.mp hx with hx | hx
    · exact ⟨_, mem_cons_self, hrows x hx⟩
    · obtain ⟨ys, hys, hxy⟩ := ih hx
      exact ⟨ys, mem_cons_of_mem _ hys, hxy⟩

/-- A walk to the last page meets every key that is there at each of its requests. -/
theorem walk_serves (hn : 0 < n) (h : ∀ xs ∈ xss, (xs.map key).Nodup)
    (hdone : (walk key n after xss).2 = true) {k : K} (hk : Past after k)
    (hthere : ∀ xs ∈ xss.take (walk key n after xss).1.length, ∃ x ∈ xs, key x = k) :
    ∃ x ∈ (walk key n after xss).1.flatten, key x = k := by
  induction xss generalizing after with
  | nil => cases hdone
  | cons xs xss ih =>
    have hxs := h xs mem_cons_self
    obtain hpage | ⟨b, hpage, -, -, -, hrest⟩ := page_cases after hn hxs
    · rw [walk_last hpage] at hthere ⊢
      obtain ⟨x, hx, rfl⟩ := hthere xs mem_cons_self
      refine ⟨x, ?_, rfl⟩
      simp only [flatten_cons, flatten_nil, append_nil]
      exact mem_descending.mpr (mem_past.mpr ⟨hx, hk⟩)
    · rw [walk_next hpage] at hdone hthere ⊢
      obtain ⟨x, hx, rfl⟩ := hthere xs mem_cons_self
      have hin : x ∈ descending key (past key after xs) :=
        mem_descending.mpr (mem_past.mpr ⟨hx, hk⟩)
      rw [← take_append_drop n (descending key (past key after xs)), ← hrest] at hin
      simp only [flatten_cons]
      rcases mem_append.mp hin with hin | hin
      · exact ⟨x, mem_append_left _ hin, rfl⟩
      · -- The key is beyond the boundary and is met on a later page.
        obtain ⟨y, hy, hkey⟩ := ih (fun ys hys => h ys (mem_cons_of_mem _ hys)) hdone
          (mem_past.mp (mem_descending.mp hin)).2
          (fun ys hys => hthere ys (mem_cons_of_mem _ hys))
        exact ⟨y, mem_append_right _ hy, hkey⟩

/-- Over rows that stay, enough requests serve them all in their order. -/
theorem walk_still (hn : 0 < n) (h : (xs.map key).Nodup) {m : ℕ} (hm : 0 < m)
    (hlen : (past key after xs).length ≤ m * n) :
    (walk key n after (List.replicate m xs)).2 = true ∧
      (walk key n after (List.replicate m xs)).1.flatten =
        descending key (past key after xs) := by
  induction m generalizing after with
  | zero => exact absurd hm (lt_irrefl 0)
  | succ m ih =>
    rw [replicate_succ]
    obtain hpage | ⟨b, hpage, hmore, -, -, hrest⟩ := page_cases after hn h
    · rw [walk_last hpage]
      simp
    · have hdrop := congrArg List.length hrest
      rw [length_drop, descending_perm.length_eq, descending_perm.length_eq] at hdrop
      rw [Nat.succ_mul] at hlen
      have hpos : 0 < m := Nat.pos_of_ne_zero fun h0 => by
        rw [h0, Nat.zero_mul] at hlen
        omega
      obtain ⟨hdone, hall⟩ := @ih (some b) hpos (by omega)
      rw [walk_next hpage]
      refine ⟨hdone, ?_⟩
      simp only [flatten_cons]
      rw [hall, hrest, take_append_drop]

end Walks

end Skit.Lib.Keyset
