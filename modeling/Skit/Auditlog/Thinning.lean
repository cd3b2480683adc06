import Skit.Auditlog.Compact
import Mathlib.Data.Finset.Card
import Mathlib.Order.Interval.Finset.Nat

/-!
# What the options of a compaction keep

The flags of `versionsToDelete` are a function of the position of a version (`keepFlags_eq`). The
positions that no option protects are an interval, and in cap mode the points that are picked in it
are distinct, so that their number is the budget.
-/
namespace Skit.Auditlog
open List

/-- The first, the last and the recent versions are never thinned. -/
def Protected (n : Nat) (opts : CompactOptions) (i : Nat) : Prop :=
  i = 0 ∨ i + 1 = n ∨ (n : Int) - max opts.keepRecent 0 ≤ i

instance (n : Nat) (opts : CompactOptions) : DecidablePred (Protected n opts) :=
  fun _ => inferInstanceAs (Decidable (_ ∨ _ ∨ _))

/-- The number of protected versions. -/
def protectedCount (n : Nat) (opts : CompactOptions) : Nat :=
  ((Finset.range n).filter (Protected n opts)).card

/-- Position `i` is one of `budget` points spread over `span` positions from `lo` on. -/
def picked (lo span budget : Int) (i : Nat) : Bool :=
  (List.range budget.toNat).any fun j => lo + (j * span) / budget = i

/-- A position that is not protected is kept. -/
def keptInside (n : Nat) (opts : CompactOptions) (i : Nat) : Bool :=
  if 0 < opts.maxVersions then
    let span := recentStart n opts - 1
    let budget := opts.maxVersions - protectedCount n opts
    if budget ≤ 0 then false else if span ≤ budget then true else picked 1 span budget i
  else if 2 ≤ opts.factor then (i : Int) % opts.factor = 0
  else true

def kept (n : Nat) (opts : CompactOptions) (i : Nat) : Bool :=
  Protected n opts i || keptInside n opts i

section Flags

variable {n i : Nat} {opts : CompactOptions}

variable (n opts) in
theorem recentStart_eq : recentStart n opts = n - max opts.keepRecent 1 := by
  unfold recentStart
  split_ifs <;> omega

theorem not_protected_iff (hi : i < n) :
    ¬ Protected n opts i ↔ 1 ≤ i ∧ (i : Int) < recentStart n opts := by
  rw [recentStart_eq, Protected]
  omega

theorem mark_map (f p : Nat → Bool) :
    mark p ((List.range n).map f) = (List.range n).map fun i => f i || p i := by
  refine ext_getElem (by simp [mark]) fun i h h' => ?_
  simp [mark]

theorem keepEnds_eq :
    keepEnds n opts = (List.range n).map fun i => decide (Protected n opts i) := by
  have hnone : List.replicate n false = (List.range n).map fun _ => false := by simp
  unfold keepEnds
  dsimp only
  rw [hnone, mark_map]
  split_ifs with hrecent
  · rw [mark_map]
    refine map_congr_left fun i hi => ?_
    have hi := mem_range.mp hi
    rw [Bool.false_or, ← Bool.decide_or, ← Bool.decide_or]
    refine decide_eq_decide.mpr ?_
    unfold Protected
    omega
  · refine map_congr_left fun i hi => ?_
    have hi := mem_range.mp hi
    rw [Bool.false_or, ← Bool.decide_or]
    refine decide_eq_decide.mpr ?_
    unfold Protected
    omega

theorem card_filter_range (p : Nat → Prop) [DecidablePred p] :
    ((Finset.range n).filter p).card = (List.range n).countP fun i => decide (p i) := by
  rw [countP_eq_length_filter]
  rfl

theorem countKept_keepEnds : countKept (keepEnds n opts) = protectedCount n opts := by
  rw [keepEnds_eq, countKept, List.count, countP_map, protectedCount, card_filter_range]
  refine countP_congr fun i _ => ?_
  simp

/-- Whether a version stays is a matter of its position. -/
theorem keepFlags_eq : keepFlags n opts = (List.range n).map (kept n opts) := by
  have hmark : ∀ p : Nat → Bool, (∀ i < n, ¬ Protected n opts i → p i = keptInside n opts i) →
      mark p (keepEnds n opts) = (List.range n).map (kept n opts) := by
    intro p hp
    rw [keepEnds_eq, mark_map]
    refine map_congr_left fun i hi => ?_
    rw [kept]
    by_cases hprotected : Protected n opts i
    · simp [hprotected]
    · rw [hp i (mem_range.mp hi) hprotected]
  unfold keepFlags
  dsimp only
  rw [countKept_keepEnds]
  split_ifs with hcap hfactor
  · unfold keepEvenly
    dsimp only
    split_ifs with hnone hall
    · have hends : mark (fun _ => false) (keepEnds n opts) = keepEnds n opts := by
        rw [keepEnds_eq, mark_map]
        simp
      rw [← hends]
      refine hmark _ fun i hi hprotected => ?_
      obtain ⟨hpos, hlt⟩ := (not_protected_iff hi).mp hprotected
      have hbudget : opts.maxVersions - protectedCount n opts ≤ 0 := by omega
      simp only [keptInside, if_pos hcap, if_pos hbudget]
    · push Not at hnone
      refine hmark _ fun i hi hprotected => ?_
      obtain ⟨hpos, hlt⟩ := (not_protected_iff hi).mp hprotected
      have hpos : (1 : Int) ≤ i := by omega
      simp only [keptInside, if_pos hcap, if_neg (not_le.mpr hnone.2), if_pos hall]
      simp [hpos, hlt]
    · push Not at hnone
      refine hmark _ fun i hi _ => ?_
      simp only [keptInside, if_pos hcap, if_neg (not_le.mpr hnone.2), if_neg hall, picked]
  · refine hmark _ fun i hi hprotected => ?_
    have hinside := (not_protected_iff hi).mp hprotected
    simp [keptInside, hcap, hfactor, hinside]
  · refine hmark _ fun i hi hprotected => ?_
    have hinside := (not_protected_iff hi).mp hprotected
    simp [keptInside, hcap, hfactor, hinside]

end Flags

section Points

variable {lo span budget : Nat}

theorem point_strictMono (hbudget : 0 < budget) (hspan : budget ≤ span) :
    StrictMono fun j => lo + j * span / budget := by
  refine strictMono_nat_of_lt_succ fun j => ?_
  have hstep : j * span / budget + 1 ≤ (j + 1) * span / budget := by
    rw [← Nat.add_div_right _ hbudget]
    refine Nat.div_le_div_right ?_
    rw [Nat.add_mul, Nat.one_mul]
    exact Nat.add_le_add_left hspan _
  omega

theorem point_lt (hspan : 0 < span) {j : Nat} (hj : j < budget) :
    lo + j * span / budget < lo + span := by
  have hlt : j * span / budget < span := by
    rw [Nat.div_lt_iff_lt_mul (by omega), Nat.mul_comm span]
    exact Nat.mul_lt_mul_of_pos_right hj hspan
  omega

theorem picked_iff {i : Nat} :
    picked lo span budget i = true ↔ ∃ j < budget, lo + j * span / budget = i := by
  simp only [picked, Int.toNat_natCast, any_eq_true, mem_range, decide_eq_true_eq]
  refine exists_congr fun j => and_congr_right fun _ => ?_
  rw [← Int.natCast_mul, ← Int.natCast_ediv]
  omega

end Points

section Counts

variable {n : Nat} {opts : CompactOptions}

theorem filter_not_protected : (Finset.range n).filter (fun i => ¬ Protected n opts i) =
    Finset.Ico 1 (recentStart n opts).toNat := by
  ext i
  simp only [Finset.mem_filter, Finset.mem_range, Finset.mem_Ico]
  constructor
  · rintro ⟨hi, hprotected⟩
    have hinside := (not_protected_iff hi).mp hprotected
    omega
  · rintro ⟨hpos, hlt⟩
    have hi : i < n := by
      rw [recentStart_eq] at hlt
      omega
    exact ⟨hi, (not_protected_iff hi).mpr (by omega)⟩

variable (n opts) in
theorem protectedCount_add : protectedCount n opts + ((recentStart n opts).toNat - 1) = n := by
  have hsplit := Finset.card_filter_add_card_filter_not (s := Finset.range n) (Protected n opts)
  rw [filter_not_protected, Nat.card_Ico, Finset.card_range] at hsplit
  exact hsplit

theorem card_keptInside (hcap : 0 < opts.maxVersions) :
    (((Finset.Ico 1 (recentStart n opts).toNat).filter
      fun i => keptInside n opts i = true).card : Int) =
      min ((n : Int) - protectedCount n opts)
        (max (opts.maxVersions - protectedCount n opts) 0) := by
  have hcount := protectedCount_add n opts
  unfold keptInside
  simp only [if_pos hcap]
  split_ifs with hnone hall
  · simp
    omega
  · simp
    omega
  · -- the picked points are a strictly monotone image of the numbers below the budget
    obtain ⟨budget, hbudget⟩ := Int.eq_ofNat_of_zero_le (by omega :
      0 ≤ opts.maxVersions - (protectedCount n opts : Int))
    obtain ⟨span, hspan⟩ := Int.eq_ofNat_of_zero_le (by omega : 0 ≤ recentStart n opts - 1)
    rw [hbudget, hspan]
    have himage : (Finset.Ico 1 (recentStart n opts).toNat).filter
        (fun i => picked ((1 : Nat) : Int) span budget i = true) =
        (Finset.range budget).image fun j => 1 + j * span / budget := by
      ext i
      simp only [Finset.mem_filter, Finset.mem_Ico, picked_iff, Finset.mem_image, Finset.mem_range]
      constructor
      · exact fun h => h.2
      · rintro ⟨j, hj, rfl⟩
        have hend : 1 + span ≤ (recentStart n opts).toNat := by omega
        exact ⟨⟨Nat.le_add_right 1 _, (point_lt (by omega) hj).trans_le hend⟩, j, hj, rfl⟩
    have hmono : StrictMono fun j => 1 + j * span / budget :=
      point_strictMono (by omega) (by omega)
    have hcard := Finset.card_image_of_injective (Finset.range budget) hmono.injective
    rw [← Int.natCast_one, himage, hcard, Finset.card_range]
    omega

theorem card_kept (hcap : 0 < opts.maxVersions) :
    (((Finset.range n).filter fun i => kept n opts i = true).card : Int) =
      min (n : Int) (max opts.maxVersions (protectedCount n opts)) := by
  have hsplit : (Finset.range n).filter (fun i => kept n opts i = true) =
      (Finset.range n).filter (Protected n opts) ∪
        (Finset.Ico 1 (recentStart n opts).toNat).filter fun i => keptInside n opts i = true := by
    rw [← filter_not_protected, Finset.filter_filter]
    ext i
    simp only [kept, Finset.mem_filter, Finset.mem_union, Bool.or_eq_true, decide_eq_true_eq]
    tauto
  have hdisjoint : Disjoint ((Finset.range n).filter (Protected n opts))
      ((Finset.Ico 1 (recentStart n opts).toNat).filter
        fun i => keptInside n opts i = true) := by
    rw [← filter_not_protected, Finset.filter_filter]
    refine Finset.disjoint_filter.mpr fun i _ hprotected hnot => hnot.1 hprotected
  have hcount := protectedCount_add n opts
  rw [hsplit, Finset.card_union_of_disjoint hdisjoint, Int.natCast_add, card_keptInside hcap,
    ← protectedCount]
  omega

end Counts

section Versions

variable {vers : List Int} {opts : CompactOptions} {i : Nat} {v : Int}

theorem versionsToDelete_sublist : (versionsToDelete vers opts).Sublist vers := by
  have hzip : ∀ flags : List Bool, ((vers.zip flags).filterMap fun p =>
      if p.2 then none else some p.1).Sublist vers := by
    induction vers with
    | nil => exact fun _ => nil_sublist []
    | cons w vers ih =>
      intro flags
      cases flags with
      | nil => exact nil_sublist _
      | cons kept flags =>
        cases kept with
        | true => exact (ih flags).cons w
        | false => exact (ih flags).cons_cons w
  unfold versionsToDelete
  split_ifs
  · exact nil_sublist vers
  · exact hzip _

variable (opts) in
theorem mem_versionsToDelete (hs : vers.Pairwise (· < ·)) (hv : vers[i]? = some v) :
    v ∈ versionsToDelete vers opts ↔
      max opts.minVersions 2 < vers.length ∧ kept vers.length opts i = false := by
  obtain ⟨hi, rfl⟩ := List.getElem?_eq_some_iff.mp hv
  have hflag : ∀ {j : Nat}, j < vers.length →
      (keepFlags vers.length opts)[j]? = some (kept vers.length opts j) := by
    intro j hj
    rw [keepFlags_eq]
    simp [hj]
  constructor
  · intro hdel
    obtain ⟨j, hj, hkept⟩ := exists_index_of_deleted hdel
    obtain ⟨hj, heq⟩ := List.getElem?_eq_some_iff.mp hj
    have hnodup : vers.Nodup := hs.imp ne_of_lt
    obtain rfl : j = i := hnodup.getElem_inj_iff.mp heq
    rw [hflag hi] at hkept
    refine ⟨?_, Option.some.inj hkept⟩
    by_contra hfew
    rw [versionsToDelete, if_pos (not_lt.mp hfew)] at hdel
    cases hdel
  · rintro ⟨hmany, hkept⟩
    rw [versionsToDelete, if_neg (not_le.mpr hmany)]
    refine mem_filterMap.mpr ⟨(vers[i], false), ?_, rfl⟩
    refine mem_iff_getElem?.mpr ⟨i, getElem?_zip_eq_some.mpr ⟨hv, ?_⟩⟩
    rw [hflag hi, hkept]

theorem countP_eq_range (p : Int → Bool) :
    vers.countP p = (List.range vers.length).countP fun i => vers[i]?.any p := by
  have hmap : vers.map p = (List.range vers.length).map fun i => vers[i]?.any p := by
    refine ext_getElem (by simp) fun i h h' => ?_
    have hi : i < vers.length := by simpa using h
    simp [getElem?_eq_getElem hi]
  have hcount := congrArg (List.countP id) hmap
  rwa [countP_map, countP_map] at hcount

theorem length_remaining (hs : vers.Pairwise (· < ·))
    (hmany : max opts.minVersions 2 < (vers.length : Int)) :
    (vers.filter (· ∉ versionsToDelete vers opts)).length =
      ((Finset.range vers.length).filter fun i => kept vers.length opts i = true).card := by
  rw [← countP_eq_length_filter, countP_eq_range, card_filter_range]
  refine countP_congr fun i hi => ?_
  have hi := mem_range.mp hi
  have hiff := mem_versionsToDelete opts hs (getElem?_eq_getElem hi)
  simp only [getElem?_eq_getElem hi, Option.any_some, decide_eq_true_eq, hiff, hmany,
    true_and, Bool.not_eq_false]

end Versions

/-- What the options promise of the versions to delete. -/
structure Promises (vers : List Int) (opts : CompactOptions) (del : List Int) : Prop where
  sublist : del.Sublist vers
  protected_kept : ∀ i v, vers[i]? = some v → Protected vers.length opts i → v ∉ del
  few : (vers.length : Int) ≤ max opts.minVersions 2 → del = []
  cap : max opts.minVersions 2 < (vers.length : Int) → 0 < opts.maxVersions →
    ((vers.filter (· ∉ del)).length : Int) =
      min (vers.length : Int) (max opts.maxVersions (protectedCount vers.length opts))
  factor : max opts.minVersions 2 < (vers.length : Int) → opts.maxVersions ≤ 0 →
    2 ≤ opts.factor → ∀ (i : Nat) v, vers[i]? = some v → ¬ Protected vers.length opts i →
      (v ∉ del ↔ opts.factor ∣ i)
  idle : opts.maxVersions ≤ 0 → opts.factor < 2 → del = []

theorem compaction_promises {vers : List Int} (hs : vers.Pairwise (· < ·)) (opts : CompactOptions) :
    Promises vers opts (versionsToDelete vers opts) where
  sublist := versionsToDelete_sublist
  protected_kept i v hv hprotected hdel := by
    have hkept := ((mem_versionsToDelete opts hs hv).mp hdel).2
    simp [kept, hprotected] at hkept
  few hfew := if_pos hfew
  cap hmany hcap := by rw [length_remaining hs hmany, card_kept hcap]
  factor hmany hcap hfactor i v hv hprotected := by
    have hkept : kept vers.length opts i = decide ((i : Int) % opts.factor = 0) := by
      rw [kept, decide_eq_false hprotected, Bool.false_or, keptInside, if_neg hcap.not_gt,
        if_pos hfactor]
    rw [mem_versionsToDelete opts hs hv, hkept, decide_eq_false_iff_not, not_and, not_not,
      Int.dvd_iff_emod_eq_zero]
    exact ⟨fun h => h hmany, fun h _ => h⟩
  idle hcap hfactor := by
    refine eq_nil_iff_forall_not_mem.mpr fun v hdel => ?_
    obtain ⟨i, hi⟩ := mem_iff_getElem?.mp (versionsToDelete_sublist.subset hdel)
    have hkept := ((mem_versionsToDelete opts hs hi).mp hdel).2
    simp [kept, keptInside, hcap.not_gt, hfactor.not_ge] at hkept

/-- Nine versions are cut down to five. -/
theorem compaction_promises_nine :
    Promises [1, 2, 3, 4, 5, 6, 7, 8, 9] ⟨0, 2, 5, 0⟩ [3, 4, 6, 7] := by
  have hdel : versionsToDelete [1, 2, 3, 4, 5, 6, 7, 8, 9] ⟨0, 2, 5, 0⟩ = [3, 4, 6, 7] := by decide
  rw [← hdel]
  exact compaction_promises (by decide) _

end Skit.Auditlog
