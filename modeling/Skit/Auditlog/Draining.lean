import Skit.Auditlog.Core
import Skit.Auditlog.Thinning

/-!
# Draining by batches

How many versions of a model a compaction deletes depends on their number, and is monotone in it
(`deletable`). So when a batch, which takes the models with the most versions, finds nothing to
delete, there is nothing to delete anywhere. Every other batch deletes rows, and the batches end,
unless a model has more versions to delete than one statement can name: there each batch fails.
-/
namespace Skit.Auditlog
open Lib List Table

/-- How many of `n` versions a compaction deletes. -/
def deletable (opts : CompactOptions) (n : Nat) : Nat :=
  if max opts.minVersions 2 < (n : Int) then (List.range n).countP fun i => !kept n opts i else 0

section Deletable

variable {opts : CompactOptions}

theorem length_versionsToDelete (vers : List Int) :
    (versionsToDelete vers opts).length = deletable opts vers.length := by
  unfold versionsToDelete deletable
  split_ifs with hfew hmany hmany
  · omega
  · rfl
  · have hflags : (vers.zip (keepFlags vers.length opts)).map Prod.snd =
        keepFlags vers.length opts := map_snd_zip (by simp [keepFlags_eq])
    have hcount := countP_map (p := fun k : Bool => !k) (f := Prod.snd)
      (l := vers.zip (keepFlags vers.length opts))
    rw [hflags, keepFlags_eq, countP_map] at hcount
    rw [length_filterMap_eq_countP, keepFlags_eq]
    refine (countP_congr fun p _ => ?_).trans hcount.symm
    cases hp : p.2 <;> simp [hp]
  · omega

theorem deletable_cap {n : Nat} (hmany : max opts.minVersions 2 < (n : Int))
    (hcap : 0 < opts.maxVersions) :
    (deletable opts n : Int) =
      n - min (n : Int) (max opts.maxVersions (protectedCount n opts)) := by
  have hkept := card_kept (n := n) hcap
  rw [card_filter_range] at hkept
  have hsplit := length_eq_countP_add_countP (fun i => kept n opts i) (l := List.range n)
  rw [length_range] at hsplit
  rw [deletable, if_pos hmany]
  simp only [Bool.decide_eq_true, Bool.not_eq_true, Bool.decide_eq_false] at hkept hsplit
  omega

/-- A model with more versions has no fewer to delete. -/
theorem deletable_mono : Monotone (deletable opts) := by
  intro n n' hn
  by_cases hmany : max opts.minVersions 2 < (n : Int)
  · have hmany' : max opts.minVersions 2 < (n' : Int) := by omega
    by_cases hcap : 0 < opts.maxVersions
    · have hdel := deletable_cap hmany hcap
      have hdel' := deletable_cap hmany' hcap
      have hcount := protectedCount_add n opts
      have hcount' := protectedCount_add n' opts
      rw [recentStart_eq] at hcount hcount'
      omega
    · rw [deletable, if_pos hmany, deletable, if_pos hmany']
      refine (countP_mono_left fun i hi hdel => ?_).trans
        (List.Sublist.countP_le (range_sublist.mpr hn))
      have hi := mem_range.mp hi
      simp only [kept, keptInside, if_neg hcap, Bool.not_or, Bool.and_eq_true, Bool.not_eq_true',
        decide_eq_false_iff_not] at hdel ⊢
      refine ⟨?_, hdel.2⟩
      have hinside := (not_protected_iff hi).mp hdel.1
      rw [not_protected_iff (by omega)]
      rw [recentStart_eq] at hinside ⊢
      omega
  · rw [deletable, if_neg hmany]
    exact Nat.zero_le _

theorem versionsToDelete_eq_nil_of_le {vers vers' : List Int} (h : versionsToDelete vers opts = [])
    (hle : vers'.length ≤ vers.length) : versionsToDelete vers' opts = [] := by
  rw [← length_eq_zero_iff, length_versionsToDelete] at h ⊢
  exact Nat.le_zero.mp (h ▸ deletable_mono hle)

end Deletable

section Tables

variable {P : Type} {t : Table P} {m : Model} {threshold : Int}

theorem length_versions : (t.versions m).length = t.rows.countP fun r => r.toModel = m := by
  rw [versions, length_map, history, length_insertionSort,
    countP_eq_length_filter]

theorem mem_groups {ref : ModelRef} (h : ref ∈ t.groups threshold) :
    (t.versions ref.toModel).length = ref.versions := by
  obtain ⟨hmem, -⟩ := mem_filter.mp h
  obtain ⟨m, -, rfl⟩ := mem_map.mp hmem
  exact length_versions

theorem exists_group (hne : t.versions m ≠ []) (hmany : threshold < ((t.versions m).length : Int)) :
    ∃ ref ∈ t.groups threshold, ref.toModel = m := by
  obtain ⟨v, hv⟩ := exists_mem_of_ne_nil _ hne
  obtain ⟨r, hr, hm, -⟩ := Table.mem_versions.mp hv
  refine ⟨⟨m, t.rows.countP fun r => r.toModel = m⟩, mem_filter.mpr ⟨?_, ?_⟩, rfl⟩
  · refine mem_map.mpr ⟨m, mem_dedup.mpr ?_, rfl⟩
    exact mem_map.mpr ⟨r, hr, hm⟩
  · rw [← length_versions]
    exact decide_eq_true hmany

/-- If nothing is deleted of the models with the most versions, nothing is of any other. -/
theorem nil_of_top {opts : CompactOptions} {threshold limit : Int} {refs : List ModelRef}
    (hrefs : t.OverThreshold threshold limit refs) (hlimit : 0 < limit)
    (hnone : ∀ ref ∈ refs, versionsToDelete (t.versions ref.toModel) opts = [])
    (hmany : threshold < ((t.versions m).length : Int)) :
    versionsToDelete (t.versions m) opts = [] := by
  obtain ⟨l, hperm, hsorted, rfl⟩ := hrefs
  by_cases hne : t.versions m = []
  · rw [hne]
    exact sublist_nil.mp versionsToDelete_sublist
  obtain ⟨ref, href, rfl⟩ := exists_group hne hmany
  obtain ⟨k, hk⟩ : ∃ k, limit.toNat = k + 1 := ⟨limit.toNat - 1, by omega⟩
  cases l with
  | nil => exact absurd (hperm.mem_iff.mpr href) not_mem_nil
  | cons first rest =>
    have hfirst := hnone first (by rw [hk]; exact mem_cons_self)
    refine versionsToDelete_eq_nil_of_le hfirst ?_
    rw [mem_groups href, mem_groups (hperm.mem_iff.mp mem_cons_self)]
    rcases mem_cons.mp (hperm.mem_iff.mpr href) with rfl | hrest
    · exact le_rfl
    · exact (pairwise_cons.mp hsorted).1 ref hrest

end Tables

section Batches

variable {P : Type} {t t' : Table P} {m : Model} {opts : CompactOptions} {vers : List Int}
  {refs : List ModelRef} {res : CompactResult} {ran : CompactResult × Option Err}

theorem Runs.deleted {n : Nat} (h : Runs t (.deleteVersions m vers) (.ok n) t') :
    n = (t.deleteVersions m vers).1 ∧ t' = (t.deleteVersions m vers).2 := by
  rcases h with h | ⟨⟨err, herr⟩, -⟩
  · cases h
    exact ⟨rfl, rfl⟩
  · cases herr

theorem Runs.listed_same (h : Runs t (.versions m) (.ok vers) t') : t' = t := by
  rcases h with h | ⟨⟨err, herr⟩, -⟩
  · cases h
    rfl
  · cases herr

theorem Runs.ranked {threshold limit : Int}
    (h : Runs t (.overThreshold threshold limit) (.ok refs) t') :
    t.OverThreshold threshold limit refs ∧ t' = t := by
  rcases h with h | ⟨⟨err, herr⟩, -⟩
  · cases h with
    | overThreshold hrefs => exact ⟨hrefs, rfl⟩
  · cases herr

theorem length_deleteVersions (m : Model) (vers : List Int) :
    (t.deleteVersions m vers).2.rows.length + (t.deleteVersions m vers).1 = t.rows.length := by
  have hsplit := length_eq_countP_add_countP (deletes m vers) (l := t.rows)
  rw [deleteVersions, ← countP_eq_length_filter]
  simp only [Bool.not_eq_true, Bool.decide_eq_false] at hsplit
  omega

theorem deleteVersions_pos {v : Int} (hv : t.Has m v) (hmem : v ∈ vers) :
    0 < (t.deleteVersions m vers).1 := by
  obtain ⟨r, hr, hm, rfl⟩ := hv
  exact countP_pos_iff.mpr ⟨r, hr, by simp [deletes, hm, hmem]⟩

theorem compact_alone {n : Nat} (h : Evals Runs t (compact m opts) (.ok n) t') :
    (versionsToDelete (t.versions m) opts = [] ∧ n = 0 ∧ t' = t) ∨
      0 < n ∧ t'.rows.length + n = t.rows.length := by
  obtain ⟨ans, t₁, hrun, hrest⟩ := evals_ask.mp h
  cases ans with
  | error err => cases hrest.of_ret.1
  | ok vers =>
    obtain rfl := hrun.listed
    obtain rfl := hrun.listed_same
    dsimp only at hrest
    split at hrest
    · next hnil =>
      obtain ⟨hn, rfl⟩ := hrest.of_ret
      exact .inl ⟨hnil, Except.ok.inj hn, rfl⟩
    · next hne =>
      obtain ⟨ans, t₂, hdel, hlast⟩ := evals_ask.mp hrest
      cases ans with
      | error err => cases hlast.of_ret.1
      | ok n' =>
        obtain ⟨hn, rfl⟩ := hlast.of_ret
        cases hn
        obtain ⟨rfl, rfl⟩ := hdel.deleted
        obtain ⟨v, hv⟩ := exists_mem_of_ne_nil _ hne
        have hhas := Table.mem_versions.mp (versionsToDelete_sublist.subset hv)
        exact .inr ⟨deleteVersions_pos hhas hv, length_deleteVersions m _⟩

theorem compactEach_alone {res res' : CompactResult}
    (h : Evals Runs t (compactEach opts refs res) (res', none) t') :
    (res' = res ∧ t' = t ∧ ∀ ref ∈ refs, versionsToDelete (t.versions ref.toModel) opts = []) ∨
      res.models < res'.models ∧ t'.rows.length < t.rows.length := by
  induction refs generalizing t res with
  | nil =>
    obtain ⟨hres, rfl⟩ := h.of_ret
    exact .inl ⟨(Prod.mk.inj hres).1, rfl, nofun⟩
  | cons ref refs ih =>
    obtain ⟨r, t₁, hcompact, hrest⟩ := evals_bind.mp h
    cases r with
    | error err => cases hrest.of_ret.1
    | ok n =>
      obtain ⟨hnil, rfl, rfl⟩ | ⟨hpos, hlen⟩ := compact_alone hcompact
      · obtain ⟨rfl, rfl, hrefs⟩ | hless := ih hrest
        · exact .inl ⟨rfl, rfl, forall_mem_cons.mpr ⟨hnil, hrefs⟩⟩
        · exact .inr hless
      · dsimp only at hrest
        rw [if_pos hpos] at hrest
        obtain ⟨rfl, rfl, -⟩ | ⟨hmodels, hrows⟩ := ih hrest
        · exact .inr ⟨Nat.lt_succ_self _, by omega⟩
        · exact .inr ⟨by dsimp only at hmodels; omega, by omega⟩

theorem limit_pos (limit : Int) : 0 < if limit ≤ 0 then 100 else limit := by
  split_ifs <;> omega

theorem compactBatch_alone {opts : CompactBatchOptions}
    (h : Evals Runs t (compactBatch opts) (res, none) t') :
    (res = ⟨0, 0⟩ ∧ t' = t ∧ ∀ m, opts.threshold < ((t.versions m).length : Int) →
      versionsToDelete (t.versions m) opts.compact = []) ∨
      0 < res.models ∧ t'.rows.length < t.rows.length := by
  obtain ⟨ans, t₁, hrun, hrest⟩ := evals_ask.mp h
  cases ans with
  | error err => cases hrest.of_ret.1
  | ok refs =>
    obtain ⟨hrefs, rfl⟩ := hrun.ranked
    obtain ⟨rfl, rfl, hnil⟩ | hless := compactEach_alone hrest
    · exact .inl ⟨rfl, rfl, fun m hmany => nil_of_top hrefs (limit_pos _) hnil hmany⟩
    · exact .inr hless

theorem exists_overThreshold (t : Table P) (threshold limit : Int) :
    ∃ refs, t.OverThreshold threshold limit refs := by
  let r := fun a b : ModelRef => b.versions ≤ a.versions
  have htotal : Std.Total r := ⟨fun a b => Nat.le_total b.versions a.versions⟩
  have htrans : IsTrans ModelRef r := ⟨fun _ _ _ hab hbc => Nat.le_trans hbc hab⟩
  exact ⟨_, _, perm_insertionSort r _, pairwise_insertionSort r _, rfl⟩

theorem Replies.total (t : Table P) (o : Call P) : ∃ a t', Replies t o a t' := by
  cases o with
  | queryLast m => exact ⟨_, _, .queryLast m⟩
  | now => exact ⟨_, _, .now 0⟩
  | save al => exact ⟨_, _, .save 0 al⟩
  | versions m => exact ⟨_, _, .versions m⟩
  | deleteVersions m vers =>
    by_cases hfits : Bindable vers
    · exact ⟨_, _, .deleteVersions m hfits⟩
    · exact ⟨_, _, .refused m (.text "too many parameters") hfits⟩
  | overThreshold threshold limit =>
    obtain ⟨refs, hrefs⟩ := exists_overThreshold t threshold limit
    exact ⟨_, _, .overThreshold hrefs⟩

theorem length_versions_le (h : t'.rows.Sublist t.rows) (m : Model) :
    (t'.versions m).length ≤ (t.versions m).length := by
  rw [length_versions, length_versions]
  exact h.countP_le

theorem Bindable.of_sublist (h : Bindable (versionsToDelete (t.versions m) opts))
    (hsub : t'.rows.Sublist t.rows) : Bindable (versionsToDelete (t'.versions m) opts) := by
  unfold Bindable at h ⊢
  rw [length_versionsToDelete] at h ⊢
  have hle : deletable opts _ ≤ deletable opts _ := deletable_mono (length_versions_le hsub m)
  omega

theorem versions_deleteVersions {m' : Model} (hne : m ≠ m') (vers : List Int) :
    (t.deleteVersions m' vers).2.versions m = t.versions m := by
  unfold versions history deleteVersions
  rw [filter_filter]
  refine congrArg _ (congrArg _ (filter_congr fun r _ => ?_))
  by_cases hr : r.toModel = m
  · simp [deletes, hr, hne]
  · simp [hr]

/-- What an answered compaction does: it deletes rows of its model, or is refused. -/
theorem compact_effect {r : Except Err Nat} (h : Evals Replies t (compact m opts) r t') :
    t'.rows.Sublist t.rows ∧
      (Bindable (versionsToDelete (t.versions m) opts) → ∃ n, r = .ok n) ∧
      ∀ m', ¬ Bindable (versionsToDelete (t.versions m') opts) →
        t'.versions m' = t.versions m' := by
  obtain ⟨_, _, hlist, hrest⟩ := evals_ask.mp h
  cases hlist
  dsimp only at hrest
  split at hrest
  · obtain ⟨rfl, rfl⟩ := hrest.of_ret
    exact ⟨List.Sublist.refl _, fun _ => ⟨0, rfl⟩, fun _ _ => rfl⟩
  · obtain ⟨_, _, hdel, hlast⟩ := evals_ask.mp hrest
    cases hdel with
    | deleteVersions _ hfits =>
      obtain ⟨rfl, rfl⟩ := hlast.of_ret
      refine ⟨filter_sublist, fun _ => ⟨_, rfl⟩, fun m' hm' => versions_deleteVersions ?_ _⟩
      exact fun heq => hm' (heq ▸ hfits)
    | refused _ _ hmany =>
      obtain ⟨-, rfl⟩ := hlast.of_ret
      exact ⟨List.Sublist.refl _, fun h => absurd h hmany, fun _ _ => rfl⟩

theorem compactEach_effect (h : Evals Replies t (compactEach opts refs res) ran t') :
    t'.rows.Sublist t.rows ∧
      ((∀ ref ∈ refs, Bindable (versionsToDelete (t.versions ref.toModel) opts)) → ran.2 = none) ∧
      ∀ m, ¬ Bindable (versionsToDelete (t.versions m) opts) → t'.versions m = t.versions m := by
  induction refs generalizing t res with
  | nil =>
    obtain ⟨rfl, rfl⟩ := h.of_ret
    exact ⟨List.Sublist.refl _, fun _ => rfl, fun _ _ => rfl⟩
  | cons ref refs ih =>
    obtain ⟨r, t₁, hcompact, hrest⟩ := evals_bind.mp h
    obtain ⟨hsub, hok, hsame⟩ := compact_effect hcompact
    cases r with
    | error err =>
      obtain ⟨-, rfl⟩ := hrest.of_ret
      refine ⟨hsub, fun hrefs => ?_, hsame⟩
      obtain ⟨n, hn⟩ := hok (hrefs ref mem_cons_self)
      cases hn
    | ok n =>
      dsimp only at hrest
      rw [← apply_ite (compactEach opts refs)] at hrest
      obtain ⟨hsub', hok', hsame'⟩ := ih hrest
      refine ⟨hsub'.trans hsub, fun hrefs => hok' fun ref href => ?_, fun m hm => ?_⟩
      · exact (hrefs ref (mem_cons_of_mem _ href)).of_sublist hsub
      · rw [hsame' m (by rwa [hsame m hm]), hsame m hm]

variable {opts : CompactBatchOptions}

/-- No model over the threshold has more versions to delete than one statement binds. -/
def Fits (opts : CompactBatchOptions) (t : Table P) : Prop :=
  ∀ m, opts.threshold < ((t.versions m).length : Int) →
    Bindable (versionsToDelete (t.versions m) opts.compact)

theorem Fits.of_sublist (h : Fits opts t) (hsub : t'.rows.Sublist t.rows) : Fits opts t' := by
  intro m hmany
  have hle := length_versions_le hsub m
  exact (h m (by omega)).of_sublist hsub

theorem compactBatch_effect (h : Evals Replies t (compactBatch opts) ran t') :
    t'.rows.Sublist t.rows ∧ (Fits opts t → ran.2 = none) ∧
      ∀ m, ¬ Bindable (versionsToDelete (t.versions m) opts.compact) →
        t'.versions m = t.versions m := by
  obtain ⟨_, _, hlist, hrest⟩ := evals_ask.mp h
  cases hlist with
  | overThreshold hrefs =>
    obtain ⟨hsub, hok, hsame⟩ := compactEach_effect hrest
    refine ⟨hsub, fun hfits => hok fun ref href => hfits _ ?_, hsame⟩
    obtain ⟨l, hperm, -, rfl⟩ := hrefs
    have hmem := hperm.mem_iff.mp (mem_of_mem_take href)
    rw [mem_groups hmem]
    exact of_decide_eq_true (mem_filter.mp hmem).2

/-- A batch without an error that compacts no model leaves nothing to delete. -/
theorem nothing_left (h : Evals Runs t (compactBatch opts) (res, none) t')
    (hmodels : res.models = 0) (hmany : opts.threshold < ((t'.versions m).length : Int)) :
    versionsToDelete (t'.versions m) opts.compact = [] := by
  obtain ⟨-, rfl, hnil⟩ | ⟨hpos, -⟩ := compactBatch_alone h
  · exact hnil m hmany
  · omega

/-- The batch is called again and again, and its statements are answered. -/
def Repeats (opts : CompactBatchOptions) (ts : Nat → Table P)
    (ran : Nat → CompactResult × Option Err) : Prop :=
  ∀ k, Evals Replies (ts k) (compactBatch opts) (ran k) (ts (k + 1))

variable {ts : Nat → Table P} {ran : Nat → CompactResult × Option Err}

theorem exists_repeats (opts : CompactBatchOptions) (t : Table P) :
    ∃ ts ran, ts 0 = t ∧ Repeats opts ts ran := by
  choose ran next hnext using exists_evals Replies.total (compactBatch (P := P) opts)
  refine ⟨fun k => next^[k] t, fun k => ran (next^[k] t), rfl, fun k => ?_⟩
  change Evals Replies (next^[k] t) _ _ (next^[k + 1] t)
  rw [Function.iterate_succ_apply']
  exact hnext _

/-- With few enough versions no call fails, and each one before the last deletes a row. -/
theorem Repeats.ends (h : Repeats opts ts ran) (hfits : Fits opts (ts 0)) :
    ∃ k ≤ (ts 0).rows.length, (ran k).2 = none ∧ (ran k).1.models = 0 := by
  have hall (k : Nat) : Fits opts (ts k) := by
    induction k with
    | zero => exact hfits
    | succ k ih => exact ih.of_sublist (compactBatch_effect (h k)).1
  have hnone (k : Nat) : (ran k).2 = none := (compactBatch_effect (h k)).2.1 (hall k)
  by_contra! hpos
  have hrows (k : Nat) (hk : k ≤ (ts 0).rows.length + 1) :
      (ts k).rows.length + k ≤ (ts 0).rows.length := by
    induction k with
    | zero => exact le_rfl
    | succ k ih =>
      have hrun : Evals Runs (ts k) (compactBatch opts) ((ran k).1, none) (ts (k + 1)) := by
        rw [← hnone k]
        exact (h k).mono .inl
      obtain ⟨hres, -, -⟩ | ⟨-, hlen⟩ := compactBatch_alone hrun
      · exact absurd (congrArg CompactResult.models hres) (hpos k (by omega) (hnone k))
      · have := ih (by omega)
        omega
  have := hrows _ le_rfl
  omega

/-- A model with too many versions keeps them, and no call is the last one. -/
theorem Repeats.stuck (h : Repeats opts ts ran)
    (hmany : opts.threshold < (((ts 0).versions m).length : Int))
    (hm : ¬ Bindable (versionsToDelete ((ts 0).versions m) opts.compact)) (k : Nat) :
    (ts k).versions m = (ts 0).versions m ∧ ¬ ((ran k).2 = none ∧ (ran k).1.models = 0) := by
  have hsame (k : Nat) : (ts k).versions m = (ts 0).versions m := by
    induction k with
    | zero => rfl
    | succ k ih => rw [(compactBatch_effect (h k)).2.2 m (by rwa [ih]), ih]
  refine ⟨hsame k, fun ⟨hnone, hmodels⟩ => hm ?_⟩
  have hrun : Evals Runs (ts k) (compactBatch opts) ((ran k).1, none) (ts (k + 1)) := by
    rw [← hnone]
    exact (h k).mono .inl
  rw [← hsame (k + 1)] at hmany ⊢
  rw [nothing_left hrun hmodels hmany]
  decide

/-- Calls in a row come to one without an error that compacts no model, before there have been
more of them than rows. -/
def Drains (opts : CompactBatchOptions) (t : Table P) : Prop :=
  ∀ ts ran, ts 0 = t → Repeats opts ts ran →
    ∃ k ≤ t.rows.length, (ran k).2 = none ∧ (ran k).1.models = 0

/-- A batch without an error that compacts no model leaves none over the threshold with something
to delete, every batch whose statements are answered returns, and the batches drain a table
exactly if it has no model with too many versions to delete. -/
theorem compactBatch_drains (opts : CompactBatchOptions) :
    (∀ (t t' : Table P) (res : CompactResult),
      Evals Runs t (compactBatch opts) (res, none) t' → res.models = 0 →
        ∀ m, opts.threshold < ((t'.versions m).length : Int) →
          versionsToDelete (t'.versions m) opts.compact = []) ∧
      (∀ t : Table P, ∃ ran t', Evals Replies t (compactBatch opts) ran t') ∧
      ∀ t : Table P, Drains opts t ↔ Fits opts t := by
  refine ⟨fun t t' res h hmodels m hmany => nothing_left h hmodels hmany,
    exists_evals Replies.total _, fun t => ⟨fun hdrains m hmany => ?_, ?_⟩⟩
  · obtain ⟨ts, ran, rfl, h⟩ := exists_repeats opts t
    obtain ⟨k, -, hlast⟩ := hdrains ts ran rfl h
    by_contra hm
    exact (h.stuck hmany hm k).2 hlast
  · rintro hfits ts ran rfl h
    exact h.ends hfits

/-- A table with `n` versions of one model. -/
def manyVersions (n : Nat) : Table Unit where
  rows := (List.range n).map fun i : Nat =>
    ⟨⟨"user", "1"⟩, i + 1, i + 1, "PUT", "/users/1", (), 0, ""⟩
  unique := by
    refine pairwise_map.mpr (pairwise_lt_range.imp ?_)
    rintro i j hlt ⟨-, hv⟩
    simp only at hv
    omega

theorem length_manyVersions (n : Nat) : ((manyVersions n).versions ⟨"user", "1"⟩).length = n := by
  rw [length_versions, manyVersions, countP_map]
  simp [Function.comp_def]

/-- Models with more than five versions are cut down to five. -/
def keepFive : CompactBatchOptions := ⟨5, 0, ⟨0, 2, 5, 0⟩⟩

/-- Nine versions are drained. -/
theorem compactBatch_drains_nine : ∃ ts ran, ts 0 = manyVersions 9 ∧ Repeats keepFive ts ran ∧
    ∃ k ≤ 9, (ran k).2 = none ∧ (ran k).1.models = 0 := by
  obtain ⟨ts, ran, hts, h⟩ := exists_repeats keepFive (manyVersions 9)
  have hfits : Fits keepFive (manyVersions 9) := by
    intro m _
    have hle : (versionsToDelete ((manyVersions 9).versions m) keepFive.compact).length ≤ _ :=
      versionsToDelete_sublist.length_le
    rw [length_versions] at hle
    have hrows : (manyVersions 9).rows.countP (fun r => r.toModel = m) ≤ 9 := countP_le_length
    unfold Bindable maxBinds
    omega
  exact ⟨ts, ran, hts, h, ((compactBatch_drains keepFive).2.2 _).mpr hfits ts ran hts h⟩

/-- Models with more than a hundred versions are cut down to two. -/
def keepTwo : CompactBatchOptions := ⟨100, 10, ⟨0, 0, 2, 0⟩⟩

/-- With 65536 versions of one model the calls come to no end. -/
theorem compactBatch_stuck : ((manyVersions 65536).versions ⟨"user", "1"⟩).length = 65536 ∧
    (∃ ts ran, ts 0 = manyVersions 65536 ∧ Repeats keepTwo ts ran) ∧
    ∀ ts ran, ts 0 = manyVersions 65536 → Repeats keepTwo ts ran →
      ∀ k, ¬ ((ran k).2 = none ∧ (ran k).1.models = 0) := by
  have hlen := length_manyVersions 65536
  have hmany : ¬ Bindable (versionsToDelete ((manyVersions 65536).versions ⟨"user", "1"⟩)
      keepTwo.compact) := by
    have hdel : (deletable keepTwo.compact 65536 : Int) = _ := deletable_cap (by decide) (by decide)
    have hcount := protectedCount_add 65536 keepTwo.compact
    rw [show keepTwo.compact.maxVersions = 2 from rfl] at hdel
    rw [recentStart_eq, show keepTwo.compact.keepRecent = 0 from rfl] at hcount
    rw [Bindable, length_versionsToDelete, hlen, maxBinds]
    omega
  refine ⟨hlen, exists_repeats _ _, fun ts ran hts h k => (h.stuck ?_ (hts ▸ hmany) k).2⟩
  rw [hts, hlen]
  decide

end Batches

end Skit.Auditlog
