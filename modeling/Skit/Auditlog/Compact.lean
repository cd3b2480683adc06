import Mathlib.Data.List.Basic
import Mathlib.Tactic.SplitIfs

/-!
# The versions a compaction deletes

`versionsToDelete` works on an array of flags, one for every stored version, which are
only ever set. The lemmas follow the flags of the two ends through every pass, so that
whatever the options are, a version is deleted only between two that stay.
-/
namespace Skit.Auditlog
open List

structure CompactOptions where
  factor : Int
  keepRecent : Int
  maxVersions : Int
  minVersions : Int
  deriving DecidableEq, Repr

/-- Sets `keep[i]` at the indices that `p` selects. -/
def mark (p : Nat → Bool) (keep : List Bool) : List Bool := keep.mapIdx fun i k => k || p i

def countKept (keep : List Bool) : Nat := keep.count true

def keepEvenly (keep : List Bool) (lo hi budget : Int) : List Bool :=
  let span := hi - lo
  if span ≤ 0 ∨ budget ≤ 0 then keep
  else if span ≤ budget then mark (fun i => lo ≤ i && i < hi) keep
  else
    mark (fun i => (List.range budget.toNat).any fun j => lo + (j * span) / budget = i) keep

/-- The flags of `n` versions before the middle is thinned: both ends, and the recent. -/
def keepEnds (n : Nat) (opts : CompactOptions) : List Bool :=
  let keep := mark (fun i => i = 0 || i + 1 = n) (List.replicate n false)
  if 0 < opts.keepRecent then mark (fun i => max (n - opts.keepRecent) 0 ≤ i) keep else keep

/-- The end of the window `(0, recentStart)` that may be thinned. -/
def recentStart (n : Nat) (opts : CompactOptions) : Int :=
  if 0 < opts.keepRecent ∧ n - opts.keepRecent < (n : Int) - 1 then n - opts.keepRecent
  else n - 1

def keepFlags (n : Nat) (opts : CompactOptions) : List Bool :=
  let keep := keepEnds n opts
  let start := recentStart n opts
  if 0 < opts.maxVersions then keepEvenly keep 1 start (opts.maxVersions - countKept keep)
  else if 2 ≤ opts.factor then
    mark (fun i => 1 ≤ i && i < start && (i : Int) % opts.factor = 0) keep
  else mark (fun i => 1 ≤ i && i < start) keep

def versionsToDelete (vers : List Int) (opts : CompactOptions) : List Int :=
  if (vers.length : Int) ≤ max opts.minVersions 2 then []
  else
    (vers.zip (keepFlags vers.length opts)).filterMap fun (v, kept) =>
      if kept then none else some v

section Flags

variable {keep : List Bool} {i n : Nat} {opts : CompactOptions}

theorem mark_kept {p : Nat → Bool} (h : keep[i]? = some true) : (mark p keep)[i]? = some true := by
  simp [mark, h]

theorem keepEvenly_kept {lo hi budget : Int} (h : keep[i]? = some true) :
    (keepEvenly keep lo hi budget)[i]? = some true := by
  unfold keepEvenly
  dsimp only
  split_ifs
  · exact h
  · exact mark_kept h
  · exact mark_kept h

theorem keepEnds_kept (hi : i < n) (he : i = 0 ∨ i + 1 = n) :
    (keepEnds n opts)[i]? = some true := by
  have hends : (mark (fun i => i = 0 || i + 1 = n) (List.replicate n false))[i]? = some true := by
    simp [mark, hi, he]
  unfold keepEnds
  dsimp only
  split_ifs
  · exact mark_kept hends
  · exact hends

theorem keepFlags_kept (hi : i < n) (he : i = 0 ∨ i + 1 = n) :
    (keepFlags n opts)[i]? = some true := by
  have hends : (keepEnds n opts)[i]? = some true := keepEnds_kept hi he
  unfold keepFlags
  dsimp only
  split_ifs
  · exact keepEvenly_kept hends
  · exact mark_kept hends
  · exact mark_kept hends

end Flags

variable {vers : List Int} {opts : CompactOptions} {v : Int}

theorem exists_index_of_deleted (h : v ∈ versionsToDelete vers opts) :
    ∃ i : Nat, vers[i]? = some v ∧ (keepFlags vers.length opts)[i]? = some false := by
  unfold versionsToDelete at h
  split_ifs at h with hmin
  · simp at h
  · obtain ⟨⟨w, kept⟩, hm, hw⟩ := mem_filterMap.mp h
    obtain ⟨i, hi⟩ := mem_iff_getElem?.mp hm
    obtain ⟨hv, hk⟩ := getElem?_zip_eq_some.mp hi
    cases kept with
    | true => simp at hw
    | false =>
      obtain rfl : w = v := by simpa using hw
      exact ⟨i, hv, hk⟩

/-- A version is deleted only if an older and a newer one of the list are kept. -/
theorem between_of_deleted (hs : vers.Pairwise (· < ·)) (h : v ∈ versionsToDelete vers opts) :
    ∃ a ∈ vers, ∃ b ∈ vers, a < v ∧ v < b := by
  obtain ⟨i, hv, hk⟩ := exists_index_of_deleted h
  obtain ⟨hi, rfl⟩ := List.getElem?_eq_some_iff.mp hv
  have hmid : ¬ (i = 0 ∨ i + 1 = vers.length) := fun he => by
    simp [keepFlags_kept hi he] at hk
  push Not at hmid
  have hlt := pairwise_iff_getElem.mp hs
  exact ⟨vers[0], getElem_mem (by omega), vers[vers.length - 1], getElem_mem (by omega),
    hlt 0 i (by omega) hi (by omega), hlt i _ hi (by omega) (by omega)⟩

example : versionsToDelete [1, 2, 3, 4, 5, 6, 7, 8, 9] ⟨3, 2, 0, 0⟩ = [2, 3, 5, 6] := by decide

example : versionsToDelete [1, 2, 3, 4, 5, 6, 7, 8, 9] ⟨0, 2, 5, 0⟩ = [3, 4, 6, 7] := by decide

end Skit.Auditlog
