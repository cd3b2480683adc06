import Skit.Auditlog.Versions
import Mathlib.Order.Bounds.Defs

/-!
# What compaction keeps and what `Create` inserts

A compaction deletes versions between two that it has read, so neither the first version of
a model nor the highest one ever stored leaves the table, however stale the list is. What
`Create` returns tells what it inserted, with one exception that no client of a database can
rule out: an insert that ran and whose answer was lost.
-/
namespace Skit.Auditlog
open Lib List

variable {P : Type}

section Inserts

/-- The row that a statement added, without its serial id; a new row comes first. -/
def Table.newRow (t t' : Table P) : Option (AuditLog P) :=
  if t.rows.length < t'.rows.length then t'.rows.head?.map fun r => { r with id := 0 } else none

variable {t t' : Table P} {o : Call P} {a : Ans o} {al row : AuditLog P} {id : Int}

theorem Table.newRow_self (t : Table P) : t.newRow t = none := by simp [newRow]

theorem Table.newRow_insert (t : Table P) (al : AuditLog P) (h : ¬ t.Has al.toModel al.version) :
    t.newRow (t.insert al h) = some { al with id := 0 } := by
  simp [newRow, insert]

theorem Table.newRow_save_none (h : (t.save id al).1 = none) :
    t.newRow (t.save id al).2 = some al.stored := by
  unfold save at h ⊢
  split_ifs at h ⊢ with hr hh
  exact t.newRow_insert { al.stored with id := id } hh

theorem Table.save_some {err : Err} (h : (t.save id al).1 = some err) :
    (t.save id al).2 = t := by
  unfold save at h ⊢
  split_ifs at h ⊢ <;> rfl

theorem Table.newRow_deleteVersions (m : Model) (vers : List Int) :
    t.newRow (t.deleteVersions m vers).2 = none := by
  have hle := length_filter_le (fun r => !deletes m vers r) t.rows
  simp [newRow, deleteVersions]
  omega

theorem Replies.of_save {a : Option Err} (h : Replies t (.save al) a t') :
    ∃ id, (t.save id al).1 = a ∧ t' = (t.save id al).2 := by
  cases h
  exact ⟨_, rfl, rfl⟩

theorem Replies.mem_rows (h : Replies t o a t') (hr : row ∈ t'.rows) :
    row ∈ t.rows ∨ ∃ al id, o = .save al ∧ row = { al.stored with id := id } ∧
      ¬ t.Has al.toModel al.version := by
  cases h with
  | save id al =>
    unfold Table.save at hr
    split_ifs at hr with hrange hhas
    · exact .inl hr
    · exact .inl hr
    · rcases mem_cons.mp hr with rfl | hr
      · exact .inr ⟨al, id, rfl, rfl, hhas⟩
      · exact .inl hr
  | deleteVersions m _ => exact .inl (mem_of_mem_filter hr)
  | _ => exact .inl hr

theorem Runs.mem_rows (h : Runs t o a t') (hr : row ∈ t'.rows) :
    row ∈ t.rows ∨ ∃ al id, o = .save al ∧ row = { al.stored with id := id } ∧
      ¬ t.Has al.toModel al.version := by
  rcases h.effect with rfl | ⟨a', h⟩
  · exact .inl hr
  · exact h.mem_rows hr

theorem Replies.newRow (h : Replies t o a t') :
    t.newRow t' = none ∨ ∃ al, o = .save al ∧ t.newRow t' = some al.stored := by
  cases h with
  | save id al =>
    cases hs : (t.save id al).1 with
    | none => exact .inr ⟨al, rfl, Table.newRow_save_none hs⟩
    | some err => exact .inl (by rw [Table.save_some hs, t.newRow_self])
  | deleteVersions m _ => exact .inl (Table.newRow_deleteVersions m _)
  | _ => exact .inl t.newRow_self

theorem Runs.newRow (h : Runs t o a t') :
    t.newRow t' = none ∨ ∃ al, o = .save al ∧ t.newRow t' = some al.stored := by
  rcases h.effect with rfl | ⟨a', h⟩
  · exact .inl t'.newRow_self
  · exact h.newRow

/-- A statement that is no unclear insert adds what it acknowledges. -/
theorem Runs.newRow_acked (ev : Event Int (Call P) Ans) (h : Runs t ev.op ev.ans t')
    (hu : unclear ev = false) : t.newRow t' = (acked ev).map AuditLog.stored := by
  obtain ⟨time, o, a⟩ := ev
  cases o with
  | save al =>
    rcases h with h | ⟨⟨err, rfl, hf⟩, -⟩
    · obtain ⟨id, hs, rfl⟩ := h.of_save
      cases a with
      | none => exact Table.newRow_save_none hs
      | some err => rw [Table.save_some hs]; exact t.newRow_self
    · simp [unclear, hf] at hu
  | _ =>
    rcases h.newRow with hn | ⟨al, ho, -⟩
    · exact hn
    · cases ho

end Inserts

section Retained

variable {ι : Type} [DecidableEq ι] {jobs : ι → Job P} {tr r : List (Point ι P)} {e : Point ι P}
  {c : Config ι (Call P) Ans (Table P) (Result P)} {i : ι} {m : Model} {v : Int}
  {ev : Event Int (Call P) Ans}

/-- The rows that the statements of one call inserted, latest first. -/
def inserted (i : ι) (tr : List (Point ι P)) : List (AuditLog P) :=
  tr.filterMap fun e => (e.eventOf i).bind fun _ => e.pre.newRow e.post

theorem inserted_cons_self (ha : e.act = .proc i ev) :
    inserted i (e :: tr) = (e.pre.newRow e.post).toList ++ inserted i tr := by
  cases hn : e.pre.newRow e.post <;> simp [inserted, Entry.eventOf, ha, hn]

theorem inserted_cons_other {j : ι} (ha : e.act = .proc j ev)
    (hj : j ≠ i) : inserted i (e :: tr) = inserted i tr := by
  simp [inserted, Entry.eventOf, ha, hj]

theorem inserted_eq_acked (h : Run (calls jobs) tr c)
    (hu : ∀ ev ∈ hist i tr, unclear ev = false) :
    inserted i tr = ((hist i tr).filterMap acked).map AuditLog.stored := by
  induction h with
  | init _ => rfl
  | @step tr c c' e h ht hst ih =>
    obtain ⟨j, t, o, a, ha, hr⟩ := entry_runs (h.step ht hst) (suffix_refl _)
    by_cases hj : j = i
    · subst hj
      rw [hist_cons_self ha] at hu ⊢
      obtain ⟨hev, hu⟩ := forall_mem_cons.mp hu
      have hrow := Runs.newRow_acked ⟨t, o, a⟩ hr hev
      rw [inserted_cons_self ha, hrow, ih hu]
      cases hack : acked ⟨t, o, a⟩ <;> simp [hack]
    · rw [hist_cons_other ha hj] at hu ⊢
      rw [inserted_cons_other ha hj, ih hu]

theorem inserted_of_settled {rows : List (AuditLog P)} (h : Run (calls jobs) tr c)
    (hs : Settled (hist i tr) rows) : inserted i tr = rows.map AuditLog.stored := by
  rw [inserted_eq_acked h hs.clear, hs.acked_eq]

theorem inserted_append (l : List (Point ι P)) :
    inserted i (l ++ tr) = inserted i l ++ inserted i tr := by
  simp [inserted]

theorem inserted_eq_of_suffix (hs : r <:+ tr) (hh : hist i r = hist i tr) :
    inserted i tr = inserted i r := by
  obtain ⟨l, rfl⟩ := hs
  have hnone : hist i l = [] := by simpa [hist_append] using hh
  have hl : inserted i l = [] := by
    rw [hist, filterMap_eq_nil_iff] at hnone
    exact filterMap_eq_nil_iff.mpr fun e he => by simp [hnone e he]
  rw [inserted_append, hl, nil_append]

/-- An insert of the call ran, and its answer was lost. -/
def LostAnswer (i : ι) (tr : List (Point ι P)) (al : AuditLog P) : Prop :=
  ∃ e ∈ tr, ∃ t err, e.act = .proc i ⟨t, .save al, some err⟩ ∧
    e.pre.newRow e.post = some al.stored

/-- What a call of `Create` inserted, told from what it returned. -/
def Reports (i : ι) (tr : List (Point ι P)) (new : NewAuditLog P) :
    Except Err (Option (AuditLog P)) → Prop
  | .ok (some e) => e.version ≠ 0 ∧ e.toModel = new.toModel ∧ new.body = .ok e.payload ∧
      inserted i tr = [e.stored]
  | .ok none => inserted i tr = []
  | .error _ => inserted i tr = [] ∨ ∃ al, LostAnswer i tr al ∧ inserted i tr = [al.stored]

section

variable (h : Run (calls jobs) tr c)
include h

variable {res : Except Err (Option (AuditLog P))} {new : NewAuditLog P} {core : Core P}

theorem ends_of_returned
    (hjob : jobs i = .create core new) (hret : c.procs i = .ret (.created res)) :
    Ends core new res (hist i tr) := by
  have hend := h.wp (J := fun i => Admits (jobs i).same) (Q := fun i => (jobs i).Ends)
    (fun i => wp_job (jobs i)) i
  rw [hret, hjob] at hend
  exact hend

theorem acked_version_pos {t : Int} {al : AuditLog P}
    (hm : ⟨t, .save al, none⟩ ∈ hist i tr) : 1 ≤ al.version := by
  obtain ⟨e, r, he, ha⟩ := exists_entry hm
  rcases entry_runs_of h he ha with hr | ⟨⟨err, herr, -⟩, -⟩
  · obtain ⟨id, hs, hpost⟩ := hr.of_save
    have hstores : Stores e al.toModel al.version := by
      rw [Stores, hpost]
      unfold Table.save at hs ⊢
      split_ifs at hs ⊢ with hrange hhas
      exact ⟨hhas, (Table.has_insert { al.stored with id := id } hhas).mpr (.inl ⟨rfl, rfl⟩)⟩
    exact (stored_range h ⟨e, he.mem mem_cons_self, hstores⟩).1
  · cases herr

theorem reports_of_ends (hend : Ends core new res (hist i tr)) : Reports i tr new res := by
  cases res with
  | ok r =>
    cases r with
    | none => exact inserted_of_settled h hend.1
    | some e =>
      obtain ⟨hm, hb, hs⟩ := hend
      have hack : e ∈ (hist i tr).filterMap acked := by simp [hs.acked_eq]
      obtain ⟨ev, hev, ha⟩ := mem_filterMap.mp hack
      obtain ⟨t, rfl⟩ := eq_of_acked ha
      have hpos := acked_version_pos h hev
      exact ⟨by omega, hm, hb, inserted_of_settled h hs⟩
  | error err =>
    rcases hend with hs | ⟨t, al, err, h', hh, -, hs⟩
    · exact .inl (inserted_of_settled h hs)
    · -- the unclear insert is the last statement of the call
      have hsuf : ⟨t, .save al, some err⟩ :: h' <:+ hist i tr := hh ▸ suffix_refl _
      obtain ⟨e, r, he, ha, rfl⟩ := exists_suffix_of_hist hsuf
      obtain ⟨c₀, h₀⟩ := h.of_suffix ((suffix_cons e r).trans he)
      have hins : inserted i tr = (e.pre.newRow e.post).toList := by
        rw [inserted_eq_of_suffix he (by rw [hh, hist_cons_self ha]), inserted_cons_self ha,
          inserted_of_settled h₀ hs]
        simp
      rw [Reports, hins]
      rcases (entry_runs_of h he ha).newRow with hn | ⟨al', hal, hn⟩
      · exact .inl (by rw [hn]; rfl)
      · cases hal
        exact .inr ⟨al, ⟨e, he.mem mem_cons_self, t, err, ha, hn⟩, by rw [hn]; rfl⟩

theorem first_kept (hv : Stored tr m 1) : c.store.Has m 1 := by
  refine Run.invariant (fun tr s => Stored tr m 1 → s.Has m 1) ?_ ?_ h hv
  · rintro s - ⟨e, he, -⟩
    exact absurd he not_mem_nil
  · rintro tr c e c' hrun₀ hrun hst ih ⟨e', he', hs⟩
    rcases mem_cons.mp he' with rfl | he'
    · exact hs.2
    · by_contra hpost
      have hpre : e.pre.Has m 1 := hst.pre_eq ▸ ih ⟨e', he', hs⟩
      obtain ⟨a, -, hlt, -, ha, -⟩ := deletes_between hrun (suffix_refl _) ⟨hpre, hpost⟩
      have hpos : 1 ≤ a := (stored_range hrun₀ ha).1
      omega

theorem lowest_in_table (hv : Stored tr m v) :
    ∃ lo, IsLeast {u | Stored tr m u} lo ∧ c.store.Has m lo := by
  obtain ⟨hpos, hall⟩ := stored_range h hv
  have hone : Stored tr m 1 := hall 1 le_rfl hpos
  exact ⟨1, ⟨hone, fun u hu => (stored_range h hu).1⟩, first_kept h hone⟩

theorem highest_in_table (hv : Stored tr m v) :
    ∃ hi, IsGreatest {u | Stored tr m u} hi ∧ c.store.Has m hi := by
  obtain ⟨w, -, hw⟩ := highest_kept h hv
  obtain ⟨last, hlast⟩ := Table.queryLast_of_has hw
  have hhas := Table.has_lastVersion hlast
  refine ⟨last.version, ⟨stored_of_has h hhas, fun u hu => ?_⟩, hhas⟩
  obtain ⟨w', huw, hw'⟩ := highest_kept h hu
  have hle := Table.le_lastVersion hw'
  rw [hlast] at hle
  exact huw.trans hle

end

/-- At every moment the table has the lowest and the highest version ever stored of every
model, and what a finished `Create` returned tells what it inserted. -/
theorem ends_kept_and_inserts_reported (h : Run (calls jobs) tr c) :
    (∀ m v, Stored tr m v →
      (∃ lo, IsLeast {u | Stored tr m u} lo ∧ c.store.Has m lo) ∧
        ∃ hi, IsGreatest {u | Stored tr m u} hi ∧ c.store.Has m hi) ∧
    ∀ i core new res, jobs i = .create core new → c.procs i = .ret (.created res) →
      Reports i tr new res := by
  refine ⟨fun m v hv => ⟨lowest_in_table h hv, highest_in_table h hv⟩, ?_⟩
  intro i core new res hjob hret
  exact reports_of_ends h (ends_of_returned h hjob hret)

/-- Call 1 of `retriedRun` collided once and then stored version 4. -/
theorem ends_kept_and_inserts_reported_retried :
    ∃ c, Run (calls raceJobs) retriedRun c ∧
      c.procs 1 = .ret (.created (.ok (some (row 1 4)))) ∧
      (∃ lo, IsLeast {u | Stored retriedRun user u} lo ∧ c.store.Has user lo) ∧
      Reports 1 retriedRun (snapshot 1) (.ok (some (row 1 4))) := by
  obtain ⟨c, h⟩ := retriedRun_runs
  have hret : c.procs 1 = .ret (.created (.ok (some (row 1 4)))) := h.procs_eq rfl
  obtain ⟨hkept, hreports⟩ := ends_kept_and_inserts_reported h
  have hstored : Stored retriedRun user 4 :=
    ⟨_, mem_of_getElem? (i := 2) rfl, by decide, by decide⟩
  exact ⟨c, h, hret, (hkept user 4 hstored).1, hreports 1 plainCore (snapshot 1) _ rfl hret⟩

end Retained

section Lost

def deadlineExceeded : Err := .text "context deadline exceeded"

/-- A call stores version 1, and its deadline passes before the answer arrives. -/
def lostScript (i : Fin 5) : List Move :=
  [reads i ((.empty : Table Nat).queryLast user), clock i, saves i 1 1 (some deadlineExceeded)]

def lostRun (i : Fin 5) : List (Point (Fin 5) Nat) := Script.record .empty [] (lostScript i)

theorem lostRun_runs : ∃ c, Run (calls raceJobs) (lostRun 0) c := by
  have hplay : (Script.playAll (calls raceJobs).prog (lostScript 0)).isSome = true := by
    decide +kernel
  have hfits : Script.Fits (calls raceJobs) .empty (lostScript 0) :=
    ⟨.inl (.queryLast _), .inl (.now _), .inr ⟨⟨_, rfl, rfl⟩, .inr ⟨_, .save _ _⟩⟩, trivial⟩
  exact (Run.init rfl).extend hplay hfits (by decide) (by simp)

/-- `Create` returns an error, and its row is in the table. -/
theorem inserted_with_error :
    ∃ c err, Run (calls raceJobs) (lostRun 0) c ∧ raceJobs 0 = .create plainCore (snapshot 0) ∧
      c.procs 0 = .ret (.created (.error err)) ∧ inserted 0 (lostRun 0) = [(row 0 1).stored] ∧
      c.store.Has user 1 := by
  obtain ⟨c, h⟩ := lostRun_runs
  refine ⟨c, _, h, rfl, h.procs_eq rfl, by decide, ?_⟩
  exact first_kept h ⟨_, mem_of_getElem? (i := 0) rfl, by decide, by decide⟩

end Lost

end Skit.Auditlog
