import Skit.Auditlog.Calls

/-!
# The order of the versions

A version is stored when its row enters the table. Whatever the interleaving, the highest
version ever stored stays in the table, because a compaction deletes only versions below
one that it has read; and no version is skipped. So `Create` reads the highest version
ever stored, and its insert goes astray only if the version after it was stored and
deleted again in between.
-/
namespace Skit.Auditlog
open Lib List

variable {P : Type}

section Order

variable {ι : Type} [DecidableEq ι]

abbrev Point (ι P : Type) := Lib.Entry ι Int (Call P) Ans Empty (Table P)

/-- The entry stores a version: its row was not there and is. -/
def Stores (e : Point ι P) (m : Model) (v : Int) : Prop := ¬ e.pre.Has m v ∧ e.post.Has m v

def Deletes (e : Point ι P) (m : Model) (v : Int) : Prop := e.pre.Has m v ∧ ¬ e.post.Has m v

/-- A version was stored, whether or not it has been deleted since. -/
def Stored (tr : List (Point ι P)) (m : Model) (v : Int) : Prop := ∃ e ∈ tr, Stores e m v

/-- `q`, after `rq`, is the read of the last version that the insert of the call `i` goes
on from, when `r` has happened and only that insert is left to do. -/
def ReadFor (i : ι) (q : Point ι P) (rq r : List (Point ι P)) : Prop :=
  q :: rq <:+ r ∧ (∃ t m last, q.act = .proc i ⟨t, .queryLast m, last⟩) ∧
    ∃ t now, hist i r = ⟨t, .now, now⟩ :: hist i (q :: rq)

/-- Between the read that a `Create` goes on from and its insert, nothing deletes the
version that it inserts. -/
def Undisturbed (tr : List (Point ι P)) : Prop :=
  ∀ (i : ι) (e q d : Point ι P) (r rq rd : List (Point ι P)) (t : Int) (al : AuditLog P)
    (err : Option Err), e :: r <:+ tr → e.act = .proc i ⟨t, .save al, err⟩ → ReadFor i q rq r →
    d :: rd <:+ r → q :: rq <:+ rd → ¬ Deletes d al.toModel al.version

variable {jobs : ι → Job P} {tr r : List (Point ι P)} {e : Point ι P}
  {c : Config ι (Call P) Ans (Table P) (Result P)} {i : ι} {m : Model} {v : Int}

omit [DecidableEq ι] in
theorem Stored.mono (h : Stored r m v) (hs : r <:+ tr) : Stored tr m v := by
  obtain ⟨e, he, hv⟩ := h
  exact ⟨e, hs.mem he, hv⟩

section

variable (h : Run (calls jobs) tr c)
include h

theorem entry_runs (he : e :: r <:+ tr) :
    ∃ i t o a, e.act = .proc i ⟨t, o, a⟩ ∧ Runs e.pre o a e.post := by
  obtain ⟨c₀, c₁, -, hst⟩ := h.at_entry he
  cases hst with
  | env hx => exact hx.elim
  | proc _ hs => exact ⟨_, _, _, _, rfl, hs⟩

theorem entry_runs_of {t : Int} {o : Call P} {a : Ans o}
    (he : e :: r <:+ tr) (ha : e.act = .proc i ⟨t, o, a⟩) : Runs e.pre o a e.post := by
  obtain ⟨j, t', o', a', ha', hr⟩ := entry_runs h he
  rw [ha'] at ha
  cases ha
  exact hr

theorem admits {ev : Event Int (Call P) Ans} (he : e :: r <:+ tr)
    (ha : e.act = .proc i ev) : Admits (jobs i).same (hist i r) ev.op :=
  h.admitted (J := fun i => Admits (jobs i).same) (Q := fun i => (jobs i).Ends)
    (fun i => wp_job (jobs i)) he ha

theorem save_of_stores (he : e :: r <:+ tr) (hs : Stores e m v) :
    ∃ i t al err, e.act = .proc i ⟨t, .save al, err⟩ ∧ al.toModel = m ∧ al.version = v := by
  obtain ⟨i, t, o, a, ha, hr⟩ := entry_runs h he
  rcases hr.added hs.2 with hpre | ⟨al, rfl, hm, hv⟩
  · exact absurd hpre hs.1
  · exact ⟨i, t, al, a, ha, hm, hv⟩

theorem delete_of_deletes (he : e :: r <:+ tr) (hd : Deletes e m v) :
    ∃ i t del a, e.act = .proc i ⟨t, .deleteVersions m del, a⟩ ∧ v ∈ del := by
  obtain ⟨i, t, o, a, ha, hr⟩ := entry_runs h he
  rcases hr.kept hd.1 with hpost | ⟨del, rfl, hv⟩
  · exact absurd hpost hd.2
  · exact ⟨i, t, del, a, ha, hv⟩

theorem stored_of_has (hv : c.store.Has m v) : Stored tr m v := by
  refine Run.invariant (fun tr s => s.Has m v → Stored tr m v) ?_ ?_ h hv
  · rintro s rfl hs
    exact absurd hs (Table.not_has_empty m v)
  · intro tr c e c' _ _ hst ih hpost
    by_cases hpre : e.pre.Has m v
    · exact (ih (hst.pre_eq ▸ hpre)).mono (suffix_cons e tr)
    · exact ⟨e, mem_cons_self, hpre, hpost⟩

theorem stored_of_pre (he : e :: r <:+ tr) (hv : e.pre.Has m v) : Stored r m v := by
  obtain ⟨c₀, c₁, h₀, hst⟩ := h.at_entry he
  exact stored_of_has h₀ (hst.pre_eq ▸ hv)

theorem deletes_between (he : e :: r <:+ tr) (hd : Deletes e m v) :
    ∃ a b, a < v ∧ v < b ∧ Stored r m a ∧ Stored r m b := by
  obtain ⟨i, t, del, a, ha, hv⟩ := delete_of_deletes h he hd
  obtain ⟨tv, h', opts, vers, hh, rfl⟩ := admits h he ha
  have hsuf : r <:+ tr := (suffix_cons e r).trans he
  have hread : ⟨tv, .versions m, .ok vers⟩ :: h' <:+ hist i r := hh ▸ suffix_refl _
  obtain ⟨ev, rv, hev, hav, -⟩ := exists_suffix_of_hist hread
  obtain rfl := (entry_runs_of h (hev.trans hsuf) hav).listed
  obtain ⟨a, ha, b, hb, hav, hvb⟩ := between_of_deleted Table.versions_sorted hv
  have hlisted {u : Int} (hu : u ∈ ev.pre.versions m) : Stored r m u :=
    (stored_of_pre h (hev.trans hsuf) (Table.mem_versions.mp hu)).mono
      ((suffix_cons ev rv).trans hev)
  exact ⟨a, b, hav, hvb, hlisted ha, hlisted hb⟩

theorem highest_kept (hv : Stored tr m v) : ∃ w, v ≤ w ∧ c.store.Has m w := by
  refine Run.invariant (fun tr s => ∀ v, Stored tr m v → ∃ w, v ≤ w ∧ s.Has m w) ?_ ?_ h v hv
  · rintro s - v ⟨e, he, -⟩
    exact absurd he not_mem_nil
  · rintro tr c e c' - hrun hst ih v ⟨e', he', hs⟩
    rcases mem_cons.mp he' with rfl | he'
    · exact ⟨v, le_rfl, hs.2⟩
    · rw [← hst.pre_eq] at ih
      obtain ⟨w, hvw, hw⟩ := ih v ⟨e', he', hs⟩
      obtain ⟨last, hlast⟩ := Table.queryLast_of_has hw
      have hwl : w ≤ last.version := by simpa [hlast, lastVersion] using Table.le_lastVersion hw
      refine ⟨last.version, hvw.trans hwl, ?_⟩
      by_contra hpost
      -- the version deleted would be below one stored before, which the highest is not
      obtain ⟨-, b, -, hlt, -, hb⟩ := deletes_between hrun (suffix_refl _)
        ⟨Table.has_lastVersion hlast, hpost⟩
      obtain ⟨w', hbw, hw'⟩ := ih b hb
      have hle : w' ≤ last.version := by simpa [hlast, lastVersion] using Table.le_lastVersion hw'
      omega

/-- The read that an insert goes on from. -/
theorem exists_readFor {t : Int} {al : AuditLog P} {err : Option Err}
    (he : e :: r <:+ tr) (ha : e.act = .proc i ⟨t, .save al, err⟩) :
    ∃ q rq, ReadFor i q rq r ∧ (∃ tq, q.act =
      .proc i ⟨tq, .queryLast al.toModel, q.pre.queryLast al.toModel⟩) ∧
      al.version = lastVersion (q.pre.queryLast al.toModel) + 1 ∧
      ∀ r, q.pre.queryLast al.toModel = .ok r → r.version ≠ 0 →
        (jobs i).same al.payload r.payload = .ok false := by
  obtain ⟨tn, now, tq, h', last, hh, hread, hv, hdiffers⟩ := admits h he ha
  have hsuf : ⟨tq, .queryLast al.toModel, last⟩ :: h' <:+ hist i r := hh ▸ suffix_cons _ _
  obtain ⟨q, rq, hq, haq, rfl⟩ := exists_suffix_of_hist hsuf
  have htr : q :: rq <:+ tr := hq.trans ((suffix_cons e r).trans he)
  obtain rfl := (entry_runs_of h htr haq).read hread
  refine ⟨q, rq, ⟨hq, ⟨tq, _, _, haq⟩, tn, now, ?_⟩, ⟨tq, haq⟩, hv, hdiffers⟩
  rw [hh, hist_cons_self haq]

/-- The last version is zero before the first insert, and one stored before after it. -/
theorem lastVersion_stored {q : Point ι P} (hq : q :: r <:+ tr) :
    lastVersion (q.pre.queryLast m) = 0 ∨ Stored r m (lastVersion (q.pre.queryLast m)) := by
  cases hlast : q.pre.queryLast m with
  | error err => exact .inl rfl
  | ok last => exact .inr (stored_of_pre h hq (Table.has_lastVersion hlast))

/-- Versions count from one and none is skipped. -/
theorem stored_range (hv : Stored tr m v) : 1 ≤ v ∧ ∀ u, 1 ≤ u → u ≤ v → Stored tr m u := by
  refine Run.invariant (fun tr _ => ∀ v, Stored tr m v → 1 ≤ v ∧ ∀ u, 1 ≤ u → u ≤ v →
    Stored tr m u) ?_ ?_ h v hv
  · rintro s - v ⟨e, he, -⟩
    exact absurd he not_mem_nil
  · rintro tr c e c' - hrun hst ih v ⟨e', he', hs⟩
    have hgrow {u : Int} (hu : Stored tr m u) : Stored (e :: tr) m u :=
      hu.mono (suffix_cons _ _)
    rcases mem_cons.mp he' with rfl | he'
    · obtain ⟨i, t, al, err, ha, rfl, rfl⟩ := save_of_stores hrun (suffix_refl _) hs
      obtain ⟨q, rq, ⟨hq, -⟩, -, hal, -⟩ := exists_readFor hrun (suffix_refl _) ha
      have hself : Stored (e' :: tr) al.toModel al.version := ⟨e', mem_cons_self, hs⟩
      rcases lastVersion_stored hrun (hq.trans (suffix_cons _ _)) with hzero | hlast
      · rw [hzero] at hal
        refine ⟨by omega, fun u hu huv => ?_⟩
        obtain rfl : u = al.version := by omega
        exact hself
      · obtain ⟨hpos, hbelow⟩ := ih _ (hlast.mono ((suffix_cons q rq).trans hq))
        refine ⟨by omega, fun u hu huv => ?_⟩
        rcases huv.eq_or_lt with rfl | hlt
        · exact hself
        · exact hgrow (hbelow u hu (by omega))
    · obtain ⟨hpos, hbelow⟩ := ih v ⟨e', he', hs⟩
      exact ⟨hpos, fun u hu huv => hgrow (hbelow u hu huv)⟩

end

/-- Every version stored is higher than all that were ever stored before it. -/
theorem versions_increase {w : Int} (h : Run (calls jobs) tr c) (hu : Undisturbed tr)
    (he : e :: r <:+ tr) (hs : Stores e m w) (hv : Stored r m v) : v < w := by
  by_contra hle
  obtain ⟨i, t, al, err, ha, rfl, rfl⟩ := save_of_stores h he hs
  obtain ⟨q, rq, hread, ⟨tq, haq⟩, hal, -⟩ := exists_readFor h he ha
  have hr : r <:+ tr := (suffix_cons e r).trans he
  have hq : q :: rq <:+ r := hread.1
  obtain ⟨c₀, h₀⟩ := h.of_suffix hr
  -- the version inserted had been stored already, since none is skipped
  have hpos : 1 ≤ al.version := (stored_range h ⟨e, he.mem mem_cons_self, hs⟩).1
  obtain ⟨e', he', hs'⟩ := (stored_range h₀ hv).2 al.version hpos (by omega)
  obtain ⟨l, r', rfl⟩ := append_of_mem he'
  have hsuf : e' :: r' <:+ l ++ e' :: r' := suffix_append _ _
  rcases suffix_trichotomy hq hsuf with heq | hafter | hbefore
  · -- the read stores nothing
    obtain ⟨rfl, rfl⟩ := List.cons.inj heq
    obtain ⟨j, t', al', err', ha', -⟩ := save_of_stores h (hsuf.trans hr) hs'
    rw [haq] at ha'
    cases ha'
  · -- stored after the read: it was deleted before the insert
    obtain ⟨d, rd, hd, hrd, hdel⟩ := h.exists_break (P := fun s => s.Has al.toModel al.version)
      he hsuf hs'.2 hs.1
    exact hu i e q d _ rq rd t al err he ha hread hd
      (hafter.trans ((suffix_cons _ _).trans hrd)) hdel
  · -- stored before the read: the read found a version as high
    obtain ⟨c₁, c₂, h₁, hst⟩ := h.at_entry (hq.trans hr)
    obtain ⟨w, hw, hhas⟩ := highest_kept h₁ ⟨e', hbefore.mem mem_cons_self, hs'⟩
    have hlast : w ≤ lastVersion (q.pre.queryLast al.toModel) :=
      Table.le_lastVersion (hst.pre_eq ▸ hhas)
    omega

end Order

section Race

def user : Model := ⟨"user", "1"⟩

def snapshot (body : Nat) : NewAuditLog Nat := ⟨user, "PUT", "/users/1", .ok body, "admin"⟩

def plainCore : Core Nat := ⟨0, ⟨0, 0, 0, 0⟩, fun a b => .ok (a = b)⟩

/-- Four calls of `Create` for one model, and a compaction that drops every second
version between the first and the last. -/
def raceJobs (i : Fin 5) : Job Nat :=
  if i = 4 then .compact user ⟨2, 0, 0, 0⟩ else .create plainCore (snapshot i)

def row (i : Fin 5) (version : Int) : AuditLog Nat := Core.entry (snapshot i) i version 0

abbrev Move := Act (Fin 5) Int (Call Nat) Ans Empty × (Table Nat → Table Nat)

def reads (i : Fin 5) (last : Except Err (AuditLog Nat)) : Move :=
  (.proc i ⟨0, .queryLast user, last⟩, id)

def clock (i : Fin 5) : Move := (.proc i ⟨0, .now, 0⟩, id)

def saves (i : Fin 5) (version id : Int) (err : Option Err) : Move :=
  (.proc i ⟨0, .save (row i version), err⟩, fun t => (t.save id (row i version)).2)

def compacts (vers del : List Int) : List Move :=
  [(.proc 4 ⟨0, .versions user, .ok vers⟩, id),
    (.proc 4 ⟨0, .deleteVersions user del, .ok del.length⟩,
      fun t => (t.deleteVersions user del).2)]

/-- After version 1 call 1 reads it as the last; calls 2 and 3 store versions 2 and 3. -/
def race : List Move :=
  [reads 0 ((.empty : Table Nat).queryLast user), clock 0, saves 0 1 1 none,
    reads 1 (.ok { row 0 1 with id := 1 }), clock 1,
    reads 2 (.ok { row 0 1 with id := 1 }), clock 2, saves 2 2 2 none,
    reads 3 (.ok { row 2 2 with id := 2 }), clock 3, saves 3 3 3 none]

/-- The compaction deletes version 2 before call 1 inserts it. -/
def reusedScript : List Move := race ++ compacts [1, 2, 3] [2] ++ [saves 1 2 4 none]

def reusedRun : List (Point (Fin 5) Nat) := Script.record .empty [] reusedScript

theorem reusedRun_runs : ∃ c, Run (calls raceJobs) reusedRun c := by
  have hplay : (Script.playAll (calls raceJobs).prog reusedScript).isSome = true := by
    decide +kernel
  have hfits : Script.Fits (calls raceJobs) .empty reusedScript := by
    refine ⟨.inl (.queryLast _), .inl (.now _), .inl (.save _ _), .inl (.queryLast _),
      .inl (.now _),
      .inl (.queryLast _), .inl (.now _), .inl (.save _ _), .inl (.queryLast _), .inl (.now _),
      .inl (.save _ _), .inl (.versions _), .inl (.deleteVersions _ (by decide)),
      .inl (.save _ _), trivial⟩
  exact (Run.init rfl).extend hplay hfits (by decide) (by simp)

/-- Call 1 stores version 2 a second time, when version 3 is there. -/
theorem version_reused : ∃ (jobs : Fin 5 → Job Nat) (tr r : List (Point (Fin 5) Nat))
    (c : Config (Fin 5) (Call Nat) Ans (Table Nat) (Result Nat)) (e : Point (Fin 5) Nat),
    Run (calls jobs) tr c ∧ e :: r <:+ tr ∧ Stores e user 2 ∧ Stored r user 2 ∧
      Stored r user 3 := by
  obtain ⟨c, h⟩ := reusedRun_runs
  refine ⟨raceJobs, reusedRun, reusedRun.tail, c, _, h, suffix_refl (_ :: _), ?_, ?_, ?_⟩
  · exact ⟨by decide, by decide⟩
  · exact ⟨_, mem_of_getElem? (i := 5) rfl, by decide, by decide⟩
  · exact ⟨_, mem_of_getElem? (i := 2) rfl, by decide, by decide⟩

/-- Call 1 inserts version 2 before the compaction, collides, and goes on from version 3. -/
def retriedScript : List Move :=
  race ++ [saves 1 2 4 ((((.empty : Table Nat).save 2 (row 2 2)).2.save 4 (row 1 2)).1),
    reads 1 (.ok { row 3 3 with id := 3 }), clock 1, saves 1 4 5 none] ++ compacts [1, 2, 3, 4] [2]

def retriedRun : List (Point (Fin 5) Nat) := Script.record .empty [] retriedScript

theorem retriedRun_runs : ∃ c, Run (calls raceJobs) retriedRun c := by
  have hplay : (Script.playAll (calls raceJobs).prog retriedScript).isSome = true := by
    decide +kernel
  have hfits : Script.Fits (calls raceJobs) .empty retriedScript := by
    refine ⟨.inl (.queryLast _), .inl (.now _), .inl (.save _ _), .inl (.queryLast _),
      .inl (.now _),
      .inl (.queryLast _), .inl (.now _), .inl (.save _ _), .inl (.queryLast _), .inl (.now _),
      .inl (.save _ _), .inl (.save _ _), .inl (.queryLast _), .inl (.now _), .inl (.save _ _),
      .inl (.versions _), .inl (.deleteVersions _ (by decide)), trivial⟩
  exact (Run.init rfl).extend hplay hfits (by decide) (by simp)

theorem retriedRun_undisturbed : Undisturbed retriedRun := by
  obtain ⟨c, h⟩ := retriedRun_runs
  intro i e q d r rq rd t al err he ha _ hd _ hdel
  obtain ⟨j, t', vers, a, had, -⟩ :=
    delete_of_deletes h (hd.trans ((suffix_cons e r).trans he)) hdel
  have hmem : d ∈ Script.record .empty [] retriedScript.dropLast :=
    (suffix_tail he).mem (hd.mem mem_cons_self)
  have hact := (Script.act_mem_record hmem).resolve_left not_mem_nil
  rw [had] at hact
  simp [retriedScript, race, compacts, reads, clock, saves] at hact

/-- Version 4 is stored after versions 1 to 3, and after nothing as high. -/
theorem versions_increase_retried : ∃ e r, e :: r <:+ retriedRun ∧ Stores e user 4 ∧
    Stored r user 3 ∧ ∀ v, Stored r user v → v < 4 := by
  obtain ⟨c, h⟩ := retriedRun_runs
  have hsuf : retriedRun.drop 2 <:+ retriedRun := drop_suffix 2 retriedRun
  have hs : Stores (retriedRun.get ⟨2, by decide⟩) user 4 := ⟨by decide, by decide⟩
  refine ⟨retriedRun.get ⟨2, by decide⟩, retriedRun.drop 3, hsuf, hs, ?_, ?_⟩
  · exact ⟨_, mem_of_getElem? (i := 3) rfl, by decide, by decide⟩
  · exact fun v hv => versions_increase h retriedRun_undisturbed hsuf hs hv

end Race

end Skit.Auditlog
