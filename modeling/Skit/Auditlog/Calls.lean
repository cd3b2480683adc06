import Skit.Auditlog.Core

/-!
# The calls of an audit log on their own

What a job does whatever the store answers: after which of its own statements it saves or
deletes a version, and what has become of its inserts when it returns. An insert whose
answer is an error other than a collision may have run or not.
-/
namespace Skit.Auditlog
open Lib

variable {P : Type} {al : AuditLog P}

abbrev History (P : Type) := List (Event Int (Call P) Ans)

/-- After which calls a job saves or deletes, if it compares snapshots by `same`. -/
def Admits (same : P → P → Except Err Bool) (h : History P) : Call P → Prop
  | .save al => ∃ tn now tr h', ∃ last : Except Err (AuditLog P),
      h = ⟨tn, .now, now⟩ :: ⟨tr, .queryLast al.toModel, last⟩ :: h' ∧
        Core.readError last = none ∧ al.version = lastVersion last + 1 ∧
        ∀ r, last = .ok r → r.version ≠ 0 → same al.payload r.payload = .ok false
  | .deleteVersions m del => ∃ tv h' opts, ∃ vers : List Int,
      h = ⟨tv, .versions m, .ok vers⟩ :: h' ∧ del = versionsToDelete vers opts
  | _ => True

/-- The row of an insert that was acknowledged. -/
def acked : Event Int (Call P) Ans → Option (AuditLog P)
  | ⟨_, .save al, none⟩ => some al
  | _ => none

theorem eq_of_acked {ev : Event Int (Call P) Ans} (h : acked ev = some al) :
    ∃ t, ev = ⟨t, .save al, none⟩ := by
  obtain ⟨t, o, a⟩ := ev
  cases o with
  | save al' =>
    cases a with
    | none =>
      cases h
      exact ⟨t, rfl⟩
    | some err => cases h
  | _ => cases h

/-- An insert that failed other than by a collision: it may have run. -/
def unclear : Event Int (Call P) Ans → Bool
  | ⟨_, .save _, some err⟩ => !isDuplicatedEntry err
  | _ => false

/-- Every insert was acknowledged or collided, and `rows` are the acknowledged ones. -/
structure Settled (h : History P) (rows : List (AuditLog P)) : Prop where
  acked_eq : h.filterMap acked = rows
  clear : ∀ ev ∈ h, unclear ev = false

theorem Settled.nil : Settled ([] : History P) [] := ⟨rfl, by simp⟩

variable {rows : List (AuditLog P)} {h : History P}

theorem Settled.cons (hs : Settled h rows)
    (ev : Event Int (Call P) Ans) (ha : acked ev = none) (hu : unclear ev = false) :
    Settled (ev :: h) rows where
  acked_eq := by rw [List.filterMap_cons_none ha, hs.acked_eq]
  clear := List.forall_mem_cons.mpr ⟨hu, hs.clear⟩

theorem Settled.save {t : Int}
    (hs : Settled h rows) : Settled (⟨t, .save al, none⟩ :: h) (al :: rows) where
  acked_eq := by rw [List.filterMap_cons_some (show acked _ = some al from rfl), hs.acked_eq]
  clear := List.forall_mem_cons.mpr ⟨rfl, hs.clear⟩

/-- The last statement of the call read a row whose snapshot counts as the one of `new`. -/
def Unchanged (c : Core P) (new : NewAuditLog P) (h : History P) : Prop :=
  ∃ t h' body, ∃ last : AuditLog P, h = ⟨t, .queryLast new.toModel, .ok last⟩ :: h' ∧
    new.body = .ok body ∧ c.payloadsEqual body last.payload = .ok true

/-- What the statements of a `Create` have done when it returns. -/
def Ends (c : Core P) (new : NewAuditLog P) : Except Err (Option (AuditLog P)) → History P → Prop
  | .ok (some e), h => e.toModel = new.toModel ∧ new.body = .ok e.payload ∧ Settled h [e]
  | .ok none, h => Settled h [] ∧ Unchanged c new h
  | .error _, h => Settled h [] ∨ ∃ t al err h', h = ⟨t, .save al, some err⟩ :: h' ∧
      isDuplicatedEntry err = false ∧ Settled h' []

/-- How the job compares snapshots; a compaction compares none. -/
def Job.same : Job P → P → P → Except Err Bool
  | .create c _ => c.payloadsEqual
  | _ => fun _ _ => .error (.text "no comparison")

def Job.Ends : Job P → Result P → History P → Prop
  | .create c new, .created res, h => Auditlog.Ends c new res h
  | .create _ _, _, _ => False
  | _, _, _ => True

variable {same : P → P → Except Err Bool}

theorem wp_compact (m : Model) (opts : CompactOptions) (hs : Settled h rows) :
    wp (Admits same) (fun _ h' => Settled h' rows) (compact m opts) h := by
  simp only [compact, ask, Prog.ask_bind]
  refine ⟨trivial, fun t a => ?_⟩
  have hs' := hs.cons ⟨t, .versions m, a⟩ rfl rfl
  cases a with
  | error err => exact hs'
  | ok vers =>
    dsimp only
    split_ifs with hdel
    · exact hs'
    · refine ⟨⟨t, h, opts, vers, rfl, rfl⟩, fun t' a' => ?_⟩
      cases a' <;> exact hs'.cons _ rfl rfl

theorem wp_compactEach (opts : CompactOptions) (refs : List ModelRef) (res : CompactResult)
    (hs : Settled h rows) :
    wp (Admits same) (fun _ h' => Settled h' rows) (compactEach opts refs res) h := by
  induction refs generalizing res h with
  | nil => exact hs
  | cons ref refs ih =>
    refine wp_seq (wp_compact ref.toModel opts hs) fun n h' hs' => ?_
    cases n with
    | error err => exact hs'
    | ok n =>
      dsimp only
      split_ifs
      · exact ih _ hs'
      · exact ih _ hs'

theorem wp_compactBatch (opts : CompactBatchOptions) (hs : Settled h rows) :
    wp (Admits same) (fun _ h' => Settled h' rows) (compactBatch opts) h := by
  refine ⟨trivial, fun t a => ?_⟩
  have hs' := hs.cons ⟨t, .overThreshold _ _, a⟩ rfl rfl
  cases a with
  | error err => exact hs'
  | ok refs => exact wp_compactEach _ _ _ hs'

theorem wp_maybeAutoCompact (c : Core P) (entry : AuditLog P) (hs : Settled h rows) :
    wp (Admits same) (fun _ h' => Settled h' rows) (c.maybeAutoCompact entry) h := by
  unfold Core.maybeAutoCompact
  split_ifs
  · exact hs
  · exact wp_seq (wp_compact _ _ hs) fun _ _ hs' => hs'

/-- `Core.QueryLastByModelID` makes one read, and only wraps its error. -/
theorem wp_queryLast (m : Model) (h : History P) :
    wp (Admits same) (fun last h' => ∃ t, ∃ a : Except Err (AuditLog P),
      h' = ⟨t, .queryLast m, a⟩ :: h ∧
      Core.readError last = (Core.readError a).map (fun err =>
        .wrap ("auditlog: query last " ++ m.path ++ ": " ++ err.error) err) ∧
      lastVersion last = lastVersion a ∧ ∀ r, last = .ok r ↔ a = .ok r)
      (Core.queryLast (P := P) m) h := by
  simp only [Core.queryLast, ask, Prog.ask_bind]
  refine ⟨trivial, fun t a => ?_⟩
  cases a with
  | error err =>
    refine ⟨t, .error err, rfl, ?_, rfl, by simp⟩
    have his (msg : String) : isNotFound (.wrap msg err) = isNotFound err := rfl
    simp only [Core.readError, his]
    split_ifs <;> rfl
  | ok r => exact ⟨t, .ok r, rfl, rfl, rfl, by simp⟩

theorem Core.eq_ok_of_unchanged {c : Core P} {body : P} {last : Except Err (AuditLog P)}
    (h : c.unchanged body last = .ok true) :
    ∃ r, last = .ok r ∧ c.payloadsEqual body r.payload = .ok true := by
  cases last with
  | error err => simp [Core.unchanged] at h
  | ok r =>
    rw [Core.unchanged] at h
    split_ifs at h
    · exact ⟨r, rfl, h⟩
    · simp at h

section Create

variable (c : Core P) {new : NewAuditLog P} {body : P}

/-- An attempt inserts the version after the one it has just read, and goes on to the next
attempt only after a collision. -/
theorem wp_attempt (hb : new.body = .ok body)
    {again : Option (Prog (Call P) Ans (Except Err (Option (AuditLog P))))}
    (hagain : ∀ p ∈ again, ∀ h : History P, Settled h [] →
      wp (Admits c.payloadsEqual) (Ends c new) p h) (hs : Settled h []) :
    wp (Admits c.payloadsEqual) (Ends c new) (c.attempt new body again) h := by
  refine wp_seq (wp_queryLast new.toModel h) ?_
  rintro last h' ⟨t, a, rfl, hread, hlast, hok⟩
  have hs' := hs.cons ⟨t, .queryLast new.toModel, a⟩ rfl rfl
  dsimp only
  split
  · exact .inl hs'
  · exact .inl hs'
  · rename_i hsame
    obtain ⟨r, rfl, hequal⟩ := Core.eq_ok_of_unchanged hsame
    obtain rfl := (hok r).mp rfl
    exact ⟨hs', t, h, body, r, rfl, hb, hequal⟩
  · rename_i hnone hchanged
    have hdiffers (r : AuditLog P) (hr : a = .ok r) (hv : r.version ≠ 0) :
        c.payloadsEqual body r.payload = .ok false := by
      rw [(hok r).mpr hr, Core.unchanged, if_pos hv] at hchanged
      exact hchanged
    have hnone' : Core.readError a = none := by simpa [hnone] using hread.symm
    simp only [ask, Prog.ask_bind]
    refine ⟨trivial, fun tn now => ⟨⟨tn, now, t, h, a, rfl, hnone', ?_, hdiffers⟩, ?_⟩⟩
    · rw [← hlast]
      rfl
    have hs'' := hs'.cons ⟨tn, .now, now⟩ rfl rfl
    intro ts saved
    cases saved with
    | none =>
      exact wp_seq (wp_maybeAutoCompact c _ hs''.save) fun _ _ hend => ⟨rfl, hb, hend⟩
    | some err =>
      dsimp only
      cases hdup : isDuplicatedEntry err with
      | false =>
        split
        · contradiction
        · exact .inr ⟨ts, _, err, _, rfl, hdup, hs''⟩
      | true =>
        have hcollided (al : AuditLog P) := hs''.cons ⟨ts, .save al, some err⟩ rfl
          (by simp [unclear, hdup])
        split
        · exact hagain _ rfl _ (hcollided _)
        · exact .inl (hcollided _)

theorem wp_attempts (hb : new.body = .ok body) (left : Nat) (hs : Settled h []) :
    wp (Admits c.payloadsEqual) (Ends c new) (c.attempts new body left) h := by
  induction left generalizing h with
  | zero => exact wp_attempt c hb (by simp) hs
  | succ left ih => exact wp_attempt c hb (by simpa using fun h hs => ih hs) hs

theorem wp_create (new : NewAuditLog P) (hs : Settled h []) :
    wp (Admits c.payloadsEqual) (Ends c new) (c.create new) h := by
  unfold Core.create
  split
  · exact .inl hs
  · exact wp_attempts c ‹_› _ hs

end Create

theorem wp_job (job : Job P) : wp (Admits job.same) job.Ends job.prog ([] : History P) := by
  cases job with
  | create c new => exact wp_seq (wp_create c new .nil) fun _ _ hend => hend
  | compact m opts => exact wp_seq (wp_compact m opts .nil) fun _ _ _ => trivial
  | compactBatch opts => exact wp_seq (wp_compactBatch opts .nil) fun _ _ _ => trivial

end Skit.Auditlog
