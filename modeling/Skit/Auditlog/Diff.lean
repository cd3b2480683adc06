import Skit.Auditlog.Payload

/-!
# Differences between stored versions

`diff`, `QueryDiffByModelID` and `QueryDiffAllVersionByModelID` decode the payloads of the
rows they read, as `Create` decodes the payload of the last version. The first `Create` of a
model decodes nothing, so a payload that is no map can be stored as version 1; every later
version was decoded before it was stored. The models of the queries take the answers of the
store, so that a failure of the store is one of their inputs.
-/
namespace Skit.Auditlog
open Lib List

section Queries

variable (cmp : Comparer)

def diff (curVer prevVer : Payload) : Except Err String :=
  match unmarshal curVer with
  | .error err => .error (.wrap ("auditlog: decode current version: " ++ err.error) err)
  | .ok resultCur =>
    match unmarshal prevVer with
    | .error err => .error (.wrap ("auditlog: decode previous version: " ++ err.error) err)
    | .ok resultPrev =>
      if cmp.equal resultCur resultPrev then .ok "" else .ok (cmp.diff resultCur resultPrev)

structure QueryFilter where
  currentVersion : Option Int
  targetVersion : Option Int

def errInvalidFilter : Err := .sentinel "invalid audit log query filter"

/-- `QueryModelByVersion` of the store. -/
def Table.queryModelByVersion {P : Type} (t : Table P) (m : Model) (ver : Int) :
    Except Err (AuditLog P) :=
  match (t.history m).find? fun r => r.version = ver with
  | none => .error (.wrap ("querymodelbyversion: " ++ errNotFound.error) errNotFound)
  | some r => .ok r

/-- `QueryDiffByModelID`; `cur` and `target` answer its two reads. -/
def queryDiffByModelID (cur target : Int → Except Err (AuditLog Payload)) (m : Model)
    (filter : QueryFilter) : Except Err String :=
  match filter.currentVersion, filter.targetVersion with
  | some v, some w =>
    match cur v with
    | .error err =>
      .error (.wrap ("auditlog: query version " ++ toString v ++ " of " ++ m.path ++ ": " ++
        err.error) err)
    | .ok c =>
      match target w with
      | .error err =>
        .error (.wrap ("auditlog: query version " ++ toString w ++ " of " ++ m.path ++ ": " ++
          err.error) err)
      | .ok t =>
        match diff cmp c.payload t.payload with
        | .error err => .error (.wrap ("auditlog: diff " ++ m.path ++ ": " ++ err.error) err)
        | .ok diffs => .ok diffs
  | _, _ =>
    .error (.wrap ("auditlog: " ++ errInvalidFilter.error ++
      ": both current and target versions are required") errInvalidFilter)

/-- A changed attribute; a missing value is nil. -/
structure Field where
  key : String
  oldValue : Any
  newValue : Any

structure DiffRecord extends Model where
  id : Int
  method : String
  path : String
  version : Int
  updatedBy : String
  updatedAt : Int
  changedFields : List Field

def unmarshalJSON (data : Payload) : Except Err Any :=
  match unmarshal data with
  | .error err => .error (.wrap ("auditlog: decode payload: " ++ err.error) err)
  | .ok result => .ok result

/-- The members of a decoded map; the nil map has none. -/
def membersOf : Any → List (String × Any)
  | .obj members => members
  | _ => []

/-- `compareJSON`, in one of the orders in which Go may range over the maps. -/
def compareJSON (prev curr : Any) : List Field :=
  (membersOf curr).filterMap (fun p =>
    match (membersOf prev).lookup p.1 with
    | some prevValue => if deepEqual prevValue p.2 then none else some ⟨p.1, prevValue, p.2⟩
    | none => some ⟨p.1, .null, p.2⟩) ++
  (membersOf prev).filterMap (fun p =>
    match (membersOf curr).lookup p.1 with
    | some _ => none
    | none => some ⟨p.1, p.2, .null⟩)

def DiffRecord.ofRow (r : AuditLog Payload) (changedFields : List Field) : DiffRecord where
  toModel := r.toModel
  id := r.id
  method := r.method
  path := r.path
  version := r.version
  updatedBy := r.createdBy
  updatedAt := r.createdAt
  changedFields := changedFields

def queryError (m : Model) (err : Err) : Err :=
  .wrap ("query auditlog history by modelID[" ++ m.modelID ++ "], modelType[" ++ m.modelType ++
    "] " ++ err.error) err

/-- The fields that changed from one row to the next. -/
def changes (m : Model) (prev cur : AuditLog Payload) : Except Err (List Field) :=
  match unmarshalJSON prev.payload with
  | .error err => .error (queryError m err)
  | .ok v1 =>
    match unmarshalJSON cur.payload with
    | .error err => .error (queryError m err)
    | .ok v2 => .ok (compareJSON v1 v2)

/-- The loop of `QueryDiffAllVersionByModelID` after its first turn. -/
def diffRecords (m : Model) (prev : AuditLog Payload) :
    List (AuditLog Payload) → Except Err (List DiffRecord)
  | [] => .ok []
  | cur :: rest =>
    match changes m prev cur with
    | .error err => .error err
    | .ok d =>
      match diffRecords m cur rest with
      | .error err => .error err
      | .ok recs => .ok (DiffRecord.ofRow cur d :: recs)

/-- `QueryDiffAllVersionByModelID`; `modelHistory` answers its read. The record of the first
row lists the values that its successor changed. -/
def queryDiffAllVersionByModelID (m : Model) (modelHistory : Except Err (List (AuditLog Payload))) :
    Except Err (List DiffRecord) :=
  match modelHistory with
  | .error err =>
    .error (queryError m (.wrap ("auditlog: query history " ++ m.path ++ ": " ++ err.error) err))
  | .ok (first :: second :: rest) =>
    match changes m first second with
    | .error err => .error err
    | .ok d =>
      match diffRecords m second rest with
      | .error err => .error err
      | .ok recs =>
        .ok (DiffRecord.ofRow first (d.map fun f => ⟨f.key, .null, f.oldValue⟩) ::
          DiffRecord.ofRow second d :: recs)
  | .ok _ => .ok []

end Queries

section Decoded

variable {a b : Payload} {cmp : Comparer} {m : Model} {rows : List (AuditLog Payload)}

theorem exists_unmarshal (h : Decodes a) : ∃ m, unmarshal a = .ok m :=
  ⟨_, unmarshal_eq_ok.mpr ⟨h, rfl⟩⟩

theorem exists_payloadsEqual (ha : Decodes a) (hb : Decodes b) :
    ∃ same, payloadsEqual cmp a b = .ok same := by
  simp [payloadsEqual, normalizeMap_eq_ok.mpr ⟨ha, rfl⟩, normalizeMap_eq_ok.mpr ⟨hb, rfl⟩]

theorem decodes_of_payloadsEqual {same : Bool} (h : payloadsEqual cmp a b = .ok same) :
    Decodes a ∧ Decodes b := by
  unfold payloadsEqual at h
  cases ha : normalizeMap a with
  | error err => simp [ha] at h
  | ok na =>
    cases hb : normalizeMap b with
    | error err => simp [ha, hb] at h
    | ok nb => exact ⟨(normalizeMap_eq_ok.mp ha).1, (normalizeMap_eq_ok.mp hb).1⟩

theorem exists_diff (cmp : Comparer) (ha : Decodes a) (hb : Decodes b) :
    ∃ text, diff cmp a b = .ok text := by
  obtain ⟨m, hm⟩ := exists_unmarshal ha
  obtain ⟨m', hm'⟩ := exists_unmarshal hb
  simp only [diff, hm, hm']
  split_ifs
  · exact ⟨_, rfl⟩
  · exact ⟨_, rfl⟩

theorem decodes_of_diff {text : String} (h : diff cmp a b = .ok text) : Decodes a := by
  unfold diff at h
  cases ha : unmarshal a with
  | error err => simp [ha] at h
  | ok m => exact (unmarshal_eq_ok.mp ha).1

theorem exists_changes {prev cur : AuditLog Payload} (hp : Decodes prev.payload)
    (hc : Decodes cur.payload) : ∃ d, changes m prev cur = .ok d := by
  obtain ⟨v, hv⟩ := exists_unmarshal hp
  obtain ⟨w, hw⟩ := exists_unmarshal hc
  simp [changes, unmarshalJSON, hv, hw]

theorem exists_diffRecords {prev : AuditLog Payload}
    (hp : Decodes prev.payload) (hrows : ∀ r ∈ rows, Decodes r.payload) :
    ∃ recs, diffRecords m prev rows = .ok recs := by
  induction rows generalizing prev with
  | nil => exact ⟨[], rfl⟩
  | cons cur rest ih =>
    obtain ⟨hc, hrest⟩ := forall_mem_cons.mp hrows
    obtain ⟨d, hd⟩ := exists_changes (m := m) hp hc
    obtain ⟨recs, hrecs⟩ := ih hc hrest
    simp [diffRecords, hd, hrecs]

theorem exists_queryDiffAll (h : ∀ r ∈ rows, Decodes r.payload) :
    ∃ recs, queryDiffAllVersionByModelID m (.ok rows) = .ok recs := by
  cases rows with
  | nil => exact ⟨[], rfl⟩
  | cons first rows =>
    cases rows with
    | nil => exact ⟨[], rfl⟩
    | cons second rest =>
      simp only [forall_mem_cons] at h
      obtain ⟨h₁, h₂, hrest⟩ := h
      obtain ⟨d, hd⟩ := exists_changes (m := m) h₁ h₂
      obtain ⟨recs, hrecs⟩ := exists_diffRecords (m := m) h₂ hrest
      simp [queryDiffAllVersionByModelID, hd, hrecs]

theorem Table.mem_rows_of_queryModelByVersion {P : Type} {t : Table P} {v : Int}
    {r : AuditLog P} (h : t.queryModelByVersion m v = .ok r) :
    r ∈ t.rows ∧ r.toModel = m ∧ r.version = v := by
  unfold queryModelByVersion at h
  cases hf : (t.history m).find? fun r => r.version = v with
  | none => simp [hf] at h
  | some r' =>
    simp only [hf, Except.ok.injEq] at h
    subst h
    obtain ⟨hr, hm⟩ := mem_history.mp (mem_of_find?_eq_some hf)
    exact ⟨hr, hm, by simpa using find?_some hf⟩

theorem Table.exists_queryModelByVersion {P : Type} {t : Table P} {v : Int}
    (h : t.Has m v) : ∃ r, t.queryModelByVersion m v = .ok r := by
  obtain ⟨r, hr, hm, hv⟩ := h
  unfold queryModelByVersion
  cases hf : (t.history m).find? fun r => r.version = v with
  | none =>
    rw [find?_eq_none] at hf
    exact absurd (hf r (mem_history.mpr ⟨hr, hm⟩)) (by simp [hv])
  | some r' => exact ⟨r', rfl⟩

end Decoded

section Legible

variable {ι : Type} [DecidableEq ι] {jobs : ι → Job Payload} {tr r : List (Point ι Payload)}
  {e : Point ι Payload} {c : Config ι (Call Payload) Ans (Table Payload) (Result Payload)}
  {m : Model} {cmp : Comparer}

/-- Every `Core` compares snapshots by `payloadsEqual`. -/
def Compares (cmp : Comparer) (jobs : ι → Job Payload) : Prop :=
  ∀ i core new, jobs i = .create core new → core.payloadsEqual = payloadsEqual cmp

/-- No read of the model fails on a stored payload: neither the comparison of a `Create`, nor
a diff of two versions, read one after the other, nor the diffs of all versions. -/
structure Legible (cmp : Comparer) (m : Model) (tr : List (Point ι Payload)) :
    Prop where
  create : ∀ e ∈ tr, ∀ last body, e.post.queryLast m = .ok last → Decodes body →
    ∃ same, payloadsEqual cmp body last.payload = .ok same
  diff : ∀ e ∈ tr, ∀ e' ∈ tr, ∀ v v' r r', e.post.queryModelByVersion m v = .ok r →
    e'.post.queryModelByVersion m v' = .ok r' → ∃ text, queryDiffByModelID cmp
      (e.post.queryModelByVersion m) (e'.post.queryModelByVersion m) m ⟨some v, some v'⟩ = .ok text
  diffAll : ∀ e ∈ tr, ∃ recs, queryDiffAllVersionByModelID m (.ok (e.post.history m)) = .ok recs

/-- The payload that is stored as version 1 can be decoded. -/
def FirstDecodes (m : Model) (tr : List (Point ι Payload)) : Prop :=
  ∀ e ∈ tr, ∀ i t al err, e.act = .proc i ⟨t, .save al, err⟩ → Stores e m 1 → Decodes al.payload

omit [DecidableEq ι] in
theorem FirstDecodes.of_suffix (h : FirstDecodes m tr) (hs : r <:+ tr) : FirstDecodes m r :=
  fun e he => h e (hs.mem he)

/-- A version after the first is stored once it and its predecessor were decoded. -/
theorem saved_decodes {i : ι} {t : Int} {al : AuditLog Payload} {err : Option Err}
    (h : Run (calls jobs) tr c) (hc : Compares cmp jobs) (he : e :: r <:+ tr)
    (ha : e.act = .proc i ⟨t, .save al, err⟩) (hv : al.version ≠ 1) :
    ∃ q rq last, q :: rq <:+ r ∧ q.pre.queryLast al.toModel = .ok last ∧
      al.version = last.version + 1 ∧ Decodes al.payload ∧ Decodes last.payload := by
  obtain ⟨q, rq, hfor, -, hal, hdiffers⟩ := exists_readFor h he ha
  cases hlast : q.pre.queryLast al.toModel with
  | error err =>
    rw [hlast, lastVersion] at hal
    omega
  | ok last =>
    rw [hlast, lastVersion] at hal
    have hsame := hdiffers last hlast (by omega)
    refine ⟨q, rq, last, hfor.1, hlast, hal, ?_⟩
    cases hjob : jobs i with
    | create core new =>
      rw [hjob, Job.same, hc i core new hjob] at hsame
      exact decodes_of_payloadsEqual hsame
    | compact m opts => simp [hjob, Job.same] at hsame
    | compactBatch opts => simp [hjob, Job.same] at hsame

/-- If the first version can be decoded, so can all rows of the model at all times. -/
theorem rows_decode (h : Run (calls jobs) tr c) (hc : Compares cmp jobs)
    (hfirst : FirstDecodes m tr) : ∀ r ∈ c.store.rows, r.toModel = m → Decodes r.payload := by
  refine Run.invariant (fun tr s => FirstDecodes m tr → ∀ r ∈ s.rows, r.toModel = m →
    Decodes r.payload) ?_ ?_ h hfirst
  · rintro s rfl - r hr
    exact absurd hr not_mem_nil
  · intro tr c e c' hrun₀ hrun hst ih hfirst r hr hm
    obtain ⟨i, t, o, a, ha, hruns⟩ := entry_runs hrun (suffix_refl _)
    rcases hruns.mem_rows hr with hr | ⟨al, id, rfl, rfl, hnew⟩
    · rw [hst.pre_eq] at hr
      exact ih (hfirst.of_suffix (suffix_cons e tr)) r hr hm
    · by_cases hv : al.version = 1
      · refine hfirst e mem_cons_self i t al a ha ⟨?_, _, hr, hm, hv⟩
        rwa [hv, show al.toModel = m from hm] at hnew
      · obtain ⟨-, -, -, -, -, -, hdecodes, -⟩ := saved_decodes hrun hc (suffix_refl _) ha hv
        exact hdecodes

theorem post_rows_decode (h : Run (calls jobs) tr c) (hc : Compares cmp jobs)
    (hfirst : FirstDecodes m tr) (he : e ∈ tr) {row : AuditLog Payload} (hr : row ∈ e.post.rows)
    (hm : row.toModel = m) : Decodes row.payload := by
  obtain ⟨l, r, rfl⟩ := append_of_mem he
  have hsuf : e :: r <:+ l ++ e :: r := suffix_append _ _
  obtain ⟨c', h'⟩ := h.of_suffix hsuf
  have hstore : c'.store = e.post := by
    cases h' with
    | step _ _ hst => exact hst.post_eq
  exact rows_decode h' hc (hfirst.of_suffix hsuf) row (hstore ▸ hr) hm

/-- In every run the history of a model stays legible if and only if the payload stored as
its first version can be decoded. -/
theorem legible_iff (h : Run (calls jobs) tr c) (hc : Compares cmp jobs) :
    Legible cmp m tr ↔ FirstDecodes m tr := by
  constructor
  · intro hleg e he i t al err ha hs
    obtain ⟨row, hrow⟩ := Table.exists_queryModelByVersion hs.2
    obtain ⟨text, htext⟩ := hleg.diff e he e he 1 1 row row hrow hrow
    obtain ⟨hmem, hm, hv⟩ := Table.mem_rows_of_queryModelByVersion hrow
    obtain ⟨l, r, rfl⟩ := append_of_mem he
    have hruns := entry_runs_of h (suffix_append _ _) ha
    rcases hruns.mem_rows hmem with hpre | ⟨al', id, hal, rfl, -⟩
    · exact absurd ⟨row, hpre, hm, hv⟩ hs.1
    · cases hal
      simp only [queryDiffByModelID, hrow] at htext
      cases hd : Auditlog.diff cmp al.stored.payload al.stored.payload with
      | error err => simp [hd] at htext
      | ok text => exact decodes_of_diff hd
  · intro hfirst
    have hdecodes {e : Point ι Payload} (he : e ∈ tr) {row : AuditLog Payload}
        (hr : row ∈ e.post.rows) (hm : row.toModel = m) : Decodes row.payload :=
      post_rows_decode h hc hfirst he hr hm
    refine ⟨?_, ?_, ?_⟩
    · intro e he last body hlast hbody
      obtain ⟨hr, hm⟩ := Table.mem_history.mp (mem_of_getLast? (Table.queryLast_eq_ok hlast))
      exact exists_payloadsEqual hbody (hdecodes he hr hm)
    · intro e he e' he' v v' row row' hrow hrow'
      obtain ⟨hr, hm, -⟩ := Table.mem_rows_of_queryModelByVersion hrow
      obtain ⟨hr', hm', -⟩ := Table.mem_rows_of_queryModelByVersion hrow'
      obtain ⟨text, htext⟩ := exists_diff cmp (hdecodes he hr hm)
        (hdecodes he' hr' hm')
      exact ⟨text, by simp [queryDiffByModelID, hrow, hrow', htext]⟩
    · intro e he
      refine exists_queryDiffAll fun row hr => ?_
      obtain ⟨hr, hm⟩ := Table.mem_history.mp hr
      exact hdecodes he hr hm

theorem named_decodes : Decodes (named []) :=
  ⟨rfl, by decide, by decide, by simp [named, Json.numbers, Json.numbersMembers]⟩

/-- A model whose first snapshot is an object. -/
theorem legible_iff_named :
    ∃ c, Run (calls (pairJobs (named []) (named []))) (pairRun (named [])) c ∧
      Legible deepComparer user (pairRun (named [])) := by
  obtain ⟨c, h, -⟩ := pairRun_runs (named []) (named [])
  have hc : Compares deepComparer (pairJobs (named []) (named [])) := by
    intro i core new hjob
    cases hjob
    rfl
  have hfirst : FirstDecodes user (pairRun (named [])) := by
    intro e he i t al err ha _
    simp only [pairRun, mem_cons, not_mem_nil, or_false] at he
    rcases he with rfl | rfl | rfl | rfl
    · cases ha
    · cases ha
      exact named_decodes
    · cases ha
    · cases ha
  exact ⟨c, h, (legible_iff h hc).mpr hfirst⟩

/-- An array is stored as version 1; then a snapshot that is an object is refused, and no diff
of that version can be made. -/
theorem history_poisoned :
    ∃ c err, Run (calls (pairJobs (.arr []) (named []))) (pairRun (.arr [])) c ∧
      c.procs 0 = .ret (.created (.ok (some (firstRow (.arr []))))) ∧
      c.procs 1 = .ret (.created (.error err)) ∧ Decodes (named []) ∧
      ∀ cmp other, ∃ err', diff cmp (firstRow (.arr [])).payload other = .error err' := by
  obtain ⟨c, h, hstored, hret⟩ := pairRun_runs (.arr []) (named [])
  exact ⟨c, _, h, hstored, hret _ rfl, named_decodes, fun _ _ => ⟨_, rfl⟩⟩

end Legible

end Skit.Auditlog
