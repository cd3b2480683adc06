import Skit.Auditlog.Diff

/-!
# The history of the fields

`QueryDiffAllVersionByModelID` lists, for each version after the first, the top-level keys that
changed. A decoded payload is read through the value of each key, and the lists are compared with
what the values say. The changes of the records take the first payload to every later one.
-/
namespace Skit.Auditlog
open Lib List

/-- What the payload of a row decodes into. -/
def decoded (r : AuditLog Payload) : Any := r.payload.mapNum toFloat64

/-- The decoded value of a top-level key. -/
def valueAt (doc : Any) (key : String) : Option Value := Json.valueMembers id (membersOf doc) key

/-- The Go value of a top-level key, nil when it is absent. -/
def fieldAt (doc : Any) (key : String) : Any := ((membersOf doc).lookup key).getD .null

/-- The fields are those that differ, each once, with the values before and after. -/
structure TellsChanges (prev cur : Any) (fields : List Field) : Prop where
  once : (fields.map Field.key).Nodup
  differ : ∀ key, key ∈ fields.map Field.key ↔ valueAt prev key ≠ valueAt cur key
  values : ∀ f ∈ fields, f.oldValue = fieldAt prev f.key ∧ f.newValue = fieldAt cur f.key

section Compare

variable {prev cur doc : Any} {f : Field} {p : String × Any}

theorem distinct_members_of (h : doc.distinct = true) :
    ((membersOf doc).map Prod.fst).Nodup ∧ ∀ p ∈ membersOf doc, p.2.distinct = true := by
  cases doc with
  | obj members => exact Json.distinct_obj_iff.mp h
  | _ => exact ⟨nodup_nil, nofun⟩

theorem valueAt_eq (doc : Any) (key : String) :
    valueAt doc key = ((membersOf doc).lookup key).map (Json.value id) :=
  Json.valueMembers_eq id _ key

/-- The field of a key of the current map, if it changed. -/
def changedField (prev : Any) (p : String × Any) : Option Field :=
  match (membersOf prev).lookup p.1 with
  | some prevValue => if deepEqual prevValue p.2 then none else some ⟨p.1, prevValue, p.2⟩
  | none => some ⟨p.1, .null, p.2⟩

/-- The field of a key of the previous map, if it is gone. -/
def removedField (cur : Any) (p : String × Any) : Option Field :=
  match (membersOf cur).lookup p.1 with
  | some _ => none
  | none => some ⟨p.1, p.2, .null⟩

theorem compareJSON_eq (prev cur : Any) :
    compareJSON prev cur = (membersOf cur).filterMap (changedField prev) ++
      (membersOf prev).filterMap (removedField cur) := rfl

theorem changedField_eq_some (h : changedField prev p = some f) :
    f.key = p.1 ∧ f.newValue = p.2 ∧ f.oldValue = fieldAt prev p.1 ∧
      ∀ v, (membersOf prev).lookup p.1 = some v → deepEqual v p.2 = false := by
  unfold changedField at h
  unfold fieldAt
  split at h
  · next v hv =>
    split_ifs at h with heq
    cases h
    simp [hv, heq]
  · next hv =>
    cases h
    simp [hv]

theorem removedField_eq_some (h : removedField cur p = some f) :
    f.key = p.1 ∧ f.oldValue = p.2 ∧ f.newValue = .null ∧
      (membersOf cur).lookup p.1 = none := by
  unfold removedField at h
  split at h
  · cases h
  · next hv =>
    cases h
    exact ⟨rfl, rfl, rfl, hv⟩

theorem differ_of_mem_compareJSON (hp : prev.distinct = true) (hc : cur.distinct = true)
    (hf : f ∈ compareJSON prev cur) : valueAt prev f.key ≠ valueAt cur f.key ∧
      f.oldValue = fieldAt prev f.key ∧ f.newValue = fieldAt cur f.key := by
  obtain ⟨hprev, hinside⟩ := distinct_members_of hp
  obtain ⟨hcur, hinside'⟩ := distinct_members_of hc
  rw [valueAt_eq, valueAt_eq]
  rw [compareJSON_eq, mem_append, mem_filterMap, mem_filterMap] at hf
  rcases hf with ⟨p, hmem, hf⟩ | ⟨p, hmem, hf⟩
  · obtain ⟨hkey, hnew, hold, hdiffer⟩ := changedField_eq_some hf
    have hlookup : (membersOf cur).lookup p.1 = some p.2 := lookup_of_mem hcur hmem
    rw [hkey, hnew, hold]
    refine ⟨fun hsame => ?_, rfl, by rw [fieldAt, hlookup, Option.getD_some]⟩
    rw [hlookup, Option.map_some, Option.map_eq_some_iff] at hsame
    obtain ⟨v, hv, hsame⟩ := hsame
    rw [← deepEqual_iff (hinside _ (mem_of_lookup hv)) (hinside' _ hmem), hdiffer v hv] at hsame
    cases hsame
  · obtain ⟨hkey, hold, hnew, hnone⟩ := removedField_eq_some hf
    have hlookup : (membersOf prev).lookup p.1 = some p.2 := lookup_of_mem hprev hmem
    rw [hkey, hnew, hold]
    refine ⟨by simp [hlookup, hnone], ?_, ?_⟩
    · rw [fieldAt, hlookup, Option.getD_some]
    · rw [fieldAt, hnone, Option.getD_none]

theorem mem_compareJSON_of_differ (hp : prev.distinct = true) (hc : cur.distinct = true)
    {key : String} (hne : valueAt prev key ≠ valueAt cur key) :
    ∃ f ∈ compareJSON prev cur, f.key = key := by
  rw [valueAt_eq, valueAt_eq] at hne
  simp only [compareJSON_eq, mem_append, mem_filterMap]
  cases hnew : (membersOf cur).lookup key with
  | some v =>
    cases hold : (membersOf prev).lookup key with
    | none => exact ⟨_, .inl ⟨(key, v), mem_of_lookup hnew, by rw [changedField, hold]⟩, rfl⟩
    | some w =>
      have heq := deepEqual_iff ((distinct_members_of hp).2 _ (mem_of_lookup hold))
        ((distinct_members_of hc).2 _ (mem_of_lookup hnew))
      simp only [hold, hnew, Option.map_some, ne_eq, Option.some.injEq, ← heq] at hne
      refine ⟨⟨key, w, v⟩, .inl ⟨(key, v), mem_of_lookup hnew, ?_⟩, rfl⟩
      rw [changedField, hold]
      exact if_neg hne
  | none =>
    cases hold : (membersOf prev).lookup key with
    | none => simp [hold, hnew] at hne
    | some w => exact ⟨_, .inr ⟨(key, w), mem_of_lookup hold, by rw [removedField, hnew]⟩, rfl⟩

theorem keys_sublist {members : List (String × Any)} {change : String × Any → Option Field}
    (h : ∀ p f, change p = some f → f.key = p.1) :
    ((members.filterMap change).map Field.key).Sublist (members.map Prod.fst) := by
  induction members with
  | nil => exact List.Sublist.slnil
  | cons p members ih =>
    cases hp : change p with
    | none =>
      rw [filterMap_cons_none hp]
      exact ih.cons p.1
    | some f =>
      rw [filterMap_cons_some hp, map_cons, map_cons, h p f hp]
      exact ih.cons_cons p.1

theorem nodup_compareJSON (hp : prev.distinct = true) (hc : cur.distinct = true) :
    ((compareJSON prev cur).map Field.key).Nodup := by
  have hchanged : (((membersOf cur).filterMap (changedField prev)).map Field.key).Sublist _ :=
    keys_sublist fun _ _ h => (changedField_eq_some h).1
  have hremoved : (((membersOf prev).filterMap (removedField cur)).map Field.key).Sublist _ :=
    keys_sublist fun _ _ h => (removedField_eq_some h).1
  rw [compareJSON_eq, map_append, nodup_append]
  refine ⟨hchanged.nodup (distinct_members_of hc).1, hremoved.nodup (distinct_members_of hp).1, ?_⟩
  -- the second pass only lists keys that the first one does not range over
  rintro key hmem key' hmem' rfl
  obtain ⟨f, hf, rfl⟩ := mem_map.mp hmem'
  obtain ⟨p, -, hp⟩ := mem_filterMap.mp hf
  obtain ⟨hkey, -, -, hnone⟩ := removedField_eq_some hp
  rw [← hkey] at hnone
  exact mem_names_iff.mp (hchanged.subset hmem) hnone

theorem compareJSON_tellsChanges (hp : prev.distinct = true) (hc : cur.distinct = true) :
    TellsChanges prev cur (compareJSON prev cur) where
  once := nodup_compareJSON hp hc
  differ key := by
    rw [mem_map]
    constructor
    · rintro ⟨f, hf, rfl⟩
      exact (differ_of_mem_compareJSON hp hc hf).1
    · exact mem_compareJSON_of_differ hp hc
  values f hf := (differ_of_mem_compareJSON hp hc hf).2

/-- The order in which the maps were ranged over does not matter. -/
theorem TellsChanges.perm {fields fields' : List Field} (h : TellsChanges prev cur fields)
    (hperm : fields.Perm fields') : TellsChanges prev cur fields' where
  once := (hperm.map Field.key).nodup_iff.mp h.once
  differ key := (hperm.map Field.key).mem_iff.symm.trans (h.differ key)
  values f hf := h.values f (hperm.mem_iff.mpr hf)

end Compare

section Replay

/-- A changed key is set, or removed if the version to reach does not have it. -/
def applyField (target doc : String → Option Value) (f : Field) : String → Option Value :=
  Function.update doc f.key ((target f.key).map fun _ => f.newValue.value id)

/-- The changes of records applied one after the other. -/
def replay (target : String → Option Value) (recs : List DiffRecord)
    (doc : String → Option Value) : String → Option Value :=
  recs.foldl (fun doc rec => rec.changedFields.foldl (applyField target) doc) doc

variable {target doc : String → Option Value} {fields : List Field} {key : String}

theorem foldl_applyField_of_notMem (h : key ∉ fields.map Field.key) :
    fields.foldl (applyField target) doc key = doc key := by
  induction fields generalizing doc with
  | nil => rfl
  | cons f fields ih =>
    rw [map_cons, mem_cons, not_or] at h
    rw [foldl_cons, ih h.2, applyField, Function.update_of_ne h.1]

theorem foldl_applyField_of_mem {f : Field} (hkeys : (fields.map Field.key).Nodup)
    (hf : f ∈ fields) : fields.foldl (applyField target) doc f.key =
      (target f.key).map fun _ => f.newValue.value id := by
  induction fields generalizing doc with
  | nil => cases hf
  | cons g fields ih =>
    rw [map_cons, nodup_cons] at hkeys
    rw [foldl_cons]
    rcases mem_cons.mp hf with rfl | hf
    · rw [foldl_applyField_of_notMem hkeys.1, applyField, Function.update_self]
    · exact ih hkeys.2 hf

/-- What has been replayed of a version: the keys of the version to reach have the values of this
version, and a key that the version to reach does not have was removed or has its value still. -/
def Follows (target : String → Option Value) (version : Any) (doc : String → Option Value) : Prop :=
  ∀ key, if target key = none then doc key = none ∨ doc key = valueAt version key
    else valueAt version key = none ∨ doc key = valueAt version key

theorem Follows.self (version : Any) : Follows target version (valueAt version) := by
  intro key
  split_ifs
  · exact .inr rfl
  · exact .inr rfl

theorem Follows.eq {version : Any} (h : Follows (valueAt version) version doc) :
    doc = valueAt version := by
  funext key
  have hkey := h key
  split_ifs at hkey with hnone
  · rcases hkey with hdoc | hdoc
    · rw [hdoc, hnone]
    · exact hdoc
  · rcases hkey with hdoc | hdoc
    · exact absurd hdoc hnone
    · exact hdoc

theorem Follows.step {prev cur : Any} (h : Follows target prev doc)
    (hfields : TellsChanges prev cur fields) :
    Follows target cur (fields.foldl (applyField target) doc) := by
  intro key
  by_cases hmem : key ∈ fields.map Field.key
  · obtain ⟨f, hf, rfl⟩ := mem_map.mp hmem
    rw [foldl_applyField_of_mem hfields.once hf, (hfields.values f hf).2]
    split_ifs with hnone
    · exact .inl (by rw [hnone, Option.map_none])
    · obtain ⟨v, hv⟩ := Option.ne_none_iff_exists'.mp hnone
      rw [hv, Option.map_some, valueAt_eq, fieldAt]
      cases (membersOf cur).lookup f.key with
      | none => exact .inl rfl
      | some w => exact .inr rfl
  · have hsame := not_not.mp ((hfields.differ key).not.mp hmem)
    rw [foldl_applyField_of_notMem hmem, ← hsame]
    exact h key

end Replay

section Records

variable {m : Model} {prev cur first : AuditLog Payload} {rows : List (AuditLog Payload)}
  {rec : DiffRecord} {recs : List DiffRecord}

/-- The record of a row tells what changed from the row before. -/
def Records (prev cur : AuditLog Payload) (rec : DiffRecord) : Prop :=
  rec = .ofRow cur rec.changedFields ∧
    TellsChanges (decoded prev) (decoded cur) rec.changedFields

/-- The records of the rows after the first one. -/
inductive RecordsAll : AuditLog Payload → List (AuditLog Payload) → List DiffRecord → Prop
  | nil {prev : AuditLog Payload} : RecordsAll prev [] []
  | cons {prev cur : AuditLog Payload} {rows : List (AuditLog Payload)} {rec : DiffRecord}
      {recs : List DiffRecord} : Records prev cur rec → RecordsAll cur rows recs →
      RecordsAll prev (cur :: rows) (rec :: recs)

theorem changes_tellsChanges {d : List Field} (h : changes m prev cur = .ok d) :
    TellsChanges (decoded prev) (decoded cur) d := by
  have hdistinct {a : Payload} (h : Decodes a) : (a.mapNum toFloat64).distinct = true := by
    rw [Json.distinct_mapNum]
    exact h.distinct
  unfold changes unmarshalJSON at h
  cases hp : unmarshal prev.payload with
  | error err => simp [hp] at h
  | ok v1 =>
    cases hc : unmarshal cur.payload with
    | error err => simp [hp, hc] at h
    | ok v2 =>
      simp only [hp, hc, Except.ok.injEq] at h
      obtain ⟨hprev, rfl⟩ := unmarshal_eq_ok.mp hp
      obtain ⟨hcur, rfl⟩ := unmarshal_eq_ok.mp hc
      rw [← h]
      exact compareJSON_tellsChanges (hdistinct hprev) (hdistinct hcur)

theorem diffRecords_recordsAll (h : diffRecords m prev rows = .ok recs) :
    RecordsAll prev rows recs := by
  induction rows generalizing prev recs with
  | nil =>
    cases h
    exact .nil
  | cons cur rows ih =>
    unfold diffRecords at h
    cases hd : changes m prev cur with
    | error err => simp [hd] at h
    | ok d =>
      cases hrecs : diffRecords m cur rows with
      | error err => simp [hd, hrecs] at h
      | ok recs' =>
        simp only [hd, hrecs, Except.ok.injEq] at h
        rw [← h]
        exact .cons ⟨rfl, changes_tellsChanges hd⟩ (ih hrecs)

/-- A record with its fields in another order. -/
def SameRecord (rec rec' : DiffRecord) : Prop :=
  ∃ fields, rec.changedFields.Perm fields ∧ rec' = { rec with changedFields := fields }

theorem Records.of_same {rec' : DiffRecord} (h : Records prev cur rec)
    (hsame : SameRecord rec rec') : Records prev cur rec' := by
  obtain ⟨fields, hperm, rfl⟩ := hsame
  refine ⟨?_, h.2.perm hperm⟩
  rw [h.1]
  rfl

section

variable (h : RecordsAll prev rows recs)
include h

theorem RecordsAll.of_same {recs' : List DiffRecord}
    (hsame : List.Forall₂ SameRecord recs recs') : RecordsAll prev rows recs' := by
  induction h generalizing recs' with
  | nil =>
    cases hsame
    exact .nil
  | cons hrec _ ih =>
    cases hsame with
    | cons hfirst hrest => exact .cons (hrec.of_same hfirst) (ih hrest)

theorem RecordsAll.length_eq : recs.length = rows.length := by
  induction h with
  | nil => rfl
  | cons _ _ ih => rw [length_cons, length_cons, ih]

theorem RecordsAll.at {i : Nat} (hcur : rows[i]? = some cur)
    {before : AuditLog Payload} (hbefore : (prev :: rows)[i]? = some before) :
    ∃ rec, recs[i]? = some rec ∧ Records before cur rec := by
  induction h generalizing i with
  | nil => cases hcur
  | cons hrec _ ih =>
    cases i with
    | zero =>
      cases hcur
      cases hbefore
      exact ⟨_, rfl, hrec⟩
    | succ i => exact ih hcur hbefore

theorem RecordsAll.follows {target doc : String → Option Value}
    (hdoc : Follows target (decoded prev) doc) {i : Nat} (hcur : (prev :: rows)[i]? = some cur) :
    Follows target (decoded cur) (replay target (recs.take i) doc) := by
  induction h generalizing i doc with
  | nil =>
    cases i with
    | zero =>
      cases hcur
      exact hdoc
    | succ i => cases hcur
  | cons hrec _ ih =>
    cases i with
    | zero =>
      cases hcur
      exact hdoc
    | succ i => exact ih (hdoc.step hrec.2) hcur

end

/-- The exact history of the fields. -/
structure FieldHistory (rows : List (AuditLog Payload)) (recs : List DiffRecord) : Prop where
  length : recs.length = rows.length
  order : ∀ (i : Nat) r rec, rows[i]? = some r → recs[i]? = some rec →
    rec = .ofRow r rec.changedFields
  fields : ∀ (i : Nat) prev cur rec, rows[i]? = some prev → rows[i + 1]? = some cur →
    recs[i + 1]? = some rec → TellsChanges (decoded prev) (decoded cur) rec.changedFields
  replay : ∀ (i : Nat) first cur, rows[0]? = some first → rows[i]? = some cur →
    replay (valueAt (decoded cur)) ((recs.drop 1).take i) (valueAt (decoded first)) =
      valueAt (decoded cur)

theorem RecordsAll.fieldHistory (h : RecordsAll first rows recs)
    (hrec : rec = .ofRow first rec.changedFields) : FieldHistory (first :: rows) (rec :: recs) where
  length := by rw [length_cons, length_cons, h.length_eq]
  order i r rec' hr hrec' := by
    cases i with
    | zero =>
      cases hr
      cases hrec'
      exact hrec
    | succ i =>
      obtain ⟨before, hbefore⟩ : ∃ before, (first :: rows)[i]? = some before :=
        ⟨_, List.getElem?_eq_getElem (Nat.lt_of_succ_lt (List.getElem?_eq_some_iff.mp hr).1)⟩
      obtain ⟨rec'', hat, hrecords⟩ := h.at hr hbefore
      obtain rfl := Option.some.inj (hat.symm.trans hrec')
      exact hrecords.1
  fields i prev cur rec' hprev hcur hrec' := by
    obtain ⟨rec'', hat, hrecords⟩ := h.at hcur hprev
    obtain rfl := Option.some.inj (hat.symm.trans hrec')
    exact hrecords.2
  replay i first' cur hfirst hcur := by
    cases hfirst
    exact (h.follows (Follows.self _) hcur).eq

/-- The query returns an exact history, whatever order Go ranges over the maps in. -/
def ReturnsHistory (m : Model) (rows : List (AuditLog Payload)) : Prop :=
  ∃ recs, queryDiffAllVersionByModelID m (.ok rows) = .ok recs ∧
    ∀ recs', List.Forall₂ SameRecord recs recs' → FieldHistory rows recs'

theorem returnsHistory_of_decodes (hlen : 2 ≤ rows.length)
    (hrows : ∀ r ∈ rows, Decodes r.payload) : ReturnsHistory m rows := by
  obtain ⟨recs, hrecs⟩ := exists_queryDiffAll (m := m) hrows
  refine ⟨recs, hrecs, fun recs' hsame => ?_⟩
  match rows, hlen with
  | first :: second :: rest, _ =>
    unfold queryDiffAllVersionByModelID at hrecs
    cases hd : changes m first second with
    | error err => simp [hd] at hrecs
    | ok d =>
      cases hrest : diffRecords m second rest with
      | error err => simp [hd, hrest] at hrecs
      | ok later =>
        simp only [hd, hrest, Except.ok.injEq] at hrecs
        subst hrecs
        cases hsame with
        | cons hfirst hlater =>
          have hall : RecordsAll first (second :: rest) (.ofRow second d :: later) :=
            .cons ⟨rfl, changes_tellsChanges hd⟩ (diffRecords_recordsAll hrest)
          refine (hall.of_same hlater).fieldHistory ?_
          obtain ⟨fields, -, rfl⟩ := hfirst
          rfl

end Records

section Stored

variable {ι : Type} [DecidableEq ι] {jobs : ι → Job Payload} {tr r : List (Point ι Payload)}
  {e q : Point ι Payload} {c : Config ι (Call Payload) Ans (Table Payload) (Result Payload)}
  {m : Model} {row : AuditLog Payload} {cmp : Comparer} {t t' : Table Payload} {o : Call Payload}

theorem Replies.row_kept {a : Ans o} (h : Replies t o a t') (hr : row ∈ t.rows) :
    row ∈ t'.rows ∨ ¬ t'.Has row.toModel row.version := by
  cases h with
  | save id al =>
    unfold Table.save
    split_ifs
    · exact .inl hr
    · exact .inl hr
    · exact .inl (mem_cons_of_mem _ hr)
  | @deleteVersions m vers _ =>
    by_cases hd : row.toModel = m ∧ row.version ∈ vers
    · exact .inr fun hhas => (Table.has_deleteVersions.mp hhas).2 hd
    · exact .inl (mem_filter.mpr ⟨hr, by simpa using Table.not_deletes.mpr hd⟩)
  | _ => exact .inl hr

theorem Runs.row_kept {a : Ans o} (h : Runs t o a t')
    (hr : row ∈ t.rows) : row ∈ t'.rows ∨ ¬ t'.Has row.toModel row.version := by
  rcases h.effect with rfl | ⟨a', h⟩
  · exact .inl hr
  · exact h.row_kept hr

theorem first_row_kept (h : Run (calls jobs) tr c) (hq : q :: r <:+ tr) (hr : row ∈ q.pre.rows)
    (hv : row.version = 1) : row ∈ c.store.rows := by
  refine Run.invariant (fun tr s => ∀ q r, q :: r <:+ tr → ∀ row ∈ q.pre.rows,
    row.version = 1 → row ∈ s.rows) ?_ ?_ h q r hq row hr hv
  · intro s _ q r hq
    cases suffix_nil.mp hq
  · intro tr c e c' hrun₀ hrun hst ih q r hq row hr hv
    have hpre : row ∈ e.pre.rows := by
      rcases suffix_cons_iff.mp hq with heq | hq
      · cases heq
        exact hr
      · rw [hst.pre_eq]
        exact ih q r hq row hr hv
    obtain ⟨i, t, o, a, -, hruns⟩ := entry_runs hrun (suffix_refl _)
    have hstored : Stored (e :: tr) row.toModel 1 :=
      (stored_of_pre hrun (suffix_refl _) ⟨row, hpre, rfl, hv⟩).mono (suffix_cons e tr)
    refine (hruns.row_kept hpre).resolve_right fun hnot => hnot ?_
    rw [hv, ← hst.post_eq]
    exact first_kept hrun hstored

theorem Table.row_unique {t : Table Payload} {row' : AuditLog Payload} (hr : row ∈ t.rows)
    (hr' : row' ∈ t.rows) (hm : row.toModel = row'.toModel) (hv : row.version = row'.version) :
    row = row' := by
  obtain ⟨i, hi, rfl⟩ := mem_iff_getElem.mp hr
  obtain ⟨j, hj, rfl⟩ := mem_iff_getElem.mp hr'
  have hunique := pairwise_iff_getElem.mp t.unique
  rcases Nat.lt_trichotomy i j with hij | rfl | hij
  · exact absurd ⟨hm, hv⟩ (hunique i j hi hj hij)
  · rfl
  · exact absurd ⟨hm.symm, hv.symm⟩ (hunique j i hj hi hij)

theorem first_decodes (h : Run (calls jobs) tr c) (hc : Compares cmp jobs)
    (hsecond : Stored tr m 2) (hr : row ∈ c.store.rows) (hm : row.toModel = m)
    (hv : row.version = 1) : Decodes row.payload := by
  obtain ⟨e, he, hs⟩ := hsecond
  obtain ⟨l, r, rfl⟩ := append_of_mem he
  have hsuf : e :: r <:+ l ++ e :: r := suffix_append _ _
  obtain ⟨i, t, al, err, ha, rfl, hal⟩ := save_of_stores h hsuf hs
  obtain ⟨q, rq, last, hq, hlast, hnext, -, hdecodes⟩ := saved_decodes h hc hsuf ha (by omega)
  obtain ⟨hlastr, hlastm⟩ := Table.mem_history.mp
    (mem_of_getLast? (Table.queryLast_eq_ok hlast))
  have hkept := first_row_kept h (hq.trans ((suffix_cons e r).trans hsuf)) hlastr (by omega)
  obtain rfl : last = row :=
    Table.row_unique hkept hr (hlastm.trans hm.symm) (by omega)
  exact hdecodes

theorem later_rows_decode (h : Run (calls jobs) tr c) (hc : Compares cmp jobs) :
    ∀ r ∈ c.store.rows, r.version ≠ 1 → Decodes r.payload := by
  refine Run.invariant (fun _ s => ∀ r ∈ s.rows, r.version ≠ 1 → Decodes r.payload) ?_ ?_ h
  · rintro s rfl r hr
    cases hr
  · intro tr c e c' _ hrun hst ih r hr hv
    obtain ⟨i, t, o, a, ha, hruns⟩ := entry_runs hrun (suffix_refl _)
    rcases hruns.mem_rows hr with hr | ⟨al, id, rfl, rfl, -⟩
    · exact ih r (hst.pre_eq ▸ hr) hv
    · obtain ⟨-, -, -, -, -, -, hdecodes, -⟩ := saved_decodes hrun hc (suffix_refl _) ha hv
      exact hdecodes

omit [DecidableEq ι] in
theorem exists_later (hlen : 2 ≤ (c.store.history m).length) :
    ∃ r ∈ c.store.rows, r.toModel = m ∧ r.version ≠ 1 := by
  have hdistinct := c.store.history_distinct (m := m)
  have hmem : ∀ r ∈ c.store.history m, r ∈ c.store.rows ∧ r.toModel = m :=
    fun r hr => Table.mem_history.mp hr
  match c.store.history m, hlen, hdistinct, hmem with
  | first :: second :: rest, _, hdistinct, hmem =>
    have hne : first.version ≠ second.version :=
      (pairwise_cons.mp hdistinct).1 second mem_cons_self
    by_cases hv : first.version = 1
    · obtain ⟨hr, hm⟩ := hmem second (by simp)
      exact ⟨second, hr, hm, by omega⟩
    · obtain ⟨hr, hm⟩ := hmem first (by simp)
      exact ⟨first, hr, hm, hv⟩

theorem history_decodes (h : Run (calls jobs) tr c) (hc : Compares cmp jobs)
    (hlen : 2 ≤ (c.store.history m).length) : ∀ r ∈ c.store.history m, Decodes r.payload := by
  intro r hr
  obtain ⟨hr, hm⟩ := Table.mem_history.mp hr
  by_cases hv : r.version = 1
  · obtain ⟨later, hlater, hlm, hlv⟩ := exists_later hlen
    obtain ⟨hpos, hall⟩ := stored_range h (stored_of_has h ⟨later, hlater, hlm, rfl⟩)
    exact first_decodes h hc (hall 2 (by omega) (by omega)) hr hm hv
  · exact later_rows_decode h hc r hr hv

end Stored

/-- The history of the fields is exact for all rows that decode, and all rows of a model that
`Create` stored do once there are two of them. -/
theorem fieldHistory_exact :
    (∀ (m : Model) (rows : List (AuditLog Payload)), 2 ≤ rows.length →
      (∀ r ∈ rows, Decodes r.payload) → ReturnsHistory m rows) ∧
      ∀ {ι : Type} [DecidableEq ι] (cmp : Comparer) (jobs : ι → Job Payload)
        (tr : List (Point ι Payload))
        (c : Config ι (Call Payload) Ans (Table Payload) (Result Payload)),
        Run (calls jobs) tr c → Compares cmp jobs → ∀ m, 2 ≤ (c.store.history m).length →
          ReturnsHistory m (c.store.history m) := by
  refine ⟨fun m rows => returnsHistory_of_decodes, fun cmp jobs tr c h hc m hlen => ?_⟩
  exact returnsHistory_of_decodes hlen (history_decodes h hc hlen)

def moved : Payload := named [("city", .str "Bonn")]

/-- Two calls of `Create` store a user and then the user with a city. -/
theorem fieldHistory_exact_moved :
    ReturnsHistory user [firstRow (named []), firstRow (named [])] ∧
      ∃ tr c, Run (calls (pairJobs (named []) moved)) tr c ∧ (c.store.history user).length = 2 ∧
        ReturnsHistory user (c.store.history user) := by
  have h₁ := (Run.init (S := calls (pairJobs (named []) moved)) rfl).step
    (e := ⟨.proc 0 ⟨0, .queryLast user, _⟩, _, _⟩) (by simp) (.proc rfl (.inl (.queryLast user)))
  have h₂ := h₁.step (e := ⟨.proc 0 ⟨0, .now, 0⟩, _, _⟩) (by simp [Act.time])
    (.proc rfl (.inl (.now 0)))
  have h₃ := h₂.step (e := ⟨.proc 0 ⟨0, .save _, _⟩, _, _⟩) (by simp [Act.time])
    (.proc rfl (.inl (.save 1 _)))
  have h₄ := h₃.step (e := ⟨.proc 1 ⟨0, .queryLast user, _⟩, _, _⟩) (by simp [Act.time])
    (.proc rfl (.inl (.queryLast user)))
  have h₅ := h₄.step (e := ⟨.proc 1 ⟨0, .now, 0⟩, _, _⟩) (by simp [Act.time])
    (.proc rfl (.inl (.now 0)))
  have h₆ := h₅.step (e := ⟨.proc 1 ⟨0, .save _, _⟩, _, _⟩) (by simp [Act.time])
    (.proc rfl (.inl (.save 2 _)))
  have hc : Compares deepComparer (pairJobs (named []) moved) := by
    rintro i core new ⟨⟩
    rfl
  obtain ⟨hrows, hruns⟩ := fieldHistory_exact
  have hdecodes : ∀ r ∈ [firstRow (named []), firstRow (named [])], Decodes r.payload := by
    rw [forall_mem_cons, forall_mem_singleton]
    exact ⟨named_decodes, named_decodes⟩
  refine ⟨hrows user _ le_rfl hdecodes, _, _, h₆, rfl, ?_⟩
  exact hruns deepComparer _ _ _ h₆ hc user le_rfl

end Skit.Auditlog
