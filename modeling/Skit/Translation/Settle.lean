import Skit.Translation.Reach

/-!
# Applying translations where it succeeds

An application of translations to a model sets the fields that it has found, one after the other.
Seen as a partial function of the heap, it changes nothing the second time, and it can be
exchanged with a text that is set outside the structs of the model. An application to a copy is
one to the model itself, or it fails.
-/
namespace Skit.Translation
open Lib Reflect List Option Translatable

variable {N B : Type} [DecidableEq N] {E : Types N} [DecidableEq B]

section Setting

variable (reach : Heap E B → List String → Option (Ref B))

/-- `setFieldValue` at a path, where it succeeds. -/
def setPath (h : Heap E B) (a : List String × String) : Option (Heap E B) :=
  (reach h a.1).bind fun r =>
    match h.read r.loc with
    | some (.string _ _) => if r.canSet then some (h.setString r.loc a.2) else none
    | _ => none

/-- `applyTranslations` with the paths that are found at its start, where it succeeds. -/
def setPaths (as : List (List String × String)) (h : Heap E B) : Option (Heap E B) :=
  (as.filter fun a => (reach h a.1).isSome).foldlM (setPath reach) h

variable {reach} {h g : Heap E B} {a : List String × String}

theorem setPath_eq_some_iff : setPath reach h a = some g ↔
    ∃ r k b, reach h a.1 = some r ∧ r.canSet = true ∧ h.read r.loc = some (.string k b) ∧
      g = h.setString r.loc a.2 := by
  constructor
  · intro hset
    obtain ⟨r, hr, hset⟩ := bind_eq_some_iff.mp hset
    split at hset
    · next k b hread =>
      split at hset
      · next hcan =>
        cases hset
        exact ⟨r, k, b, hr, hcan, hread, rfl⟩
      · cases hset
    · cases hset
  · rintro ⟨r, k, b, hr, hcan, hread, rfl⟩
    simp [setPath, hr, hcan, hread]

end Setting

section Model

/-- The fields of the model at `l`. -/
def reachAt (l : Loc B) (h : Heap E B) (path : List String) : Option (Ref B) :=
  valueByPath h (pointer l).ref path

/-- Fields at one place get one text. -/
def Consistent (h : Heap E B) (l : Loc B) (as : List (List String × String)) : Prop :=
  ∀ a ∈ as, ∀ b ∈ as, ∀ r r', reachAt l h a.1 = some r → reachAt l h b.1 = some r' →
    r.canSet = true → r'.canSet = true → r.loc = r'.loc → a.2 = b.2

/-- The place of one of the fields, whether it is within reach or not. -/
def Spot (h : Heap E B) (l : Loc B) (as : List (List String × String)) (q : Loc B) : Prop :=
  ∃ a ∈ as, follow h l a.1 = some q

/-- What holds when the fields `done` have been set: only fields were written, no more is within
reach than before, and the fields that were within reach have their texts. -/
structure Settled (h : Heap E B) (l : Loc B) (as done : List (List String × String))
    (g : Heap E B) : Prop where
  written : ∃ ws, (∀ w ∈ ws, Spot h l as w.1) ∧ g = h.write ws
  narrow : ∀ root : Ref B, root.loc = l → ∀ path r, valueByPath g root path = some r →
    valueByPath h root path = some r
  set : ∀ a ∈ done, ∀ r, reachAt l h a.1 = some r →
    r.canSet = true ∧ ∃ k, g.read r.loc = some (.string k a.2)

variable {h g : Heap E B} {l q : Loc B} {s : String} {as done : List (List String × String)}
  {a : List String × String} {path : List String}

theorem Settled.start : Settled h l as [] h :=
  ⟨⟨[], by simp, rfl⟩, fun _ _ _ _ hr => hr, by simp⟩

variable {m : N} {vs : List (Value N B)} (hl : h.read l = some (.struct m vs))

include hl

omit [DecidableEq B] in
theorem reachAt_parent {r : Ref B} {k : Option N} {b : String}
    (hr : reachAt l h path = some r) (hread : h.read r.loc = some (.string k b)) :
    ∃ c i n ws, r.loc = c.child i ∧ h.read c = some (.struct n ws) ∧
      ((Value.struct n ws).isZero = false ∨ c = l) := by
  have hne : path ≠ [] := by
    rintro rfl
    cases hr
    have hread' : h.read l = some (.string k b) := hread
    rw [hl] at hread'
    cases hread'
  obtain ⟨c, i, n, ws, hloc, hc, hz | ⟨-, cur, hd, hcur⟩⟩ := enterAll_parent hne hr
  · exact ⟨c, i, n, ws, hloc, hc, .inl hz⟩
  · obtain rfl : (pointer l).ref = cur := by
      simpa [Heap.deref, ref, hl] using hd
    exact ⟨c, i, n, ws, hloc, hc, .inr hcur.symm⟩

theorem setPath_narrow (hset : setPath (reachAt l) h a = some g) {root : Ref B}
    (hroot : root.loc = l) {r : Ref B}
    (hr : valueByPath g root path = some r) : valueByPath h root path = some r := by
  subst hroot
  obtain ⟨r₁, k, b, hr₁, -, hread, rfl⟩ := setPath_eq_some_iff.mp hset
  obtain ⟨c, i, n, us, hloc, hc, hz⟩ := reachAt_parent hl hr₁ hread
  rw [hloc] at hr hread
  exact valueByPath_of_setString hl hc hz hread hr

theorem Settled.step (hcon : Consistent h l as) (hsub : ∀ b ∈ done, b ∈ as)
    (hd : Settled h l as done g) (ha : a ∈ as) {g' : Heap E B}
    (hset : setPath (reachAt l) g a = some g') : Settled h l as (done ++ [a]) g' := by
  obtain ⟨ws, hws, hg⟩ := hd.written
  have halike : h.Alike g := hg ▸ h.alike_write ws
  obtain ⟨vs', hl'⟩ := halike.struct hl
  obtain ⟨r, k, b, hr, hcan, hread, rfl⟩ := setPath_eq_some_iff.mp hset
  have hrh : reachAt l h a.1 = some r := hd.narrow _ rfl _ _ hr
  refine ⟨⟨ws ++ [(r.loc, a.2)], ?_, ?_⟩, ?_, ?_⟩
  · intro w hw
    rcases mem_append.mp hw with hw | hw
    · exact hws w hw
    · rw [mem_singleton.mp hw]
      exact ⟨a, ha, follow_of_enterAll hrh⟩
  · rw [Heap.write_append, ← hg]
    rfl
  · intro root hroot path r' hr'
    exact hd.narrow root hroot path r' (setPath_narrow hl' hset hroot hr')
  · intro b' hb' r' hr'
    rcases mem_append.mp hb' with hb' | hb'
    · obtain ⟨hcan', k', hread'⟩ := hd.set b' hb' r' hr'
      refine ⟨hcan', k', ?_⟩
      by_cases hsame : r'.loc = r.loc
      · have hval := hcon b' (hsub b' hb') a ha r' r hr' hrh hcan' hcan hsame
        rw [hsame] at hread' ⊢
        rw [hval]
        exact g.read_setString_self a.2 hread'
      · exact g.read_setString_of_ne a.2 hread' hsame
    · obtain rfl := mem_singleton.mp hb'
      obtain rfl := Option.some.inj (hrh.symm.trans hr')
      exact ⟨hcan, k, g.read_setString_self _ hread⟩

theorem setPaths_settled (hcon : Consistent h l as) (hset : setPaths (reachAt l) as h = some g) :
    Settled h l as (as.filter fun a => (reachAt l h a.1).isSome) g := by
  have hloop : ∀ (todo done : List (List String × String)) (g₁ : Heap E B),
      (∀ a ∈ done ++ todo, a ∈ as) → Settled h l as done g₁ →
      todo.foldlM (setPath (reachAt l)) g₁ = some g → Settled h l as (done ++ todo) g := by
    intro todo
    induction todo with
    | nil =>
      intro done g₁ _ hd hrun
      cases hrun
      rwa [append_nil]
    | cons a todo ih =>
      intro done g₁ hsub hd hrun
      obtain ⟨g₂, hg₂, hrun⟩ := Commute.foldlM_cons_eq_some_iff.mp hrun
      have hstep := hd.step hl hcon (fun b hb => hsub b (by simp [hb])) (hsub a (by simp)) hg₂
      rw [append_cons] at hsub ⊢
      exact ih (done ++ [a]) g₂ hsub hstep hrun
  exact hloop _ [] h (fun a ha => (mem_filter.mp ha).1) .start hset

theorem setPaths_again (hcon : Consistent h l as) (hset : setPaths (reachAt l) as h = some g) :
    setPaths (reachAt l) as g = some g := by
  have hd := setPaths_settled hl hcon hset
  refine Commute.foldlM_fixed fun a ha => ?_
  obtain ⟨hmem, hsome⟩ := mem_filter.mp ha
  obtain ⟨r, hr⟩ := isSome_iff_exists.mp hsome
  have hrh : reachAt l h a.1 = some r := hd.narrow _ rfl _ _ hr
  obtain ⟨hcan, k, hread⟩ := hd.set a (mem_filter.mpr ⟨hmem, by simp [hrh]⟩) r hrh
  exact setPath_eq_some_iff.mpr ⟨r, k, a.2, hr, hcan, hread, (g.setString_self hread).symm⟩

end Model

section Exchange

variable {h g : Heap E B} {l q : Loc B} {s : String} {as : List (List String × String)}
  {a : List String × String}

/-- The place is outside the structs of the fields. -/
def Outside (h : Heap E B) (l : Loc B) (as : List (List String × String)) (q : Loc B) : Prop :=
  ∀ a ∈ as, ∀ c ∈ passed h l a.1, ¬ q.Within c

omit [DecidableEq B] in
theorem Outside.alike (hg : h.Alike g) (hq : Outside h l as q) : Outside g l as q := by
  intro a ha c hc
  rw [passed_alike hg] at hc
  exact hq a ha c hc

theorem reachAt_setString (hq : Outside h l as q) (ha : a ∈ as) :
    reachAt l (h.setString q s) a.1 = reachAt l h a.1 :=
  enterAll_setString_apart (hq a ha)

theorem setPath_setString (hne : a.1 ≠ []) (hq : Outside h l as q) (ha : a ∈ as) :
    setPath (reachAt l) (h.setString q s) a =
      (setPath (reachAt l) h a).map fun g => g.setString q s := by
  unfold setPath
  rw [reachAt_setString hq ha, map_bind]
  refine bind_congr fun r hr => ?_
  obtain ⟨c, hc, i, hloc⟩ := follow_place hne (follow_of_enterAll hr)
  have hqr : r.loc ≠ q := by
    intro heq
    refine hq a ha c hc ?_
    rw [← heq, hloc]
    exact c.child_within i
  have halike := h.alike_setString q s
  cases hread : h.read r.loc with
  | none =>
    have hnone : (h.setString q s).read r.loc = none := by simpa [hread] using halike.read r.loc
    simp [hread, hnone]
  | some v =>
    cases v with
    | string k b =>
      obtain ⟨b', hread'⟩ := halike.string hread
      by_cases hcan : r.canSet = true
      · simp [hread, hread', hcan, h.setString_comm (Ne.symm hqr)]
      · simp [hread, hread', hcan]
    | _ =>
      obtain ⟨w, hw, ho⟩ := halike.exists_read hread
      cases w <;> simp_all [Value.outline]

/-- An application and a text outside the structs of the model can be exchanged. -/
theorem setPaths_setString (hne : ∀ a ∈ as, a.1 ≠ []) (hq : Outside h l as q) :
    setPaths (reachAt l) as (h.setString q s) =
      (setPaths (reachAt l) as h).map fun g => g.setString q s := by
  have hloop : ∀ (todo : List (List String × String)) (g : Heap E B), (∀ a ∈ todo, a ∈ as) →
      h.Alike g → todo.foldlM (setPath (reachAt l)) (g.setString q s) =
        (todo.foldlM (setPath (reachAt l)) g).map fun g => g.setString q s := by
    intro todo
    induction todo with
    | nil =>
      intro g _ _
      rfl
    | cons a todo ih =>
      intro g hsub hg
      have ha := hsub a mem_cons_self
      rw [foldlM_cons, foldlM_cons, setPath_setString (hne a ha) (hq.alike hg) ha]
      cases hset : setPath (reachAt l) g a with
      | none => rfl
      | some g' =>
        obtain ⟨r, k, b, -, -, -, rfl⟩ := setPath_eq_some_iff.mp hset
        exact ih _ (fun b hb => hsub b (mem_cons_of_mem _ hb))
          (hg.trans (g.alike_setString _ _))
  unfold setPaths
  rw [filter_congr fun a ha => by rw [reachAt_setString hq ha]]
  exact hloop _ h (fun a ha => (mem_filter.mp ha).1) (.refl h)

theorem setPaths_write (hne : ∀ a ∈ as, a.1 ≠ []) {ws : List (Loc B × String)}
    (hws : ∀ w ∈ ws, Outside h l as w.1) :
    setPaths (reachAt l) as (h.write ws) =
      (setPaths (reachAt l) as h).map fun g => g.write ws := by
  induction ws generalizing h with
  | nil => exact Option.map_id_fun.symm ▸ rfl
  | cons w ws ih =>
    obtain ⟨hw, hws⟩ := forall_mem_cons.mp hws
    have hws' : ∀ w' ∈ ws, Outside (h.setString w.1 w.2) l as w'.1 := fun w' hw' =>
      (hws w' hw').alike (h.alike_setString w.1 w.2)
    change setPaths (reachAt l) as ((h.setString w.1 w.2).write ws) = _
    rw [ih hws', setPaths_setString hne hw, Option.map_map]
    rfl

end Exchange

section Copy

/-- The fields of a copy of the model at `l`, made in the heap `copied`. -/
def reachFrom (copied : Heap E B) (l : Loc B) (h : Heap E B) (path : List String) :
    Option (Ref B) :=
  valueByPathFrom copied h (copy l).ref path

/-- None of the fields lies in the copy itself. -/
def BeyondCopy (copied : Heap E B) (l : Loc B) (as : List (List String × String)) : Prop :=
  ∀ a ∈ as, ∀ r, valueByPath copied (copy l).ref a.1 = some r → r.addressable = true

variable {copied h g : Heap E B} {l : Loc B} {as : List (List String × String)}
  {a : List String × String} {m : N} {vs : List (Value N B)} (hg : copied.Alike h)

omit [DecidableEq B] in
include hg in
theorem reachFrom_eq (hb : BeyondCopy copied l as) (ha : a ∈ as)
    (hn : ∀ r, reachAt l h a.1 = some r → reachAt l copied a.1 = some r) :
    reachFrom copied l h a.1 = reachAt l h a.1 := by
  have hadd : ∀ r, reachFrom copied l h a.1 = some r → r.addressable = true := by
    intro r hr
    cases hr' : r.addressable with
    | true => rfl
    | false =>
      have hthen := (enterAllFrom_eq_some_iff rfl hr').mp hr
      rw [hb a ha r hthen] at hr'
      exact hr'.symm
  refine Option.ext fun r => ⟨fun hr => ?_, fun hr => ?_⟩
  · exact enterAll_of_enterAllFrom hg rfl hr (hadd r hr)
  · obtain ⟨r'', hr'', hsame⟩ :=
      exists_enterAllFrom (r := (copy l).ref) hg rfl hr (hn r hr)
    obtain rfl := hsame (hadd r'' hr'')
    exact hr''

/-- An application to a copy is the one to the model, if nothing has to be set in the copy. -/
theorem setPaths_reachFrom (hl : h.read l = some (.struct m vs)) (hg : copied.Alike h)
    (hn : ∀ a ∈ as, ∀ r, reachAt l h a.1 = some r → reachAt l copied a.1 = some r)
    (hb : BeyondCopy copied l as) :
    setPaths (reachFrom copied l) as h = setPaths (reachAt l) as h := by
  have hloop : ∀ (todo : List (List String × String)) (g : Heap E B), (∀ a ∈ todo, a ∈ as) →
      copied.Alike g →
      (∀ a ∈ as, ∀ r, reachAt l g a.1 = some r → reachAt l copied a.1 = some r) →
      (∃ ws, g.read l = some (.struct m ws)) →
      todo.foldlM (setPath (reachFrom copied l)) g = todo.foldlM (setPath (reachAt l)) g := by
    intro todo
    induction todo with
    | nil =>
      intro g _ _ _ _
      rfl
    | cons a todo ih =>
      rintro g hsub hg hn ⟨ws, hl⟩
      have ha := hsub a mem_cons_self
      have hstep : setPath (reachFrom copied l) g a = setPath (reachAt l) g a := by
        rw [setPath, setPath, reachFrom_eq hg hb ha (hn a ha)]
      rw [foldlM_cons, foldlM_cons, hstep]
      refine bind_congr fun g' hg' => ?_
      obtain ⟨r, k, b, -, -, -, rfl⟩ := setPath_eq_some_iff.mp hg'
      refine ih _ (fun b hb => hsub b (mem_cons_of_mem _ hb))
        (hg.trans (g.alike_setString _ _)) ?_ ((g.alike_setString _ _).struct hl)
      exact fun b hb r' hr' => hn b hb r' (setPath_narrow hl hg' rfl hr')
  unfold setPaths
  rw [filter_congr fun a ha => by rw [reachFrom_eq hg hb ha (hn a ha)]]
  exact hloop _ h (fun a ha => (mem_filter.mp ha).1) hg hn ⟨vs, hl⟩

/-- A field in the copy cannot be set. -/
theorem setPaths_reachFrom_none (hb : ¬ BeyondCopy copied l as) :
    setPaths (reachFrom copied l) as h = none := by
  simp only [BeyondCopy, not_forall] at hb
  obtain ⟨a, ha, r, hr, hadd⟩ := hb
  have hfrom : ∀ g, reachFrom copied l g a.1 = some r := fun g =>
    (enterAllFrom_eq_some_iff (h := g) rfl (by simpa using hadd)).mpr hr
  refine Commute.foldlM_eq_none (mem_filter.mpr ⟨ha, by simp [hfrom]⟩) fun g => ?_
  rw [eq_none_iff_forall_ne_some]
  intro g' hset
  obtain ⟨r', k, b, hr', hcan, -, -⟩ := setPath_eq_some_iff.mp hset
  obtain rfl := Option.some.inj ((hfrom g).symm.trans hr')
  simp [Ref.canSet, hadd] at hcan

end Copy

section Loop

/-- The text that the translations have for a field. -/
def textFor (translations : String → Option String) (fs : FieldSchema) : Option String :=
  if fs.isPrimary then none
  else (translations fs.columnName).filter fun value => ¬ (fs.optional = true ∧ value = "")

/-- The paths of the fields for which there is a text. -/
def assignments (translations : String → Option String) (schema : List FieldSchema) :
    List (List String × String) :=
  schema.filterMap fun fs => (textFor translations fs).map fun value => (fs.path, value)

variable {copied h g : Heap E B} {model : Translatable B} {n : N} {schema todo : List FieldSchema}
  {translations : String → Option String} {fs : FieldSchema}

theorem mem_assignments {a : List String × String} : a ∈ assignments translations schema ↔
    ∃ fs ∈ schema, fs.path = a.1 ∧
      Gets translations fs.columnName fs.isPrimary fs.optional a.2 := by
  have htext : ∀ fs : FieldSchema, ∀ v, textFor translations fs = some v ↔
      Gets translations fs.columnName fs.isPrimary fs.optional v := by
    intro fs v
    unfold textFor
    constructor
    · intro hv
      split at hv
      · cases hv
      · next hprim =>
        obtain ⟨hfound, hm⟩ := filter_eq_some_iff.mp hv
        exact ⟨by simpa using hprim, hfound, of_decide_eq_true hm⟩
    · intro hg
      rw [if_neg (by simp [hg.translatable]), filter_eq_some_iff]
      exact ⟨hg.found, decide_eq_true hg.meant⟩
  rw [assignments, mem_filterMap]
  refine exists_congr fun fs => and_congr_right fun _ => ?_
  rw [map_eq_some_iff]
  constructor
  · rintro ⟨v, hv, rfl⟩
    exact ⟨rfl, (htext fs v).mp hv⟩
  · rintro ⟨hpath, hg⟩
    exact ⟨a.2, (htext fs a.2).mpr hg, by rw [hpath]⟩

omit [DecidableEq B] in
theorem modelType_eq_ok_iff :
    modelType h model = .ok n ↔ ∃ vs, h.read model.loc = some (.struct n vs) := by
  unfold modelType
  cases h.read model.loc with
  | none => simp
  | some v => cases v <;> simp

theorem toOption_setFieldValueFrom (hm : modelType (home copied g model.ref) model = .ok n)
    (fieldName value : String) :
    (setFieldValueFrom copied g model fieldName value).toOption =
      setPath (fun h => valueByPathFrom copied h model.ref) g (splitDots fieldName, value) := by
  unfold setFieldValueFrom setPath
  rw [hm]
  simp only [bind, Except.bind, throw, throwThe, MonadExceptOf.throw, pure, Except.pure]
  cases valueByPathFrom copied g model.ref (splitDots fieldName) with
  | none => rfl
  | some r =>
    simp only [bind_some]
    by_cases hcan : r.canSet = true
    · cases g.read r.loc with
      | none => simp [hcan, Except.toOption]
      | some v => cases v <;> simp [hcan, Except.toOption]
    · cases g.read r.loc with
      | none => simp [hcan, Except.toOption]
      | some v => cases v <;> simp [hcan, Except.toOption]

/-- What the loop does with the report of a field. -/
theorem toOption_applyFieldFrom (hm : modelType (home copied g model.ref) model = .ok n)
    (fs : FieldSchema) (value : String) :
    (applyFieldFrom copied model translations g
        ⟨fs.fieldName, fs.columnName, fs.isPrimary, value, fs.optional⟩).toOption =
      (textFor translations fs).elim (some g) fun v =>
        setPath (fun h => valueByPathFrom copied h model.ref) g (splitDots fs.fieldName, v) := by
  unfold applyFieldFrom textFor
  cases fs.isPrimary with
  | true => rfl
  | false =>
    simp only [Bool.false_eq_true, if_false]
    cases translations fs.columnName with
    | none => rfl
    | some v =>
      by_cases ho : fs.optional = true ∧ v = ""
      · simp [Option.filter, ho, Except.toOption]
      · have ho' : ¬ (fs.optional && decide (v = "")) = true := by simpa using ho
        simp only [Option.filter, if_neg ho', decide_eq_true ho, if_true, elim_some]
        rw [← toOption_setFieldValueFrom hm]
        cases setFieldValueFrom copied g model fs.fieldName v <;> rfl

variable [Fintype N]

omit [Fintype N] [DecidableEq B] in
theorem exists_valueByPathFrom_top (hm : modelType (home copied h model.ref) model = .ok n)
    {f : StructField N} (hf : f ∈ E.fields n) :
    ∃ r, valueByPathFrom copied h model.ref [f.name] = some r := by
  obtain ⟨vs, hread⟩ := modelType_eq_ok_iff.mp hm
  obtain ⟨g, i, hg⟩ := Types.exists_fieldByName hf
  rw [← model.ref_loc] at hread
  have hd : (home copied h model.ref).deref model.ref = some model.ref :=
    Heap.deref_eq_some_iff.mpr (.inr ⟨by rw [hread]; simp, rfl⟩)
  have hent : enterFrom copied h false model.ref f.name = some _ :=
    enterFrom_eq_some_iff.mpr ⟨_, n, vs, g, i, hd, hread, by simp, hg, rfl⟩
  exact ⟨_, bind_eq_some_iff.mpr ⟨_, hent, rfl⟩⟩

omit [DecidableEq B] in
theorem fieldInfoFrom_eq_none (hm : modelType (home copied h model.ref) model = .ok n)
    (hs : schemaForType E n = .ok schema) (hfs : fs ∈ schema)
    (hnone : valueByPathFrom copied h model.ref fs.path = none) :
    fieldInfoFrom copied h model.ref fs = none := by
  obtain ⟨gs, leaf, halong, hpath, -⟩ := schemaForType_spec hs hfs
  have hlen : 1 < fs.path.length := by
    cases gs with
    | nil =>
      cases halong with
      | last ht hf =>
        cases ht
        obtain ⟨r, hr⟩ := exists_valueByPathFrom_top hm hf
        rw [hpath, nil_append, map_singleton, hr] at hnone
        cases hnone
      | cons _ _ hnil => exact absurd rfl hnil.ne_nil
    | cons g gs => simp [hpath]
  simp [fieldInfoFrom, hnone, hlen]

omit [Fintype N] [DecidableEq B] in
theorem filter_assignments_of_none (hnone : valueByPathFrom copied h model.ref fs.path = none) :
    (assignments translations (fs :: todo)).filter (fun a =>
        (valueByPathFrom copied h model.ref a.1).isSome) =
      (assignments translations todo).filter fun a =>
        (valueByPathFrom copied h model.ref a.1).isSome := by
  unfold assignments
  rw [filterMap_cons]
  cases textFor translations fs <;> simp [hnone]

/-- The loop over the reported fields sets the paths that have a text and lead somewhere. -/
theorem applyFields_eq (hm : ∀ g, h.Alike g → modelType (home copied g model.ref) model = .ok n)
    (hs : schemaForType E n = .ok schema)
    (htodo : ∀ fs ∈ todo, fs ∈ schema) (hg : h.Alike g) :
    (todo.filterMap (fieldInfoFrom copied h model.ref)).foldlM
        (fun g info => (applyFieldFrom copied model translations g info).toOption) g =
      ((assignments translations todo).filter fun a =>
        (valueByPathFrom copied h model.ref a.1).isSome).foldlM
          (setPath fun h => valueByPathFrom copied h model.ref) g := by
  induction todo generalizing g with
  | nil => rfl
  | cons fs todo ih =>
    obtain ⟨hfs, htodo⟩ := forall_mem_cons.mp htodo
    cases hfv : valueByPathFrom copied h model.ref fs.path with
    | none =>
      rw [filterMap_cons_none (fieldInfoFrom_eq_none (hm h (.refl h)) hs hfs hfv),
        filter_assignments_of_none hfv]
      exact ih htodo hg
    | some fv =>
      have hinfo : fieldInfoFrom copied h model.ref fs = some ⟨fs.fieldName, fs.columnName,
          fs.isPrimary, infoValue (home copied h fv) fv, fs.optional⟩ := by
        simp [fieldInfoFrom, hfv]
      rw [filterMap_cons_some hinfo, foldlM_cons, toOption_applyFieldFrom (hm g hg),
        splitDots_fieldName hs hfs]
      unfold assignments
      rw [filterMap_cons]
      cases textFor translations fs with
      | none => exact ih htodo hg
      | some v =>
        simp only [elim_some, map_some, filter_cons, hfv, isSome_some,
          if_true, foldlM_cons]
        refine bind_congr fun g' hg' => ih htodo ?_
        obtain ⟨r, k, b, -, -, -, rfl⟩ := setPath_eq_some_iff.mp hg'
        exact hg.trans (g.alike_setString _ _)

theorem applyTranslationsFrom_eq
    (hm : ∀ g, h.Alike g → modelType (home copied g model.ref) model = .ok n)
    (hs : schemaForType E n = .ok schema) :
    (applyTranslationsFrom copied h model
        (schema.filterMap (fieldInfoFrom copied h model.ref)) translations).toOption =
      setPaths (fun h => valueByPathFrom copied h model.ref)
        (assignments translations schema) h := by
  rw [applyTranslationsFrom, toOption_foldlM, setPaths]
  exact applyFields_eq hm hs (fun _ hfs => hfs) (.refl h)

end Loop

end Skit.Translation
