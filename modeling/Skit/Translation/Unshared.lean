import Skit.Translation.Settle
import Skit.Translation.Store

/-!
# Models without common structs

The translation of one model, as a partial function of the heap. It depends on the strings in the
structs of the model and changes only these, so the translations of models that share no struct
can be exchanged, and each of them can be repeated.
-/
namespace Skit.Translation
open Lib Reflect List Option

variable {N B : Type} [DecidableEq N] [Fintype N] {E : Types N}

section Models

/-- The paths of the translatable fields of a model. -/
def translatedPaths (h : Heap E B) (l : Loc B) : List (List String) :=
  match h.typeOf l with
  | some (.struct n) =>
    match schemaForType E n with
    | .ok schema => (schema.filter fun fs => !fs.isPrimary).map (·.path)
    | .error _ => []
  | _ => []

/-- The places of a model and of its nested structs. -/
def structsOf (h : Heap E B) (l : Loc B) : List (Loc B) :=
  (translatedPaths h l).flatMap (passed h l)

/-- The places of the translatable fields of a model. -/
def fieldsOf (h : Heap E B) (l : Loc B) : List (Loc B) :=
  (translatedPaths h l).filterMap (follow h l)

variable {h g : Heap E B} {l q : Loc B}

theorem translatedPaths_alike (hg : h.Alike g) : translatedPaths g l = translatedPaths h l := by
  rw [translatedPaths, translatedPaths, hg.typeOf]

theorem ne_nil_of_mem_translatedPaths {path : List String} (hp : path ∈ translatedPaths h l) :
    path ≠ [] := by
  unfold translatedPaths at hp
  split at hp
  · split at hp
    · next schema hs =>
      obtain ⟨fs, hfs, rfl⟩ := mem_map.mp hp
      obtain ⟨gs, leaf, -, hpath, -⟩ := schemaForType_spec hs (mem_filter.mp hfs).1
      simp [hpath]
    · cases hp
  · cases hp

theorem exists_struct_of_mem_fieldsOf (hq : q ∈ fieldsOf h l) :
    ∃ c ∈ structsOf h l, ∃ i, q = c.child i := by
  obtain ⟨path, hp, hf⟩ := mem_filterMap.mp hq
  obtain ⟨c, hc, i, hi⟩ := follow_place (ne_nil_of_mem_translatedPaths hp) hf
  exact ⟨c, mem_flatMap.mpr ⟨path, hp, hc⟩, i, hi⟩

end Models

section Lookup

variable (t : Table) (lang : Language)

/-- The paths with the texts that the table has for a model of the key; `none` where the lookup or
the tags of the model make the translation fail. -/
def assignedTo (key : String × String) (h : Heap E B) (l : Loc B) :
    Option (List (List String × String)) :=
  let rows := t.select key.1 key.2 lang.code
  if rows.any (·.value.isNone) then none
  else if rows = [] then some []
  else
    match h.typeOf l with
    | some (.struct n) => (schemaForType E n).toOption.map (assignments (columnsOf rows))
    | _ => none

variable {t lang} {key : String × String} {h g : Heap E B} {l : Loc B}
  {as : List (List String × String)}

theorem assignedTo_alike (hg : h.Alike g) :
    assignedTo t lang key g l = assignedTo t lang key h l := by
  rw [assignedTo, assignedTo, hg.typeOf]

variable (has : assignedTo t lang key h l = some as)
include has

theorem assignedTo_cases : as = [] ∨ ∃ n schema translations, h.typeOf l = some (.struct n) ∧
      schemaForType E n = .ok schema ∧ as = assignments translations schema := by
  unfold assignedTo at has
  dsimp only at has
  split at has
  · cases has
  · split at has
    · cases has
      exact .inl rfl
    · split at has
      · next n htype =>
        obtain ⟨schema, hs, rfl⟩ := map_eq_some_iff.mp has
        refine .inr ⟨n, schema, _, htype, ?_, rfl⟩
        cases hs' : schemaForType E n with
        | error e =>
          rw [hs'] at hs
          cases hs
        | ok schema' =>
          rw [hs'] at hs
          exact congrArg Except.ok (Option.some.inj hs)
      · cases has

theorem mem_translatedPaths
    {a : List String × String} (ha : a ∈ as) : a.1 ∈ translatedPaths h l := by
  obtain rfl | ⟨n, schema, translations, htype, hs, rfl⟩ := assignedTo_cases has
  · cases ha
  · obtain ⟨fs, hfs, hpath, hgets⟩ := mem_assignments.mp ha
    simp only [translatedPaths, htype, hs]
    exact mem_map.mpr ⟨fs, mem_filter.mpr ⟨hfs, by simp [hgets.translatable]⟩, hpath⟩

theorem consistent_of_assignedTo : Consistent h l as := by
  intro a ha b hb r r' hr hr' hcan hcan' hloc
  obtain rfl | ⟨n, schema, translations, htype, hs, rfl⟩ := assignedTo_cases has
  · cases ha
  · obtain ⟨fs, hfs, hpath, hgets⟩ := mem_assignments.mp ha
    obtain ⟨fs', hfs', hpath', hgets'⟩ := mem_assignments.mp hb
    rw [← hpath] at hr
    rw [← hpath'] at hr'
    have hcol := column_eq_of_place hs htype hfs hfs' hr hr' hcan hcan' hloc
    have hfound := hgets.found
    rw [hcol, hgets'.found] at hfound
    exact (Option.some.inj hfound).symm

theorem exists_struct_or_nil : as = [] ∨ ∃ n vs, h.read l = some (.struct n vs) := by
  obtain rfl | ⟨n, schema, translations, htype, -, -⟩ := assignedTo_cases has
  · exact .inl rfl
  · obtain ⟨vs, hvs⟩ := h.read_struct htype
    exact .inr ⟨n, vs, hvs⟩

end Lookup

section Apart

variable [DecidableEq B] (h₀ : Heap E B) (R : Loc B → Prop)

/-- Two of the models have no struct in common. -/
def Unshared : Prop :=
  ∀ x y, R x → R y → x ≠ y → ∀ c ∈ structsOf h₀ x, ∀ d ∈ structsOf h₀ y, ¬ c.Meets d

/-- Only translatable fields of the models were written. -/
def Rewritten (g : Heap E B) : Prop :=
  ∃ ws, (∀ w ∈ ws, ∃ x, R x ∧ w.1 ∈ fieldsOf h₀ x) ∧ g = h₀.write ws

/-- Of the translatable fields of the models no more are within reach in `g` than in `h`. -/
def Narrower (h g : Heap E B) : Prop :=
  ∀ m : Translatable B, R m.loc → ∀ path ∈ translatedPaths h₀ m.loc, ∀ r,
    valueByPath g m.ref path = some r → valueByPath h m.ref path = some r

variable {h₀ R} {h g k : Heap E B} {t : Table} {lang : Language} {key : String × String}
  {x y q : Loc B} {as : List (List String × String)}

omit [DecidableEq B] in
theorem Narrower.trans (hg : Narrower h₀ R h g) (hk : Narrower h₀ R g k) : Narrower h₀ R h k :=
  fun m hm path hp r hr => hg m hm path hp r (hk m hm path hp r hr)

theorem Rewritten.alike (hg : Rewritten h₀ R g) : h₀.Alike g := by
  obtain ⟨ws, -, rfl⟩ := hg
  exact h₀.alike_write ws

omit [DecidableEq B] in
theorem Unshared.outside (hun : Unshared h₀ R) (hx : R x) (hy : R y) (hne : x ≠ y)
    (hq : q ∈ fieldsOf h₀ x) {c : Loc B} (hc : c ∈ structsOf h₀ y) : ¬ q.Within c := by
  intro hw
  obtain ⟨d, hd, i, rfl⟩ := exists_struct_of_mem_fieldsOf hq
  exact hun x y hx hy hne d hd c hc (Loc.meets_of_child_within hw)

theorem setPaths_written (hh : h₀.Alike h) (has : assignedTo t lang key h x = some as)
    (hset : setPaths (reachAt x) as h = some g) :
    ∃ ws, (∀ w ∈ ws, w.1 ∈ fieldsOf h₀ x) ∧ g = h.write ws := by
  obtain rfl | ⟨n, vs, hread⟩ := exists_struct_or_nil has
  · cases hset
    exact ⟨[], by simp, rfl⟩
  · obtain ⟨ws, hws, hg⟩ := (setPaths_settled hread (consistent_of_assignedTo has) hset).written
    refine ⟨ws, fun w hw => ?_, hg⟩
    obtain ⟨a, ha, hf⟩ := hws w hw
    have hpath := mem_translatedPaths has ha
    rw [translatedPaths_alike hh] at hpath
    exact mem_filterMap.mpr ⟨a.1, hpath, (follow_alike hh x a.1).symm.trans hf⟩

theorem setPaths_narrower (hun : Unshared h₀ R) (hx : R x) (hh : h₀.Alike h)
    (has : assignedTo t lang key h x = some as) (hset : setPaths (reachAt x) as h = some g) :
    Narrower h₀ R h g := by
  intro m hm path hp r hr
  by_cases hmx : m.loc = x
  · obtain rfl | ⟨n, vs, hread⟩ := exists_struct_or_nil has
    · cases hset
      exact hr
    · exact (setPaths_settled hread (consistent_of_assignedTo has) hset).narrow m.ref
        (m.ref_loc.trans hmx) path r hr
  · obtain ⟨ws, hws, rfl⟩ := setPaths_written hh has hset
    refine (enterAll_write_apart fun w hw c hc => ?_).symm.trans hr
    rw [m.ref_loc, passed_alike hh] at hc
    exact hun.outside hx hm (Ne.symm hmx) (hws w hw) (mem_flatMap.mpr ⟨path, hp, hc⟩)

theorem setPaths_again_of_assignedTo (has : assignedTo t lang key h x = some as)
    (hset : setPaths (reachAt x) as h = some g) : setPaths (reachAt x) as g = some g := by
  obtain rfl | ⟨n, vs, hread⟩ := exists_struct_or_nil has
  · rfl
  · exact setPaths_again hread (consistent_of_assignedTo has) hset

/-- Applications to two models can be exchanged. -/
theorem setPaths_swap (hun : Unshared h₀ R) (hx : R x) (hy : R y) (hne : x ≠ y)
    (hh : h₀.Alike h) {key' : String × String} {bs : List (List String × String)}
    (has : assignedTo t lang key h x = some as) (hbs : assignedTo t lang key' h y = some bs)
    (hset : setPaths (reachAt x) as h = some g) (hset' : setPaths (reachAt y) bs g = some k) :
    ∃ g', setPaths (reachAt y) bs h = some g' ∧ setPaths (reachAt x) as g' = some k := by
  have hout : ∀ {x y : Loc B} {key : String × String} {bs : List (List String × String)}, R x →
      R y → x ≠ y → assignedTo t lang key h y = some bs → ∀ q ∈ fieldsOf h₀ x,
      Outside h y bs q := by
    intro x y key bs hx hy hne hbs q hq b hb c hc
    have hpath := mem_translatedPaths hbs hb
    rw [translatedPaths_alike hh] at hpath
    rw [passed_alike hh] at hc
    exact hun.outside hx hy hne hq (mem_flatMap.mpr ⟨b.1, hpath, hc⟩)
  have hpaths : ∀ {x : Loc B} {key : String × String} {as : List (List String × String)},
      assignedTo t lang key h x = some as → ∀ a ∈ as, a.1 ≠ [] :=
    fun has a ha => ne_nil_of_mem_translatedPaths (mem_translatedPaths has ha)
  obtain ⟨ws, hws, rfl⟩ := setPaths_written hh has hset
  rw [setPaths_write (hpaths hbs) fun w hw => hout hx hy hne hbs w.1 (hws w hw)] at hset'
  obtain ⟨g', hg', rfl⟩ := map_eq_some_iff.mp hset'
  refine ⟨g', hg', ?_⟩
  obtain ⟨ws', hws', rfl⟩ := setPaths_written hh hbs hg'
  rw [setPaths_write (hpaths has) fun w hw => hout hy hx (Ne.symm hne) has w.1 (hws' w hw), hset]
  refine congrArg some (Heap.write_comm fun w hw w' hw' heq => ?_)
  -- a place is in the struct that it is a field of
  obtain ⟨c, hc, i, hi⟩ := exists_struct_of_mem_fieldsOf (hws' w' hw')
  refine hun.outside hx hy hne (hws w hw) hc ?_
  rw [heq, hi]
  exact c.child_within i

end Apart

section One

variable [DecidableEq B] (t : Table) (lang : Language) (key : Translatable B → String × String)
  (copied : Heap E B)

/-- What `translateMany` does with one model, where it succeeds. -/
def translateOne (h : Heap E B) (model : Translatable B) : Option (Heap E B) :=
  (assignedTo t lang (key model) h model.loc).bind fun as =>
    setPaths (fun h => valueByPathFrom copied h model.ref) as h

/-- A copy in which nothing has to be set. -/
def Harmless (m : Translatable B) : Prop :=
  ∀ x as, m = .copy x → assignedTo t lang (key m) copied x = some as → BeyondCopy copied x as

variable {t lang key copied} {h₀ h g k : Heap E B} {R : Loc B → Prop} {m m' : Translatable B}
  {x : Loc B}

theorem translateOne_pointer_eq_some_iff :
    translateOne t lang key copied h (.pointer x) = some g ↔
      ∃ as, assignedTo t lang (key (.pointer x)) h x = some as ∧
        setPaths (reachAt x) as h = some g := by
  have hreach : (fun h : Heap E B => valueByPathFrom copied h (Translatable.pointer x).ref) =
      reachAt x := by
    funext h path
    exact valueByPathFrom_pointer
  rw [translateOne, hreach]
  exact bind_eq_some_iff

theorem translateOne_eq_some_iff (hkey : ∀ x, R x → key (.copy x) = key (.pointer x))
    (hcopied : h₀.Alike copied) (hh : h₀.Alike h) (hn : Narrower h₀ R copied h) (hm : R m.loc) :
    translateOne t lang key copied h m = some g ↔
      Harmless t lang key copied m ∧
        translateOne t lang key copied h (.pointer m.loc) = some g := by
  cases m with
  | pointer x => exact (and_iff_right (by rintro _ _ ⟨⟩)).symm
  | copy x =>
    have hassign : ∀ as, assignedTo t lang (key (.copy x)) h x = some as ↔
        assignedTo t lang (key (.copy x)) copied x = some as := fun as => by
      rw [assignedTo_alike (hcopied.symm.trans hh)]
    have hset : ∀ as, assignedTo t lang (key (.copy x)) h x = some as → BeyondCopy copied x as →
        setPaths (reachFrom copied x) as h = setPaths (reachAt x) as h := by
      intro as has hb
      obtain rfl | ⟨n, vs, hread⟩ := exists_struct_or_nil has
      · rfl
      · refine setPaths_reachFrom hread (hcopied.symm.trans hh) (fun a ha r hr => ?_) hb
        have hpath := mem_translatedPaths has ha
        rw [translatedPaths_alike hh] at hpath
        exact hn (.pointer x) hm a.1 hpath r hr
    rw [translateOne_pointer_eq_some_iff]
    dsimp only [Translatable.loc] at hm ⊢
    rw [← hkey x hm]
    constructor
    · intro hone
      obtain ⟨as, has, hrun⟩ := bind_eq_some_iff.mp hone
      have hb : BeyondCopy copied x as := by
        by_contra hb
        have hnone : setPaths (reachFrom copied x) as h = none := setPaths_reachFrom_none hb
        cases hnone.symm.trans hrun
      refine ⟨?_, as, has, (hset as has hb).symm.trans hrun⟩
      rintro _ as' ⟨⟩ has'
      obtain rfl := Option.some.inj (has.symm.trans ((hassign as').mpr has'))
      exact hb
    · rintro ⟨hb, as, has, hrun⟩
      refine bind_eq_some_iff.mpr ⟨as, has, ?_⟩
      exact (hset as has (hb x as rfl ((hassign as).mp has))).trans hrun

theorem translateOne_keep (hun : Unshared h₀ R)
    (hkey : ∀ x, R x → key (.copy x) = key (.pointer x)) (hcopied : h₀.Alike copied)
    (hh : Rewritten h₀ R h) (hn : Narrower h₀ R copied h) (hm : R m.loc)
    (hone : translateOne t lang key copied h m = some g) :
    Rewritten h₀ R g ∧ Narrower h₀ R copied g := by
  obtain ⟨-, hptr⟩ := (translateOne_eq_some_iff hkey hcopied hh.alike hn hm).mp hone
  obtain ⟨as, has, hset⟩ := translateOne_pointer_eq_some_iff.mp hptr
  refine ⟨?_, hn.trans (setPaths_narrower hun hm hh.alike has hset)⟩
  obtain ⟨ws, hws, rfl⟩ := setPaths_written hh.alike has hset
  obtain ⟨vs, hvs, rfl⟩ := hh
  refine ⟨vs ++ ws, fun w hw => ?_, Heap.write_append.symm⟩
  exact (mem_append.mp hw).elim (hvs w) fun hw => ⟨_, hm, hws w hw⟩

theorem translateOne_pointer_again (hg : h.Alike g)
    (hone : translateOne t lang key copied h (.pointer x) = some g) :
    translateOne t lang key copied g (.pointer x) = some g := by
  obtain ⟨as, has, hset⟩ := translateOne_pointer_eq_some_iff.mp hone
  refine translateOne_pointer_eq_some_iff.mpr ⟨as, ?_, setPaths_again_of_assignedTo has hset⟩
  rw [assignedTo_alike hg]
  exact has

/-- Two models are translated in either order. -/
theorem translateOne_pointer_swap (hun : Unshared h₀ R)
    (hkey : ∀ x, R x → key (.copy x) = key (.pointer x)) (hcopied : h₀.Alike copied)
    (hh : Rewritten h₀ R h) (hn : Narrower h₀ R copied h) (hx : R x) (hy : R y) (hne : x ≠ y)
    (hone : translateOne t lang key copied h (.pointer x) = some g)
    (htwo : translateOne t lang key copied g (.pointer y) = some k) :
    ∃ g', translateOne t lang key copied h (.pointer y) = some g' ∧
      translateOne t lang key copied g' (.pointer x) = some k := by
  have hsame : ∀ {z : Loc B} {f : Heap E B}, R z →
      translateOne t lang key copied h (.pointer z) = some f → h.Alike f := by
    intro z f hz hf
    have hkeep := translateOne_keep (m := .pointer z) hun hkey hcopied hh hn hz hf
    exact hh.alike.symm.trans hkeep.1.alike
  obtain ⟨as, has, hset⟩ := translateOne_pointer_eq_some_iff.mp hone
  obtain ⟨bs, hbs, hset'⟩ := translateOne_pointer_eq_some_iff.mp htwo
  rw [assignedTo_alike (hsame hx hone)] at hbs
  obtain ⟨g', hg', hk⟩ := setPaths_swap hun hx hy hne hh.alike has hbs hset hset'
  have hptr : translateOne t lang key copied h (.pointer y) = some g' :=
    translateOne_pointer_eq_some_iff.mpr ⟨bs, hbs, hg'⟩
  refine ⟨g', hptr, translateOne_pointer_eq_some_iff.mpr ⟨as, ?_, hk⟩⟩
  rw [assignedTo_alike (hsame hy hptr)]
  exact has

/-- The laws of the translations of models without common structs. -/
theorem translateOne_laws (hun : Unshared h₀ R)
    (hkey : ∀ x, R x → key (.copy x) = key (.pointer x)) (hcopied : h₀.Alike copied) :
    Commute.Laws (fun m => R m.loc) (fun g => Rewritten h₀ R g ∧ Narrower h₀ R copied g)
      (translateOne t lang key copied) := by
  have hiff : ∀ {h g : Heap E B} {m : Translatable B},
      Rewritten h₀ R h ∧ Narrower h₀ R copied h → R m.loc →
      (translateOne t lang key copied h m = some g ↔ _) :=
    fun hI hm => translateOne_eq_some_iff hkey hcopied hI.1.alike hI.2 hm
  have hkeep : ∀ {m : Translatable B} {h g : Heap E B}, R m.loc →
      Rewritten h₀ R h ∧ Narrower h₀ R copied h → translateOne t lang key copied h m = some g →
      Rewritten h₀ R g ∧ Narrower h₀ R copied g :=
    fun hm hI hone => translateOne_keep hun hkey hcopied hI.1 hI.2 hm hone
  refine ⟨hkeep, ?_, ?_⟩
  · intro m h g hm hI hone
    have hI' := hkeep hm hI hone
    obtain ⟨hb, hptr⟩ := (hiff hI hm).mp hone
    have hg := hI.1.alike.symm.trans hI'.1.alike
    exact (hiff hI' hm).mpr ⟨hb, translateOne_pointer_again hg hptr⟩
  · intro m m' h g k hm hm' _ hI hone htwo
    have hI' := hkeep hm hI hone
    obtain ⟨hb, hptr⟩ := (hiff hI hm).mp hone
    obtain ⟨hb', hptr'⟩ := (hiff hI' hm').mp htwo
    by_cases hloc : m.loc = m'.loc
    · -- the same model in two forms
      have hsame := translateOne_pointer_again (hI.1.alike.symm.trans hI'.1.alike) hptr
      rw [hloc] at hsame
      obtain rfl := Option.some.inj (hsame.symm.trans hptr')
      exact ⟨g, (hiff hI hm').mpr ⟨hb', hloc ▸ hptr⟩, (hiff hI' hm).mpr ⟨hb, hloc ▸ hsame⟩⟩
    · obtain ⟨g', hg', hk⟩ :=
        translateOne_pointer_swap hun hkey hcopied hI.1 hI.2 hm hm' hloc hptr hptr'
      have hI₂ := hkeep (m := .pointer m'.loc) hm' hI hg'
      exact ⟨g', (hiff hI hm').mpr ⟨hb', hg'⟩, (hiff hI₂ hm).mpr ⟨hb, hk⟩⟩

/-- A copy that was made later holds no more fields. -/
theorem translateOne_later (hkey : ∀ x, R x → key (.copy x) = key (.pointer x))
    (hcopied : h₀.Alike copied) (hh : h₀.Alike h) (hk : h₀.Alike k)
    (hlater : Narrower h₀ R copied k) (hn : Narrower h₀ R copied h) (hn' : Narrower h₀ R k h)
    (hm : R m.loc) (hone : translateOne t lang key copied h m = some g) :
    translateOne t lang key k h m = some g := by
  obtain ⟨hb, hone⟩ := (translateOne_eq_some_iff hkey hcopied hh hn hm).mp hone
  refine (translateOne_eq_some_iff hkey hk hh hn' hm).mpr ⟨?_, ?_⟩
  · rintro x as rfl has a ha r hr
    have hpath := mem_translatedPaths has ha
    rw [translatedPaths_alike hk] at hpath
    rw [assignedTo_alike (hcopied.symm.trans hk)] at has
    exact hb x as rfl has a ha r (hlater (.copy x) hm a.1 hpath r hr)
  · exact translateOne_pointer_eq_some_iff.mpr (translateOne_pointer_eq_some_iff.mp hone)

theorem foldlM_translateOne_later (hun : Unshared h₀ R)
    (hkey : ∀ x, R x → key (.copy x) = key (.pointer x)) (hcopied : h₀.Alike copied)
    (hk : h₀.Alike k) (hlater : Narrower h₀ R copied k) {ms : List (Translatable B)}
    (hms : ∀ m ∈ ms, R m.loc) (hh : Rewritten h₀ R h) (hn : Narrower h₀ R copied h)
    (hn' : Narrower h₀ R k h) (hrun : ms.foldlM (translateOne t lang key copied) h = some g) :
    ms.foldlM (translateOne t lang key k) h = some g := by
  induction ms generalizing h with
  | nil => exact hrun
  | cons m ms ih =>
    obtain ⟨hm, hms⟩ := forall_mem_cons.mp hms
    obtain ⟨h', hone, hrun⟩ := Commute.foldlM_cons_eq_some_iff.mp hrun
    have hone' := translateOne_later hkey hcopied hh.alike hk hlater hn hn' hm hone
    obtain ⟨hh', hn₁⟩ := translateOne_keep hun hkey hcopied hh hn hm hone
    obtain ⟨-, hn₂⟩ := translateOne_keep hun hkey hk hh hn' hm hone'
    exact Commute.foldlM_cons_eq_some_iff.mpr ⟨h', hone', ih hms hh' hn₁ hn₂ hrun⟩

end One

end Skit.Translation
