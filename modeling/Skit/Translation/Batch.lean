import Skit.Translation.Translator
import Skit.Translation.Unshared

/-!
# Translating many models

`translateMany` looks the models up by groups and applies what it finds to each of them, as often
as the list and the slices name it. Where no struct is shared between two models, it only matters
which models are translated: the outcome is that of translating the models one by one.
-/
namespace Skit.Translation
open Lib Reflect List Option Translatable

variable {N B : Type} [DecidableEq N] [Fintype N] {E : Types N}

section Groups

variable [DecidableEq B] {getKey : Heap E B → Translatable B → String × String} {t : Table}
  {lang : Language} {key : Translatable B → String × String} {copied h₀ h g : Heap E B}
  {R : Loc B → Prop} {m : Translatable B}

omit [DecidableEq B] [Fintype N] in
theorem modelType_home (hg : copied.Alike h) {n : N} :
    modelType (home copied h m.ref) m = .ok n ↔ h.typeOf m.loc = some (.struct n) := by
  have htype : (home copied h m.ref).typeOf m.loc = h.typeOf m.loc := by
    unfold home
    split
    · rfl
    · exact (hg.typeOf m.loc).symm
  rw [modelType_eq_ok_iff, ← htype]
  constructor
  · rintro ⟨vs, hread⟩
    obtain ⟨u, hu, -⟩ := Heap.exists_typeOf hread
    rw [hu, Heap.typeOf_eq_struct hu hread]
  · exact fun hu => Heap.read_struct hu

theorem toOption_translateModel (hg : copied.Alike h)
    {batch : String → Option (String → Option String)} (hk : getKey h m = key m)
    (hany : (t.select (key m).1 (key m).2 lang.code).any (·.value.isNone) = false)
    (hbatch : batch (key m).2 = if t.select (key m).1 (key m).2 lang.code = [] then none
      else some (columnsOf (t.select (key m).1 (key m).2 lang.code))) :
    (translateModel getKey copied batch h m).toOption = translateOne t lang key copied h m := by
  unfold translateModel translateOne assignedTo
  rw [hk, hbatch]
  simp only [hany, Bool.false_eq_true, if_false]
  by_cases hnil : t.select (key m).1 (key m).2 lang.code = []
  · rw [if_pos hnil, if_pos hnil]
    rfl
  · rw [if_neg hnil, if_neg hnil]
    by_cases hstruct : ∃ n, h.typeOf m.loc = some (.struct n)
    · obtain ⟨n, hn⟩ := hstruct
      have hm := (modelType_home hg).mpr hn
      rw [hn]
      cases hs : schemaForType E n with
      | error e =>
        have hparse : parseTranslateTagsFrom copied h m = .error e := by
          simp [parseTranslateTagsFrom, hm, hs, bind, Except.bind]
        simp only [hparse, hs]
        rfl
      | ok schema =>
        have hparse : parseTranslateTagsFrom copied h m =
            .ok (schema.filterMap (fieldInfoFrom copied h m.ref)) := by
          simp [parseTranslateTagsFrom, hm, hs, bind, Except.bind, pure, Except.pure]
        simp only [hparse, hs]
        exact applyTranslationsFrom_eq (fun g' hg' => (modelType_home (hg.trans hg')).mpr
          ((hg'.typeOf m.loc).trans hn)) hs
    · cases hm : modelType (home copied h m.ref) m with
      | ok n => exact absurd ⟨n, (modelType_home hg).mp hm⟩ hstruct
      | error e =>
        have hparse : parseTranslateTagsFrom copied h m = .error e := by
          simp [parseTranslateTagsFrom, hm, bind, Except.bind]
        simp only [hparse]
        split
        · next n hn => exact absurd ⟨n, hn⟩ hstruct
        · rfl

variable (hun : Unshared h₀ R) (hkey : ∀ x, R x → key (.copy x) = key (.pointer x))
  (hkeys : ∀ g, Rewritten h₀ R g → ∀ m : Translatable B, R m.loc → getKey g m = key m)
  (hcopied : h₀.Alike copied)

include hun hkey hkeys hcopied

theorem toOption_translateGroup {group : String × List (Translatable B)}
    (hh : Rewritten h₀ R h) (hn : Narrower h₀ R copied h)
    (hgroup : ∀ m ∈ group.2, R m.loc ∧ (key m).1 = group.1) :
    (translateGroup getKey t lang copied h group).toOption =
      group.2.foldlM (translateOne t lang key copied) h := by
  have hids : (group.2.map fun m => (getKey h m).2) = group.2.map fun m => (key m).2 :=
    map_congr_left fun m hm => by rw [hkeys h hh m (hgroup m hm).1]
  unfold translateGroup
  rw [hids]
  obtain ⟨err, herr, k, hk, hany⟩ | ⟨batch, hok, hbatch⟩ := getTranslationsBatch_spec t group.1
    (group.2.map fun m => (key m).2) lang
  · -- a NULL makes the lookup of its model fail in every heap
    obtain ⟨m, hm, rfl⟩ := mem_map.mp hk
    rw [herr]
    refine (Commute.foldlM_eq_none hm fun g => ?_).symm
    rw [← (hgroup m hm).2] at hany
    simp [translateOne, assignedTo, hany]
  · rw [hok]
    dsimp only
    rw [toOption_foldlM]
    obtain ⟨name, ms⟩ := group
    dsimp only at hgroup hbatch ⊢
    clear hids hok
    induction ms generalizing h with
    | nil => rfl
    | cons m ms ih =>
      obtain ⟨⟨hm, hname⟩, hgroup⟩ := forall_mem_cons.mp hgroup
      rw [map_cons] at hbatch
      obtain ⟨⟨hany, hrows⟩, hbatch⟩ := forall_mem_cons.mp hbatch
      rw [← hname] at hany hrows
      rw [foldlM_cons, foldlM_cons, toOption_translateModel
        (hcopied.symm.trans hh.alike) (hkeys h hh m hm) hany hrows]
      refine bind_congr fun g hg => ?_
      obtain ⟨hh', hn'⟩ := translateOne_keep hun hkey hcopied hh hn hm hg
      exact ih hh' hn' hgroup hbatch

theorem toOption_translateGroups {groups : List (String × List (Translatable B))}
    (hh : Rewritten h₀ R h) (hn : Narrower h₀ R copied h)
    (hgroups : ∀ group ∈ groups, ∀ m ∈ group.2, R m.loc ∧ (key m).1 = group.1) :
    (groups.foldlM (translateGroup getKey t lang copied) h).toOption =
      (groups.flatMap (·.2)).foldlM (translateOne t lang key copied) h := by
  rw [toOption_foldlM]
  induction groups generalizing h with
  | nil => rfl
  | cons group groups ih =>
    obtain ⟨hgroup, hgroups⟩ := forall_mem_cons.mp hgroups
    rw [foldlM_cons, flatMap_cons, foldlM_append,
      toOption_translateGroup hun hkey hkeys hcopied hh hn hgroup]
    refine bind_congr fun g hg => ?_
    obtain ⟨hh', hn'⟩ := (translateOne_laws hun hkey hcopied).keep_foldlM
      (fun m hm => (hgroup m hm).1) ⟨hh, hn⟩ hg
    exact ih hh' hn' hgroups

end Groups

section Collected

variable {impl : N → Option Receiver} {h g : Heap E B} (hg : h.Alike g)

include hg

omit [Fintype N] in
theorem asTranslatable_alike (elem : Ref B) :
    asTranslatable impl g elem = asTranslatable impl h elem := by
  unfold asTranslatable
  cases hr : h.read elem.loc with
  | none => simp [hg.read_none hr]
  | some v =>
    cases v with
    | pointer target =>
      rw [hg.pointer hr]
      cases target with
      | none => rfl
      | some l =>
        cases hl : h.read l with
        | none => simp [hg.read_none hl, hl]
        | some w =>
          obtain ⟨w', hw', ho⟩ := hg.exists_read hl
          cases w <;> cases w' <;> simp_all [Value.outline]
    | struct m vs =>
      obtain ⟨ws, hws⟩ := hg.struct hr
      simp [hws]
    | _ =>
      obtain ⟨w, hw, ho⟩ := hg.exists_read hr
      cases w <;> simp_all [Value.outline]

omit [Fintype N] in
theorem nested_alike (model : Translatable B) : nested impl g model = nested impl h model := by
  unfold nested
  cases hr : h.read model.loc with
  | none => simp [hg.read_none hr]
  | some v =>
    cases v with
    | struct n vs =>
      obtain ⟨ws, hws⟩ := hg.struct hr
      rw [hws]
      dsimp only
      refine flatMap_congr fun ⟨f, i⟩ _ => ?_
      have hfield : ∀ {h : Heap E B} {vs}, h.read model.loc = some (.struct n vs) →
          h.read (model.loc.child i) = vs[i]? := fun hread => by
        rw [Heap.read_child, hread]
        rfl
      rw [← hfield hr, ← hfield hws]
      cases hs : h.read (model.loc.child i) with
      | none => simp [hg.read_none hs]
      | some w =>
        cases w with
        | slice es =>
          rw [hg.slice hs]
          simp only [asTranslatable_alike hg]
        | _ =>
          obtain ⟨w', hw', ho⟩ := hg.exists_read hs
          cases w' <;> simp_all [Value.outline]
    | _ =>
      obtain ⟨w, hw, ho⟩ := hg.exists_read hr
      cases w <;> simp_all [Value.outline]

omit [Fintype N] in
theorem collectNestedTranslatables_alike (depth : Nat) (model : Translatable B) :
    collectNestedTranslatables impl g depth model =
      collectNestedTranslatables impl h depth model := by
  have hkey : visitedKey g = visitedKey h := by
    funext model
    cases model with
    | pointer l => simp [visitedKey, hg.address]
    | copy l => rfl
  have hnested : nested impl g = nested impl h := funext (nested_alike hg)
  simp only [collectNestedTranslatables, collectNested, hkey, hnested]

end Collected

section Many

variable [DecidableEq B] (getKey : Heap E B → Translatable B → String × String)
  (impl : N → Option Receiver) (t : Table) (tr : Translator) (lang : Language)

namespace Translator

/-- `Translate`, with the order in which its groups are visited. -/
def translateIn (order : Visiting B) (depth : Nat) (h : Heap E B) (model : Translatable B) :
    Option (Except Err (Heap E B)) :=
  if tr.isDefaultLanguage lang then some (.ok h)
  else
    match tr.validateLanguage lang with
    | .error err => some (.error err)
    | .ok _ => tr.translateManyIn getKey impl t order depth h [model] lang

/-- The models separately, one after the other, as long as there is no error. -/
def translateEach (depth : Nat) : Heap E B → List (Loc B × Visiting B) →
    Option (Except Err (Heap E B))
  | h, [] => some (.ok h)
  | h, (l, order) :: steps =>
    match tr.translateIn getKey impl t lang order depth h (.pointer l) with
    | some (.ok g) => translateEach depth g steps
    | res => res

end Translator

/-- A model of the list, or one in the slices of such a model. -/
def Reached (h : Heap E B) (models : List (Loc B)) (x : Loc B) : Prop :=
  ∃ l ∈ models, Relation.ReflTransGen (Child impl h) l x

/-- `GetTranslationKey` returns the same for a model and for a copy of it, and it does not look at
the translatable fields of the models. -/
structure KeysKept (h : Heap E B) (models : List (Loc B)) : Prop where
  copy : ∀ x, Reached impl h models x → getKey h (.copy x) = getKey h (.pointer x)
  kept : ∀ g, Rewritten h (Reached impl h models) g → ∀ m : Translatable B,
    Reached impl h models m.loc → getKey g m = getKey h m

variable {getKey impl t tr lang} {h₀ h g : Heap E B} {models : List (Loc B)} {depth : Nat}
  {ms : List (Translatable B)} {m : Translatable B}

theorem mem_flatten_of_mapM {α β : Type} {f : α → Option (List β)} {l : List α}
    {bss : List (List β)} (hl : l.mapM f = some bss) :
    (∀ a ∈ l, ∃ bs, f a = some bs) ∧
      ∀ b, b ∈ bss.flatten ↔ ∃ a ∈ l, ∃ bs, f a = some bs ∧ b ∈ bs := by
  induction l generalizing bss with
  | nil =>
    cases hl
    simp
  | cons a l ih =>
    rw [mapM_cons] at hl
    obtain ⟨bs, hbs, hl⟩ := bind_eq_some_iff.mp hl
    obtain ⟨rest, hrest, hl⟩ := bind_eq_some_iff.mp hl
    cases hl
    obtain ⟨hall, hmem⟩ := ih hrest
    refine ⟨forall_mem_cons.mpr ⟨⟨bs, hbs⟩, hall⟩, fun b => ?_⟩
    rw [flatten_cons, mem_append, hmem, exists_mem_cons_iff]
    simp [hbs]

omit [Fintype N] [DecidableEq B] in
theorem name_of_mem_modelGroups
    {group : String × List (Translatable B)} (hgroup : group ∈ modelGroups getKey h ms)
    (hm : m ∈ group.2) : m ∈ ms ∧ (getKey h m).1 = group.1 := by
  obtain ⟨name, -, rfl⟩ := mem_map.mp hgroup
  obtain ⟨hmem, hname⟩ := mem_filter.mp hm
  exact ⟨hmem, by simpa using hname⟩

omit [Fintype N] [DecidableEq B] in
theorem mem_flatMap_modelGroups : m ∈ (modelGroups getKey h ms).flatMap (·.2) ↔ m ∈ ms := by
  constructor
  · intro hm
    obtain ⟨group, hgroup, hm⟩ := mem_flatMap.mp hm
    exact (name_of_mem_modelGroups hgroup hm).1
  · intro hm
    refine mem_flatMap.mpr
      ⟨((getKey h m).1, ms.filter fun m' => (getKey h m').1 = (getKey h m).1), ?_, ?_⟩
    · exact mem_map.mpr ⟨_, mem_dedup.mpr (mem_map.mpr ⟨m, hm, rfl⟩), rfl⟩
    · exact mem_filter.mpr ⟨hm, by simp⟩

section Runs

variable {nested : List (List (Translatable B))} {ms : List (Loc B)}
  (hdef : lang.code ≠ tr.defaultLang.code) (hsup : ∃ s ∈ tr.supportedLangs, s.code = lang.code)
  (hkeys : KeysKept getKey impl h₀ models) (hun : Unshared h₀ (Reached impl h₀ models))

include hdef hsup hkeys hun

/-- What `translateMany` makes of some of the models, from any heap that the translations lead
to: it translates each of them, and each of the models in their slices. -/
theorem translateManyIn_spec (order : Visiting B)
    (hcol : (ms.map pointer).mapM (collectNestedTranslatables impl h₀ depth) =
      some nested)
    (hms : ∀ m ∈ ms.map pointer ++ nested.flatten, Reached impl h₀ models m.loc)
    (hh : Rewritten h₀ (Reached impl h₀ models) h) :
    ∃ res, ∃ all : List (Translatable B),
      tr.translateManyIn getKey impl t order depth h (ms.map .pointer) lang = some res ∧
      res.toOption = all.foldlM (translateOne t lang (getKey h₀) h) h ∧
      ∀ m, m ∈ all ↔ m ∈ ms.map pointer ++ nested.flatten := by
  have hval := Translator.validateLanguage_eq_ok_iff.mpr hsup
  have hcol' : (ms.map pointer).mapM (collectNestedTranslatables impl h depth) =
      some nested := by
    have hsame : collectNestedTranslatables impl h depth =
        collectNestedTranslatables impl h₀ depth :=
      funext (collectNestedTranslatables_alike hh.alike depth)
    rw [hsame]
    exact hcol
  generalize hgroups : order.visit (modelGroups getKey h (ms.map .pointer ++ nested.flatten)) =
    groups
  have hperm := order.perm (modelGroups getKey h (ms.map .pointer ++ nested.flatten))
  rw [hgroups] at hperm
  refine ⟨groups.foldlM (translateGroup getKey t lang h) h, groups.flatMap (·.2), ?_, ?_, ?_⟩
  · unfold Translator.translateManyIn
    rw [if_neg (Translator.isDefaultLanguage_iff.not.mpr hdef), hval, hcol']
    dsimp only
    split
    · next hnil =>
      rw [hnil] at hcol' hperm
      cases hcol'
      rw [perm_nil.mp hperm]
      rfl
    · rw [← hgroups]
      rfl
  · have hn : Narrower h₀ (Reached impl h₀ models) h h := fun _ _ _ _ _ hr => hr
    refine toOption_translateGroups hun hkeys.copy hkeys.kept hh.alike hh hn ?_
    intro group hgroup m hm
    obtain ⟨hmem, hname⟩ := name_of_mem_modelGroups (hperm.mem_iff.mp hgroup) hm
    rw [hkeys.kept h hh m (hms m hmem)] at hname
    exact ⟨hms m hmem, hname⟩
  · intro m
    rw [(hperm.flatMap_right _).mem_iff]
    exact mem_flatMap_modelGroups

/-- Whichever models are translated by `translateMany`, from any heap that the translations lead
to, the outcome is that of translating them once each. -/
theorem translateManyIn_eq_ok (order : Visiting B) {all : List (Translatable B)}
    (hcol : (ms.map pointer).mapM (collectNestedTranslatables impl h₀ depth) =
      some nested)
    (hall : ∀ m, m ∈ all ↔ m ∈ ms.map pointer ++ nested.flatten)
    (hR : ∀ m ∈ all, Reached impl h₀ models m.loc)
    (hh : Rewritten h₀ (Reached impl h₀ models) h)
    (hn : Narrower h₀ (Reached impl h₀ models) h₀ h)
    (hrun : all.foldlM (translateOne t lang (getKey h₀) h₀) h = some g) :
    tr.translateManyIn getKey impl t order depth h (ms.map .pointer) lang = some (.ok g) := by
  have hms : ∀ m ∈ ms.map pointer ++ nested.flatten,
      Reached impl h₀ models m.loc := fun m hm => hR m ((hall m).mpr hm)
  obtain ⟨res, all', hres, hopt, hall'⟩ :=
    translateManyIn_spec (t := t) hdef hsup hkeys hun order hcol hms hh
  have hlaws : Commute.Laws _ _ (translateOne t lang (getKey h₀) h₀) :=
    translateOne_laws hun hkeys.copy (.refl h₀)
  have hrun' : all'.foldlM (translateOne t lang (getKey h₀) h₀) h = some g :=
    hlaws.foldlM_of_mem_iff (fun m => (hall m).trans (hall' m).symm) hR ⟨hh, hn⟩ hrun
  have hlater := foldlM_translateOne_later hun hkeys.copy (.refl h₀) hh.alike hn
    (fun m hm => hms m ((hall' m).mp hm)) hh hn (fun _ _ _ _ _ hr => hr) hrun'
  rw [hlater] at hopt
  cases res with
  | error err => cases hopt
  | ok g' => rw [hres, Option.some.inj hopt]

omit [Fintype N] [DecidableEq B] hdef hsup hkeys hun in
/-- What is collected is within reach. -/
theorem reached_of_collected
    (hcol : (models.map pointer).mapM (collectNestedTranslatables impl h₀ depth) =
      some nested) {m : Translatable B}
    (hm : m ∈ models.map pointer ++ nested.flatten) :
    Reached impl h₀ models m.loc := by
  rcases mem_append.mp hm with hm | hm
  · obtain ⟨l, hl, rfl⟩ := mem_map.mp hm
    exact ⟨l, hl, .refl⟩
  · obtain ⟨a, ha, bs, hbs, hm⟩ := ((mem_flatten_of_mapM hcol).2 m).mp hm
    obtain ⟨l, hl, rfl⟩ := mem_map.mp ha
    obtain ⟨⟨res, visited⟩, hres, rfl⟩ := map_eq_some_iff.mp hbs
    exact ⟨l, hl, reach_of_handles (Traverse.collect_sound hres m hm).1.to_reflTransGen⟩

omit [Fintype N] [DecidableEq B] hdef hsup hkeys hun in
/-- What is collected comes from the models one by one. -/
theorem exists_collected
    (hcol : (models.map pointer).mapM (collectNestedTranslatables impl h₀ depth) =
      some nested) :
    ∃ coll : Loc B → List (Translatable B),
      (∀ l ∈ models, collectNestedTranslatables impl h₀ depth (.pointer l) = some (coll l)) ∧
      ∀ m, m ∈ models.map pointer ++ nested.flatten ↔
        m ∈ models.flatMap fun l => .pointer l :: coll l := by
  obtain ⟨hsome, hflat⟩ := mem_flatten_of_mapM hcol
  have hcoll : ∀ l ∈ models, collectNestedTranslatables impl h₀ depth (.pointer l) =
      some ((collectNestedTranslatables impl h₀ depth (.pointer l)).getD []) := by
    intro l hl
    obtain ⟨bs, hbs⟩ := hsome _ (mem_map_of_mem hl)
    rw [hbs, getD_some]
  refine ⟨_, hcoll, fun m => ?_⟩
  rw [mem_append, hflat, mem_flatMap]
  constructor
  · rintro (hm | ⟨a, ha, bs, hbs, hm⟩)
    · obtain ⟨l, hl, rfl⟩ := mem_map.mp hm
      exact ⟨l, hl, mem_cons_self⟩
    · obtain ⟨l, hl, rfl⟩ := mem_map.mp ha
      exact ⟨l, hl, mem_cons_of_mem _ (by rwa [hbs, getD_some])⟩
  · rintro ⟨l, hl, hm⟩
    rcases mem_cons.mp hm with rfl | hm
    · exact .inl (mem_map_of_mem hl)
    · exact .inr ⟨_, mem_map_of_mem hl, _, hcoll l hl, hm⟩

/-- The models one after the other, from any heap that the translations lead to. -/
theorem translateEach_eq_ok {coll : Loc B → List (Translatable B)}
    {steps : List (Loc B × Visiting B)}
    (hcoll : ∀ s ∈ steps, collectNestedTranslatables impl h₀ depth (.pointer s.1) =
      some (coll s.1))
    (hR : ∀ m ∈ steps.flatMap fun s => .pointer s.1 :: coll s.1, Reached impl h₀ models m.loc)
    (hh : Rewritten h₀ (Reached impl h₀ models) h)
    (hn : Narrower h₀ (Reached impl h₀ models) h₀ h)
    (hrun : (steps.flatMap fun s => .pointer s.1 :: coll s.1).foldlM
      (translateOne t lang (getKey h₀) h₀) h = some g) :
    tr.translateEach getKey impl t lang depth h steps = some (.ok g) := by
  induction steps generalizing h with
  | nil => exact congrArg (Option.map Except.ok) hrun
  | cons s steps ih =>
    obtain ⟨l, order⟩ := s
    obtain ⟨hl, hcoll⟩ := forall_mem_cons.mp hcoll
    rw [flatMap_cons] at hR hrun
    obtain ⟨h', hfirst, hrun⟩ := Commute.foldlM_append_eq_some_iff.mp hrun
    have hR₁ := fun m hm => hR m (mem_append_left _ hm)
    have hcol : ([l].map pointer).mapM (collectNestedTranslatables impl h₀ depth) =
        some [coll l] := by
      rw [map_singleton, mapM_cons, hl]
      rfl
    have hone : tr.translateManyIn getKey impl t order depth h ([l].map .pointer) lang =
        some (.ok h') :=
      translateManyIn_eq_ok hdef hsup hkeys hun order hcol (by simp) hR₁ hh hn hfirst
    have hval := Translator.validateLanguage_eq_ok_iff.mpr hsup
    have hlaws : Commute.Laws _ _ (translateOne t lang (getKey h₀) h₀) :=
      translateOne_laws hun hkeys.copy (.refl h₀)
    obtain ⟨hh', hn'⟩ := hlaws.keep_foldlM hR₁ ⟨hh, hn⟩ hfirst
    have hstep : tr.translateIn getKey impl t lang order depth h (.pointer l) = some (.ok h') := by
      rw [Translator.translateIn, if_neg (Translator.isDefaultLanguage_iff.not.mpr hdef), hval]
      exact hone
    rw [Translator.translateEach, hstep]
    exact ih hcoll (fun m hm => hR m (mem_append_right _ hm)) hh' hn' hrun

/-- Translating many models at once is translating them one by one, in any order of the models and
of the groups, and once is enough. -/
theorem translateMany_separately {order₀ : Visiting B}
    (hok : tr.translateManyIn getKey impl t order₀ depth h₀ (models.map .pointer) lang =
      some (.ok g)) :
    (∀ order, tr.translateManyIn getKey impl t order depth h₀ (models.map .pointer) lang =
      some (.ok g)) ∧
    (∀ steps : List (Loc B × Visiting B), (steps.map Prod.fst).Perm models →
      tr.translateEach getKey impl t lang depth h₀ steps = some (.ok g)) ∧
    ∀ order, tr.translateManyIn getKey impl t order depth g (models.map .pointer) lang =
      some (.ok g) := by
  have hval := Translator.validateLanguage_eq_ok_iff.mpr hsup
  obtain ⟨nested, hcol⟩ : ∃ nested, (models.map pointer).mapM
      (collectNestedTranslatables impl h₀ depth) = some nested := by
    unfold Translator.translateManyIn at hok
    rw [if_neg (Translator.isDefaultLanguage_iff.not.mpr hdef), hval] at hok
    dsimp only at hok
    split at hok
    · next hnil => exact ⟨[], by rw [hnil]; rfl⟩
    · obtain ⟨nested, hcol, -⟩ := map_eq_some_iff.mp hok
      exact ⟨nested, hcol⟩
  have hms := fun m => reached_of_collected (m := m) hcol
  have hh : Rewritten h₀ (Reached impl h₀ models) h₀ := ⟨[], by simp, rfl⟩
  have hn : Narrower h₀ (Reached impl h₀ models) h₀ h₀ := fun _ _ _ _ _ hr => hr
  obtain ⟨res, all, hres, hopt, hall⟩ :=
    translateManyIn_spec (t := t) hdef hsup hkeys hun order₀ hcol hms hh
  obtain rfl := Option.some.inj (hok.symm.trans hres)
  have hR : ∀ m ∈ all, Reached impl h₀ models m.loc := fun m hm => hms m ((hall m).mp hm)
  have hlaws : Commute.Laws _ _ (translateOne t lang (getKey h₀) h₀) :=
    translateOne_laws hun hkeys.copy (.refl h₀)
  obtain ⟨hh', hn'⟩ := hlaws.keep_foldlM hR ⟨hh, hn⟩ hopt.symm
  refine ⟨fun order => ?_, fun steps hsteps => ?_, fun order => ?_⟩
  · exact translateManyIn_eq_ok hdef hsup hkeys hun order hcol hall hR hh hn hopt.symm
  · obtain ⟨coll, hcoll, hflat⟩ := exists_collected hcol
    have hmem : ∀ m, m ∈ all ↔ m ∈ steps.flatMap fun s => .pointer s.1 :: coll s.1 := by
      intro m
      rw [hall, hflat, ← flatMap_map Prod.fst fun l => .pointer l :: coll l]
      exact (hsteps.flatMap_right _).mem_iff.symm
    refine translateEach_eq_ok hdef hsup hkeys hun
      (fun s hs => hcoll s.1 (hsteps.mem_iff.mp (mem_map_of_mem hs)))
      (fun m hm => hR m ((hmem m).mpr hm)) hh hn ?_
    exact hlaws.foldlM_of_mem_iff hmem hR ⟨hh, hn⟩ hopt.symm
  · refine translateManyIn_eq_ok hdef hsup hkeys hun order hcol hall hR hh' hn' ?_
    exact Commute.foldlM_fixed fun m hm => hlaws.absorbed hR ⟨hh, hn⟩ hopt.symm hm

end Runs

end Many

section Album

/-- Cards, and albums with cards. -/
def albumTypes : Types Bool where
  fields
    | true => [
        ⟨"ID", true, false, [("translate", "primary")], .string none⟩,
        ⟨"Title", true, false, [("translate", "title")], .string none⟩]
    | false => [
        ⟨"ID", true, false, [("translate", "primary")], .string none⟩,
        ⟨"Title", true, false, [("translate", "title")], .string none⟩,
        ⟨"Cards", true, false, [], .slice (.struct true)⟩]

/-- An album with a card. -/
def album : Heap albumTypes Bool where
  type b := .struct b
  value
    | true => .struct true [.string none "7", .string none "a card"]
    | false => .struct false [.string none "1", .string none "an album",
        .slice (some [⟨true, []⟩])]
  address l := if l.base then 128 else 64
  typed := by
    intro b
    cases b <;> rfl

def albumKey (_ : Heap albumTypes Bool) (m : Translatable Bool) : String × String :=
  if m.loc.base then ("card", "7") else ("album", "1")

def albumTable : Table where
  rows := [⟨⟨"card", "title", "7", "de"⟩, some "eine Karte"⟩,
    ⟨⟨"album", "title", "1", "de"⟩, some "ein Album"⟩]
  unique := by decide

theorem reached_album {x : Loc Bool} (hx : Reached (fun _ => some .pointer) album
    [⟨false, []⟩, ⟨true, []⟩, ⟨false, []⟩] x) : x = ⟨false, []⟩ ∨ x = ⟨true, []⟩ := by
  obtain ⟨l, hl, hreach⟩ := hx
  induction hreach with
  | refl =>
    simp only [mem_cons, not_mem_nil, or_false] at hl
    tauto
  | tail _ hchild ih =>
    obtain ⟨m, hm, rfl⟩ := hchild
    rcases ih with rfl | rfl
    · have hmem : m ∈ nested (fun _ => some .pointer) album (.pointer ⟨false, []⟩) :=
        mem_nested_iff.mpr hm
      have hnested : nested (fun _ => some .pointer) album (.pointer ⟨false, []⟩) =
          [.pointer ⟨true, []⟩] := by decide
      rw [hnested, mem_singleton] at hmem
      rw [hmem]
      exact .inr rfl
    · have hmem : m ∈ nested (fun _ => some .pointer) album (.pointer ⟨true, []⟩) :=
        mem_nested_iff.mpr hm
      have hnested : nested (fun _ => some .pointer) album (.pointer ⟨true, []⟩) = [] := by
        decide
      rw [hnested] at hmem
      cases hmem

/-- An album and its card, listed three times. -/
theorem translateMany_separately_album : ∃ g : Heap albumTypes Bool,
    fieldText g ⟨false, []⟩ ["Title"] = "ein Album" ∧
    fieldText g ⟨true, []⟩ ["Title"] = "eine Karte" ∧
    ∀ steps : List (Loc Bool × Visiting Bool),
      (steps.map Prod.fst).Perm [⟨false, []⟩, ⟨true, []⟩, ⟨false, []⟩] →
      (cards german).translateEach albumKey (fun _ => some .pointer) albumTable german 3 album
        steps = some (.ok g) := by
  have hrun : (((cards german).translateManyIn albumKey (fun _ => some .pointer) albumTable
      .asMade 3 album ([⟨false, []⟩, ⟨true, []⟩, ⟨false, []⟩].map .pointer) german).bind
        Except.toOption).map (fun g => (fieldText g ⟨false, []⟩ ["Title"],
          fieldText g ⟨true, []⟩ ["Title"])) = some ("ein Album", "eine Karte") := by
    decide +kernel
  obtain ⟨g, hg, htexts⟩ := map_eq_some_iff.mp hrun
  obtain ⟨res, hres, hok⟩ := bind_eq_some_iff.mp hg
  obtain ⟨hfst, hsnd⟩ := Prod.mk.inj htexts
  refine ⟨g, hfst, hsnd, ?_⟩
  cases res with
  | error err => cases hok
  | ok g' =>
    cases hok
    refine (translateMany_separately (by decide) ⟨german, by decide, rfl⟩
      ⟨fun _ _ => rfl, fun _ _ _ _ => rfl⟩ ?_ hres).2.1
    intro x y hx hy hne
    have hapart : ∀ x ∈ [(⟨false, []⟩ : Loc Bool), ⟨true, []⟩],
        ∀ y ∈ [(⟨false, []⟩ : Loc Bool), ⟨true, []⟩], x ≠ y →
        ∀ c ∈ structsOf album x, ∀ d ∈ structsOf album y, ¬ c.Meets d := by
      decide +kernel
    exact hapart x (by simpa using reached_album hx) y (by simpa using reached_album hy) hne

end Album

end Skit.Translation
