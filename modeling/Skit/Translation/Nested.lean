import Mathlib.Data.Set.Finite.Basic
import Skit.Lib.Traverse
import Skit.Translation.Fields

/-!
# Nested models

`collectNested` follows the slices of a model to the models in them. An element whose type
implements `Translatable` on the value comes out as a copy, and a copy is not guarded by the
visited addresses.
-/
namespace Skit.Translation
open Lib Reflect List Option

variable {N B : Type} [DecidableEq N] {E : Types N}

section Collect

/-- How a struct type implements `Translatable`. -/
inductive Receiver
  | value
  | pointer
  deriving DecidableEq, Repr

variable (impl : N → Option Receiver)

/-- A pointer to a struct has the methods of both receivers. -/
def isTranslatableSlice : GoType N → Bool
  | .slice elem =>
    match elem.deref with
    | .struct m => (impl m).isSome
    | _ => false
  | _ => false

def asTranslatable (h : Heap E B) (elem : Ref B) : Option (Translatable B) :=
  match h.read elem.loc with
  | some (.pointer (some l)) =>
    match h.read l with
    | some (.struct m _) =>
      if elem.canInterface ∧ (impl m).isSome then some (.pointer l) else none
    | _ => none
  | some (.struct m _) =>
    if !elem.canInterface then none
    else
      match impl m with
      | some .value => some (.copy elem.loc)
      | some .pointer => if elem.addressable then some (.pointer elem.loc) else none
      | none => none
  | _ => none

/-- The models that the two loops of `collectNested` come to, one after the other. -/
def nested (h : Heap E B) (model : Translatable B) : List (Translatable B) :=
  match h.read model.loc with
  | some (.struct n vs) =>
    (E.fields n).zipIdx.flatMap fun (f, i) =>
      if isTranslatableSlice impl f.type then
        match vs[i]? with
        | some (.slice es) =>
          (es.getD []).filterMap fun e => asTranslatable impl h ((model.ref.field f i).index e)
        | _ => []
      else []
  | _ => []

/-- The key of `visited`: only a pointer has one. -/
def visitedKey (h : Heap E B) : Translatable B → Option Nat
  | .pointer l => some (h.address l)
  | .copy _ => none

def collectNested (h : Heap E B) (depth : Nat) (model : Translatable B) (visited : List Nat) :
    Option (List (Translatable B) × List Nat) :=
  Traverse.collect (visitedKey h) (nested impl h) depth model visited

def collectNestedTranslatables (h : Heap E B) (depth : Nat) (model : Translatable B) :
    Option (List (Translatable B)) :=
  (collectNested impl h depth model []).map (·.1)

end Collect

section Held

variable {f : StructField N} (impl : N → Option Receiver)

/-- `a` has the element in an exported slice field. -/
def Element (h : Heap E B) (a e : Loc B) : Prop :=
  ∃ (n : N) (vs : List (Value N B)) (i : Nat) (f : StructField N) (es : List (Loc B)),
    h.read a = some (.struct n vs) ∧ (E.fields n)[i]? = some f ∧ f.exported = true ∧
      vs[i]? = some (.slice (some es)) ∧ e ∈ es

/-- The models in the exported slice fields of `a`: behind pointers, and values that are models
by their address or by a copy. -/
inductive Held (h : Heap E B) (a : Loc B) : Translatable B → Prop
  | behind {e l : Loc B} {m : N} {ws : List (Value N B)} : Element h a e →
      h.read e = some (.pointer (some l)) → h.read l = some (.struct m ws) →
      (impl m).isSome = true → Held h a (.pointer l)
  | address {e : Loc B} {m : N} {ws : List (Value N B)} : Element h a e →
      h.read e = some (.struct m ws) → impl m = some .pointer → Held h a (.pointer e)
  | value {e : Loc B} {m : N} {ws : List (Value N B)} : Element h a e →
      h.read e = some (.struct m ws) → impl m = some .value → Held h a (.copy e)

variable {impl} {h : Heap E B} {model t : Translatable B}

theorem Held.typeOf {a : Loc B} (ht : Held impl h a t) :
    ∃ m, h.typeOf t.loc = some (.struct m) := by
  have hstruct : ∀ {l m ws}, h.read l = some (.struct m ws) → h.typeOf l = some (.struct m) := by
    intro l m ws hl
    obtain ⟨u, hu, -⟩ := h.exists_typeOf hl
    rw [hu, h.typeOf_eq_struct hu hl]
  cases ht with
  | behind _ _ hl _ => exact ⟨_, hstruct hl⟩
  | address _ he _ => exact ⟨_, hstruct he⟩
  | value _ he _ => exact ⟨_, hstruct he⟩

theorem asTranslatable_eq_some_iff {elem : Ref B} (hadd : elem.addressable = true) :
    asTranslatable impl h elem = some t ↔ elem.canInterface = true ∧
      ((∃ l m ws, h.read elem.loc = some (.pointer (some l)) ∧ h.read l = some (.struct m ws) ∧
          (impl m).isSome = true ∧ t = .pointer l) ∨
        (∃ m ws, h.read elem.loc = some (.struct m ws) ∧ impl m = some .pointer ∧
          t = .pointer elem.loc) ∨
        ∃ m ws, h.read elem.loc = some (.struct m ws) ∧ impl m = some .value ∧
          t = .copy elem.loc) := by
  unfold asTranslatable
  cases h.read elem.loc with
  | none => simp
  | some v =>
    cases v with
    | pointer target =>
      cases target with
      | none => simp
      | some l =>
        cases hl : h.read l with
        | none => simp [hl]
        | some w => cases w <;> simp [hl, @eq_comm _ t, and_assoc]
    | struct m ws =>
      cases hm : impl m with
      | none => simp [hm]
      | some rcv => cases rcv <;> simp [hm, hadd, @eq_comm _ t]
    | _ => simp

theorem exists_elem_type {a e : Loc B} {n : N} {vs : List (Value N B)} {i : Nat} {es : List (Loc B)}
    (ha : h.read a = some (.struct n vs))
    (hf : (E.fields n)[i]? = some f) (hv : vs[i]? = some (.slice (some es))) (he : e ∈ es) :
    ∃ u, f.type = .slice u ∧ h.typeOf e = some u := by
  obtain ⟨t, hta, -⟩ := h.exists_typeOf ha
  obtain rfl := h.typeOf_eq_struct hta ha
  have hc : h.read (a.child i) = some (.slice (some es)) := by
    rw [h.read_child, ha]
    exact hv
  exact h.typeOf_elem (h.typeOf_child hta hf) hc he

omit [DecidableEq N] in
theorem canInterface_index {i : Nat} {e : Loc B} :
    ((model.ref.field f i).index e).canInterface = f.exported := by
  have hfree : model.ref.access = .free := by cases model <;> rfl
  have hindex : ((model.ref.field f i).index e).access = .free ↔
      (model.ref.field f i).access = .free := by
    unfold Ref.index
    split <;> simp [*]
  rw [Bool.eq_iff_iff, Ref.canInterface, decide_eq_true_eq, hindex]
  exact Access.through_eq_free.trans (by simp)

theorem mem_nested_of_element {e : Loc B} (hel : Element h model.loc e)
    (htype : ∀ u, h.typeOf e = some u → ∃ m, u.deref = .struct m ∧ (impl m).isSome = true)
    (has : ∀ r : Ref B, r.loc = e → r.addressable = true → r.canInterface = true →
      asTranslatable impl h r = some t) : t ∈ nested impl h model := by
  obtain ⟨n, vs, i, f, es, hread, hf, hexp, hv, he⟩ := hel
  obtain ⟨u, hfu, heu⟩ := exists_elem_type hread hf hv he
  obtain ⟨m, hum, hm⟩ := htype u heu
  have hslice : isTranslatableSlice impl f.type = true := by
    simp [hfu, isTranslatableSlice, hum, hm]
  unfold nested
  rw [hread]
  refine mem_flatMap.mpr ⟨(f, i), mem_zipIdx_iff_getElem?.mpr hf, ?_⟩
  simp only [hslice, if_true, hv, getD_some]
  exact mem_filterMap.mpr ⟨e, he, has _ rfl rfl (canInterface_index.trans hexp)⟩

theorem mem_nested_iff : t ∈ nested impl h model ↔ Held impl h model.loc t := by
  constructor
  · intro ht
    unfold nested at ht
    split at ht
    · next n vs hread =>
      obtain ⟨⟨f, i⟩, hfi, ht⟩ := mem_flatMap.mp ht
      have hf := mem_zipIdx_iff_getElem?.mp hfi
      dsimp only at ht
      split at ht
      · split at ht
        · next es hes =>
          obtain ⟨e, he, ht⟩ := mem_filterMap.mp ht
          obtain ⟨hcan, ht⟩ := (asTranslatable_eq_some_iff rfl).mp ht
          rw [canInterface_index] at hcan
          have hel : Element h model.loc e := by
            cases es with
            | none => cases he
            | some es => exact ⟨n, vs, i, f, es, hread, hf, hcan, hes, he⟩
          obtain ⟨l, m, ws, hel', hl, hm, rfl⟩ | ⟨m, ws, hel', hm, rfl⟩ |
            ⟨m, ws, hel', hm, rfl⟩ := ht
          · exact .behind hel hel' hl hm
          · exact .address hel hel' hm
          · exact .value hel hel' hm
        · cases ht
      · cases ht
    · cases ht
  · intro ht
    cases ht with
    | behind hel he hl hm =>
      refine mem_nested_of_element hel ?_ ?_
      · intro u hu
        obtain ⟨u', rfl, hu'⟩ := h.typeOf_target hu he
        obtain rfl := h.typeOf_eq_struct hu' hl
        exact ⟨_, rfl, hm⟩
      · intro r hr hadd hcan
        exact (asTranslatable_eq_some_iff hadd).mpr ⟨hcan, .inl ⟨_, _, _, hr ▸ he, hl, hm, rfl⟩⟩
    | address hel he hm =>
      refine mem_nested_of_element hel ?_ ?_
      · intro u hu
        obtain rfl := h.typeOf_eq_struct hu he
        exact ⟨_, rfl, by simp [hm]⟩
      · intro r hr hadd hcan
        exact (asTranslatable_eq_some_iff hadd).mpr
          ⟨hcan, .inr (.inl ⟨_, _, hr ▸ he, hm, by rw [hr]⟩)⟩
    | value hel he hm =>
      refine mem_nested_of_element hel ?_ ?_
      · intro u hu
        obtain rfl := h.typeOf_eq_struct hu he
        exact ⟨_, rfl, by simp [hm]⟩
      · intro r hr hadd hcan
        exact (asTranslatable_eq_some_iff hadd).mpr
          ⟨hcan, .inr (.inr ⟨_, _, hr ▸ he, hm, by rw [hr]⟩)⟩

end Held

section Graph

variable (impl : N → Option Receiver) (h : Heap E B)

/-- `b` is a model in an exported slice field of `a`. -/
def Child (a b : Loc B) : Prop := ∃ t, Held impl h a t ∧ t.loc = b

/-- `b` is such a model that comes out as a copy, seen from its end. -/
def CopyOf (b a : Loc B) : Prop := Held impl h a (.copy b)

/-- Some model that the root is or reaches holds `x` by a pointer, or as a value whose type
implements `Translatable` only on the pointer. -/
def ByPointer (root x : Loc B) : Prop :=
  ∃ a, Relation.ReflTransGen (Child impl h) root a ∧ Held impl h a (.pointer x)

variable {impl h} {root x : Loc B} {s t : Translatable B}

theorem child_of_next (hst : Traverse.Next (nested impl h) s t) :
    Child impl h s.loc t.loc := ⟨t, mem_nested_iff.mp hst, rfl⟩

theorem reach_of_handles (hst : Relation.ReflTransGen (Traverse.Next (nested impl h)) s t) :
    Relation.ReflTransGen (Child impl h) s.loc t.loc :=
  hst.lift Translatable.loc fun _ _ => child_of_next

/-- What is reached in the graph is reached by the traversal, in some form. -/
theorem exists_handle (s : Translatable B) (hx : Relation.ReflTransGen (Child impl h) s.loc x) :
    ∃ t, t.loc = x ∧ Relation.ReflTransGen (Traverse.Next (nested impl h)) s t := by
  induction hx with
  | refl => exact ⟨s, rfl, .refl⟩
  | tail _ hbc ih =>
    obtain ⟨t, rfl, hst⟩ := ih
    obtain ⟨u, hu, rfl⟩ := hbc
    exact ⟨u, rfl, hst.tail (mem_nested_iff.mpr hu)⟩

theorem exists_handle_of_transGen (s : Translatable B)
    (hx : Relation.TransGen (Child impl h) s.loc x) :
    ∃ t, t.loc = x ∧ Relation.TransGen (Traverse.Next (nested impl h)) s t := by
  obtain ⟨b, hb, t, ht, rfl⟩ := Relation.TransGen.tail'_iff.mp hx
  obtain ⟨u, rfl, hu⟩ := exists_handle s hb
  exact ⟨t, rfl, .tail' hu (mem_nested_iff.mpr ht)⟩

theorem acc_copyOf_iff :
    Acc (Traverse.Unguarded (visitedKey h) (nested impl h)) t ↔ Acc (CopyOf impl h) t.loc := by
  constructor
  · intro hacc
    induction hacc with
    | intro t _ ih =>
      refine Acc.intro _ fun b hb => ?_
      exact ih (.copy b) ⟨mem_nested_iff.mpr hb, rfl⟩
  · intro hacc
    generalize hx : t.loc = x at hacc
    induction hacc generalizing t with
    | intro x _ ih =>
      subst hx
      refine Acc.intro _ fun s hs => ?_
      cases s with
      | pointer l => cases hs.2
      | copy l => exact ih l (mem_nested_iff.mp hs.1) rfl

section Collected

variable {res : List (Translatable B)} {visited : List Nat}
  (haddr : ∀ a b, Relation.ReflTransGen (Child impl h) root a →
    Relation.ReflTransGen (Child impl h) root b → h.address a = h.address b → a = b)

include haddr

theorem mem_collectNested {depth : Nat}
    (hcol : collectNested impl h depth (.pointer root) [] = some (res, visited))
    {t : Translatable B}
    (ht : Relation.TransGen (Traverse.Next (nested impl h)) (.pointer root) t) : t ∈ res := by
  refine Traverse.collect_complete hcol ?_ t ht
  intro x y k hx hy hxk hyk
  cases x with
  | copy l => cases hxk
  | pointer l =>
    cases y with
    | copy l' => cases hyk
    | pointer l' =>
      have haa : h.address l = h.address l' := Option.some.inj (hxk.trans hyk.symm)
      obtain rfl := haddr l l' (reach_of_handles hx) (reach_of_handles hy) haa
      exact List.Subset.refl _

/-- Where the collection ends, no chain of copies is infinite. -/
theorem acc_of_collectNested {depth : Nat}
    (hcol : collectNested impl h depth (.pointer root) [] = some (res, visited))
    (hx : Relation.ReflTransGen (Child impl h) root x) : Acc (CopyOf impl h) x := by
  obtain ⟨s, rfl, hs⟩ := exists_handle (.pointer root) hx
  refine Acc.intro _ fun b hb => ?_
  have hmem := mem_collectNested haddr hcol (.tail' hs (mem_nested_iff.mpr hb))
  obtain ⟨m, seen, r, hend⟩ := (Traverse.collect_sound hcol _ hmem).2
  exact acc_copyOf_iff.mp (Traverse.acc_of_collect rfl hend)

end Collected

/-- In a finite graph without infinite chains of copies the collection ends. -/
theorem exists_collectNested (hfin : {x | Relation.ReflTransGen (Child impl h) root x}.Finite)
    (hacc : ∀ x, Relation.ReflTransGen (Child impl h) root x → Acc (CopyOf impl h) x) :
    ∃ depth res visited,
      collectNested impl h depth (.pointer root) [] = some (res, visited) := by
  have hkeys : ∀ t k, Relation.ReflTransGen (Traverse.Next (nested impl h)) (.pointer root) t →
      visitedKey h t = some k → k ∈ (hfin.image h.address).toFinset := by
    intro t k ht hk
    cases t with
    | copy l => cases hk
    | pointer l =>
      cases hk
      exact (Set.Finite.mem_toFinset _).mpr ⟨l, reach_of_handles ht, rfl⟩
  obtain ⟨depth, ⟨res, visited⟩, hcol⟩ := Traverse.exists_collect hkeys
    (fun t ht => acc_copyOf_iff.mpr (hacc _ (reach_of_handles ht))) []
  exact ⟨depth, res, visited, hcol⟩

theorem collectNestedTranslatables_unique {model : Translatable B} {n m : Nat}
    {res res' : List (Translatable B)}
    (hn : collectNestedTranslatables impl h n model = some res)
    (hm : collectNestedTranslatables impl h m model = some res') : res = res' := by
  obtain ⟨r, hr, rfl⟩ := map_eq_some_iff.mp hn
  obtain ⟨r', hr', rfl⟩ := map_eq_some_iff.mp hm
  have h₁ := Traverse.collect_mono (Nat.le_max_left n m) hr
  have h₂ := Traverse.collect_mono (Nat.le_max_right n m) hr'
  rw [Option.some.inj (h₁.symm.trans h₂)]

end Graph

section Translated

variable [DecidableEq B] (impl : N → Option Receiver) (h : Heap E B)

/-- Whatever can be set in the model at `x` is set there through `t`. -/
def Changes (t : Translatable B) (x : Loc B) : Prop :=
  ∀ fieldName value h', setFieldValue h (.pointer x) fieldName value = .ok h' →
    setFieldValue h t fieldName value = .ok h'

/-- The collection ends, and every model that is reached is found in a form that changes it. -/
def Translated (root : Loc B) : Prop :=
  ∃ depth res, collectNestedTranslatables impl h depth (.pointer root) = some res ∧
    ∀ x, Relation.TransGen (Child impl h) root x → ∃ t ∈ res, t.loc = x ∧ Changes h t x

/-- Every string that can be set in the model lies behind one of its pointers. -/
def BehindPointers (x : Loc B) : Prop :=
  ∀ fieldName r k a, valueByPath h (Translatable.copy x).ref (splitDots fieldName) = some r →
    r.access = .free → h.read r.loc = some (.string k a) → r.addressable = true

variable {impl h} {root x : Loc B}

theorem changes_copy_iff {m : N} (hx : h.typeOf x = some (.struct m)) :
    Changes h (.copy x) x ↔ BehindPointers h x := by
  have hiff : ∀ {model : Translatable B} {fieldName value : String} {h' : Heap E B},
      model.loc = x → (setFieldValue h model fieldName value = .ok h' ↔ _) :=
    fun hm => setFieldValue_eq_ok_iff (hm ▸ hx)
  have hform : (Translatable.pointer x).loc = (Translatable.copy x).loc := rfl
  constructor
  · intro hch fieldName r k a hr hfree hread
    obtain ⟨r', hr', hloc, hacc⟩ := valueByPath_form hform hr
    have hcan : r'.canSet = true := by
      simp [Ref.canSet, hacc, hfree, enterAll_addressable rfl hr']
    have hok := hch fieldName "" _ ((hiff rfl).mpr ⟨r', k, a, hr', hcan, hloc ▸ hread, rfl⟩)
    obtain ⟨r'', _, _, hr'', hcan'', -, -⟩ := (hiff rfl).mp hok
    obtain rfl := Option.some.inj (hr.symm.trans hr'')
    simp only [Ref.canSet, Bool.and_eq_true] at hcan''
    exact hcan''.1
  · intro hbehind fieldName value h' hok
    obtain ⟨r, k, a, hr, hcan, hread, rfl⟩ := (hiff rfl).mp hok
    obtain ⟨r', hr', hloc, hacc⟩ := valueByPath_form hform.symm hr
    simp only [Ref.canSet, Bool.and_eq_true, decide_eq_true_eq] at hcan
    have hadd := hbehind fieldName r' k a hr' (hacc.trans hcan.2) (hloc ▸ hread)
    have hcan' : r'.canSet = true := by simp [Ref.canSet, hadd, hacc, hcan.2]
    exact (hiff rfl).mpr ⟨r', k, a, hr', hcan', hloc ▸ hread, by rw [hloc]⟩

/-- A model that was collected in a form that changes it is held by a pointer, unless it needs
none. -/
theorem form_of_changes {depth : Nat} {res : List (Translatable B)} {visited : List Nat}
    (hcol : collectNested impl h depth (.pointer root) [] = some (res, visited))
    {t : Translatable B} (ht : t ∈ res) (hch : Changes h t t.loc) :
    ByPointer impl h root t.loc ∨ BehindPointers h t.loc := by
  have hreach := (Traverse.collect_sound hcol t ht).1
  obtain ⟨s, hs, hst⟩ := Relation.TransGen.tail'_iff.mp hreach
  have hheld := mem_nested_iff.mp hst
  cases t with
  | pointer l => exact .inl ⟨s.loc, reach_of_handles hs, hheld⟩
  | copy l =>
    obtain ⟨m, hm⟩ := hheld.typeOf
    exact .inr ((changes_copy_iff hm).mp hch)

/-- In a finite graph in which no two models share an address, all models are translated exactly
when each one is held by a pointer or needs none, and no slice of copies contains itself. -/
theorem nested_models_translated_iff
    (hfin : {x | Relation.ReflTransGen (Child impl h) root x}.Finite)
    (haddr : ∀ a b, Relation.ReflTransGen (Child impl h) root a →
      Relation.ReflTransGen (Child impl h) root b → h.address a = h.address b → a = b) :
    Translated impl h root ↔
      (∀ x, Relation.TransGen (Child impl h) root x →
        ByPointer impl h root x ∨ BehindPointers h x) ∧
      ∀ x, Relation.ReflTransGen (Child impl h) root x → Acc (CopyOf impl h) x := by
  constructor
  · rintro ⟨depth, res, hres, hall⟩
    obtain ⟨⟨res', visited⟩, hcol, rfl⟩ := map_eq_some_iff.mp hres
    refine ⟨?_, fun x => acc_of_collectNested haddr hcol⟩
    intro x hx
    obtain ⟨t, ht, rfl, hch⟩ := hall x hx
    exact form_of_changes hcol ht hch
  · rintro ⟨hform, hacc⟩
    obtain ⟨depth, res, visited, hcol⟩ := exists_collectNested hfin hacc
    refine ⟨depth, res, by rw [collectNestedTranslatables, hcol]; rfl, ?_⟩
    intro x hx
    rcases hform x hx with ⟨a, ha, hheld⟩ | hbehind
    · obtain ⟨s, rfl, hs⟩ := exists_handle (.pointer root) ha
      have hmem := mem_collectNested haddr hcol (.tail' hs (mem_nested_iff.mpr hheld))
      exact ⟨.pointer x, hmem, rfl, fun _ _ _ hok => hok⟩
    · obtain ⟨t, rfl, ht⟩ := exists_handle_of_transGen (.pointer root) hx
      refine ⟨t, mem_collectNested haddr hcol ht, rfl, ?_⟩
      cases t with
      | pointer l => exact fun _ _ _ hok => hok
      | copy l =>
        obtain ⟨s, -, hst⟩ := Relation.TransGen.tail'_iff.mp ht
        obtain ⟨m, hm⟩ := (mem_nested_iff.mp hst).typeOf
        exact (changes_copy_iff hm).mpr hbehind

end Translated

section Examples

/-- A tag with the tags below it as values. -/
def tagTypes : Types Unit where
  fields _ := [
    ⟨"ID", true, false, [("translate", "primary")], .string none⟩,
    ⟨"Title", true, false, [("translate", "title")], .string none⟩,
    ⟨"Children", true, false, [], .slice (.struct ())⟩]

/-- A tag, the variable `false`, with one child, the variable `true`, which may be its own
child. -/
def tags (again : Bool) : Heap tagTypes Bool where
  type _ := .struct ()
  value b :=
    if b then .struct () [.string none "2", .string none "B",
      .slice (if again then some [⟨true, []⟩] else none)]
    else .struct () [.string none "1", .string none "A", .slice (some [⟨true, []⟩])]
  address l := if l.base then 128 else 64
  typed := by cases again <;> decide

theorem tags_child {a x : Loc Bool} (ha : a = ⟨false, []⟩ ∨ a = ⟨true, []⟩)
    (hx : Child (fun _ => some .pointer) (tags false) a x) : x = ⟨true, []⟩ := by
  obtain ⟨t, ht, rfl⟩ := hx
  have hmem : t ∈ nested (fun _ => some .pointer) (tags false) (.pointer a) :=
    mem_nested_iff.mpr ht
  have hnested : ∀ b : Bool, ∀ t ∈ nested (fun _ => some .pointer) (tags false)
      (.pointer ⟨b, []⟩), t.loc = ⟨true, []⟩ := by decide
  rcases ha with rfl | rfl
  · exact hnested false t hmem
  · exact hnested true t hmem

theorem tags_reach {x : Loc Bool}
    (hx : Relation.ReflTransGen (Child (fun _ => some .pointer) (tags false)) ⟨false, []⟩ x) :
    x = ⟨false, []⟩ ∨ x = ⟨true, []⟩ := by
  induction hx with
  | refl => exact .inl rfl
  | tail _ hbc ih => exact .inr (tags_child ih hbc)

theorem nested_models_translated_tags :
    Translated (fun _ => some .pointer) (tags false) ⟨false, []⟩ := by
  have hfin : {x | Relation.ReflTransGen (Child (fun _ => some .pointer) (tags false))
      ⟨false, []⟩ x}.Finite := by
    refine Set.Finite.subset (Set.toFinite {⟨false, []⟩, ⟨true, []⟩}) fun x hx => ?_
    simpa using tags_reach hx
  have hnext : .pointer ⟨true, []⟩ ∈ nested (fun _ => some .pointer) (tags false)
      (.pointer ⟨false, []⟩) := by decide
  refine (nested_models_translated_iff hfin ?_).mpr ⟨?_, ?_⟩
  · intro a b ha hb hab
    rcases tags_reach ha with rfl | rfl <;> rcases tags_reach hb with rfl | rfl
    · rfl
    · exact absurd hab (by decide)
    · exact absurd hab (by decide)
    · rfl
  · intro x hx
    obtain ⟨a, ha, hax⟩ := Relation.TransGen.tail'_iff.mp hx
    rw [tags_child (tags_reach ha) hax]
    exact .inl ⟨⟨false, []⟩, .refl, mem_nested_iff.mp hnext⟩
  · intro x hx
    refine Acc.intro x fun y hy => ?_
    cases hy with
    | value _ _ hm => cases hm

/-- A shelf with a box inside it, and pointers to boxes. -/
def shelfTypes : Types Bool where
  fields n :=
    if n then [⟨"ID", true, false, [("translate", "primary")], .string none⟩,
      ⟨"Items", true, false, [], .slice (.pointer (.struct true))⟩]
    else [⟨"First", true, false, [], .struct true⟩,
      ⟨"Boxes", true, false, [], .slice (.pointer (.struct true))⟩]

/-- The shelf is the variable `0`. Its list of boxes has the box inside it, which begins at the
address of the shelf, and the list of that box has the box `3`. -/
def shelf : Heap shelfTypes (Fin 4) where
  type b := if b = 0 then .struct false else if b = 3 then .struct true else .pointer (.struct true)
  value b :=
    if b = 0 then
      .struct false [.struct true [.string none "1", .slice (some [⟨2, []⟩])],
        .slice (some [⟨1, []⟩])]
    else if b = 3 then .struct true [.string none "2", .slice none]
    else if b = 1 then .pointer (some ⟨0, [0]⟩)
    else .pointer (some ⟨3, []⟩)
  address l := 64 * l.base.val + 8 * l.path.sum
  typed := by decide

/-- Elements that implement `Translatable` on the value are collected as copies that cannot be
set; if such a slice contains itself the collection does not end; and of two models at one
address only one is followed. -/
theorem nested_models_missed :
    ¬ Translated (fun _ => some .value) (tags false) ⟨false, []⟩ ∧
    (∀ depth, collectNestedTranslatables (fun _ => some .value) (tags true) depth
      (.pointer ⟨false, []⟩) = none) ∧
    ¬ Translated (fun _ => some .pointer) shelf ⟨0, []⟩ := by
  refine ⟨?_, ?_, ?_⟩
  · rintro ⟨depth, res, hres, hall⟩
    have hres' : collectNestedTranslatables (fun _ => some .value) (tags false) 2
        (.pointer ⟨false, []⟩) = some [.copy ⟨true, []⟩] := by decide
    obtain rfl := collectNestedTranslatables_unique hres hres'
    have hnext : .copy ⟨true, []⟩ ∈ nested (fun _ => some .value) (tags false)
        (.pointer ⟨false, []⟩) := by decide
    obtain ⟨t, ht, -, hch⟩ := hall ⟨true, []⟩ (.single (child_of_next hnext))
    obtain rfl := mem_singleton.mp ht
    have hok : setFieldValue (tags false) (.copy ⟨true, []⟩) "Title" "x" = .ok _ :=
      hch "Title" "x" _ rfl
    have herr : setFieldValue (tags false) (.copy ⟨true, []⟩) "Title" "x" =
        .error (.text "field Title cannot be set") := rfl
    rw [herr] at hok
    cases hok
  · intro depth
    have hfirst : .copy ⟨true, []⟩ ∈ nested (fun _ => some .value) (tags true)
        (.pointer ⟨false, []⟩) := by decide
    have hloop : .copy ⟨true, []⟩ ∈ nested (fun _ => some .value) (tags true)
        (.copy ⟨true, []⟩) := by decide
    have hnone : Traverse.collect (visitedKey (tags true)) (nested (fun _ => some .value)
        (tags true)) depth (.pointer ⟨false, []⟩) [] = none :=
      Traverse.collect_eq_none_of_loop rfl hloop hfirst (by decide)
    rw [collectNestedTranslatables, collectNested, hnone]
    rfl
  · rintro ⟨depth, res, hres, hall⟩
    have hres' : collectNestedTranslatables (fun _ => some .pointer) shelf 3
        (.pointer ⟨0, []⟩) = some [.pointer ⟨0, [0]⟩] := by decide
    obtain rfl := collectNestedTranslatables_unique hres hres'
    have hfirst : .pointer ⟨0, [0]⟩ ∈ nested (fun _ => some .pointer) shelf
        (.pointer ⟨0, []⟩) := by decide
    have hnext : .pointer ⟨3, []⟩ ∈ nested (fun _ => some .pointer) shelf
        (.pointer ⟨0, [0]⟩) := by decide
    have hreach : Relation.TransGen (Child (fun _ => some .pointer) shelf) ⟨0, []⟩ ⟨3, []⟩ :=
      .tail (.single (child_of_next hfirst)) (child_of_next hnext)
    obtain ⟨t, ht, hloc, -⟩ := hall ⟨3, []⟩ hreach
    obtain rfl := mem_singleton.mp ht
    revert hloc
    decide

end Examples

end Skit.Translation
