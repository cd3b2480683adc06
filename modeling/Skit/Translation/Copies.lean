import Skit.Lib.Rewrite
import Skit.Translation.Apply

/-!
# Copies in use

`applyTranslationsFrom` sets the fields of a model in use, which a copy has in two heaps. A model
behind a pointer is read and set where it lies; of a copy, only what its pointers lead to is.
-/
namespace Skit.Translation
open Lib.Reflect Option Translatable

variable {N B : Type} [DecidableEq N] {E : Types N}

section Code

variable [DecidableEq B]

def applyTranslationsFrom (copied h : Heap E B) (model : Translatable B)
    (fields : List FieldInfo) (translations : String → Option String) :
    Except Err (Heap E B) :=
  fields.foldlM (applyFieldFrom copied model translations) h

end Code

section Pointers

variable {copied h : Heap E B} {nested : Bool} {r r' : Ref B} {name : String}
  {path : List String} {l : Loc B}

/-- What has an address lies in the present heap, with everything it leads to. -/
theorem enterFrom_of_addressable (hr : r.addressable = true) :
    enterFrom copied h nested r name = enter h nested r name := by
  have hcur : ∀ {cur}, h.deref r = some cur → home copied h cur = h :=
    fun hd => if_pos (h.deref_addressable hd hr)
  refine Option.ext fun r' => ?_
  rw [enterFrom_eq_some_iff, enter_eq_some_iff, home, if_pos hr]
  constructor
  · rintro ⟨cur, n, vs, f, i, hd, hs, hz, hf, rfl⟩
    rw [hcur hd] at hs
    exact ⟨cur, n, vs, f, i, hd, hs, hz, hf, rfl⟩
  · rintro ⟨cur, n, vs, f, i, hd, hs, hz, hf, rfl⟩
    exact ⟨cur, n, vs, f, i, hd, by rwa [hcur hd], hz, hf, rfl⟩

theorem enterAllFrom_of_addressable (hr : r.addressable = true) :
    enterAllFrom copied h nested r path = enterAll h nested r path := by
  induction path generalizing nested r with
  | nil => rfl
  | cons name path ih =>
    rw [enterAllFrom, enterAll, enterFrom_of_addressable hr]
    refine bind_congr fun r₁ hr₁ => ih ?_
    obtain ⟨cur, n, vs, f, i, hd, -, -, -, rfl⟩ := enter_eq_some_iff.mp hr₁
    have hcur := h.deref_addressable hd hr
    exact hcur

theorem valueByPathFrom_pointer :
    valueByPathFrom copied h (pointer l).ref path =
      valueByPath h (pointer l).ref path :=
  enterAllFrom_of_addressable rfl

variable [DecidableEq B]

/-- A model behind a pointer is read and set where it lies. -/
theorem setFieldValueFrom_pointer (fieldName value : String) :
    setFieldValueFrom copied h (.pointer l) fieldName value =
      setFieldValue h (.pointer l) fieldName value := by
  unfold setFieldValueFrom setFieldValue
  rw [valueByPathFrom_pointer]
  rfl

theorem applyTranslationsFrom_pointer (fields : List FieldInfo)
    (translations : String → Option String) :
    applyTranslationsFrom copied h (.pointer l) fields translations =
      applyTranslations h (.pointer l) fields translations := by
  have hstep : applyFieldFrom copied (.pointer l) translations =
      applyField (E := E) (.pointer l) translations := by
    funext h field
    simp only [applyFieldFrom, setFieldValueFrom_pointer]
  rw [applyTranslationsFrom, hstep, applyTranslations]

end Pointers

section Reading

/-- The same value with an address. -/
def addressed (r : Ref B) : Ref B := { r with addressable := true }

variable {copied h : Heap E B} {nested : Bool} {r r' : Ref B} {name : String}
  {path : List String}

theorem enterAllFrom_addressable (hr : r.addressable = true)
    (hend : enterAllFrom copied h nested r path = some r') : r'.addressable = true := by
  rw [enterAllFrom_of_addressable hr] at hend
  exact enterAll_addressable hr hend

theorem enterAllFrom_eq_some_iff (hr : r.addressable = false) (hr' : r'.addressable = false) :
    enterAllFrom copied h nested r path = some r' ↔ enterAll copied nested r path = some r' := by
  have hstep : ∀ {nested r name r₁}, r.addressable = false → r₁.addressable = false →
      (enterFrom copied h nested r name = some r₁ ↔ enter copied nested r name = some r₁) := by
    intro nested r name r₁ hr hr₁
    rw [enterFrom_eq_some_iff, enter_eq_some_iff, home, if_neg (by simp [hr])]
    have hcur : ∀ {cur : Ref B} {f : StructField N} {i : Nat}, r₁ = cur.field f i →
        home copied h cur = copied := by
      rintro cur f i rfl
      exact if_neg (by simpa [Ref.field] using hr₁)
    constructor
    · rintro ⟨cur, n, vs, f, i, hd, hs, hz, hf, hfield⟩
      exact ⟨cur, n, vs, f, i, hd, hcur hfield ▸ hs, hz, hf, hfield⟩
    · rintro ⟨cur, n, vs, f, i, hd, hs, hz, hf, hfield⟩
      exact ⟨cur, n, vs, f, i, hd, (hcur hfield).symm ▸ hs, hz, hf, hfield⟩
  induction path generalizing nested r with
  | nil => exact Iff.rfl
  | cons name path ih =>
    rw [enterAllFrom, enterAll, enterAllFrom, bind_eq_some_iff, bind_eq_some_iff]
    refine exists_congr fun r₁ => ?_
    cases hr₁ : r₁.addressable with
    | false => exact and_congr (hstep hr hr₁) (ih hr₁)
    | true =>
      -- behind a pointer everything has an address
      refine iff_of_false ?_ ?_
      · rintro ⟨-, hend⟩
        rw [enterAllFrom_addressable hr₁ hend] at hr'
        cases hr'
      · rintro ⟨-, hend⟩
        rw [enterAll_addressable hr₁ hend] at hr'
        cases hr'

variable (hg : copied.Alike h)

include hg

theorem enterAllFrom_zero {v : Value N B} (hr : r.addressable = false)
    (hv : h.read r.loc = some v) (hz : v.isZero = true)
    (hend : enterAllFrom copied h nested r path = some r') : r'.addressable = false := by
  induction path generalizing nested r v with
  | nil =>
    cases hend
    exact hr
  | cons name path ih =>
    obtain ⟨r₁, hr₁, hrest⟩ := bind_eq_some_iff.mp hend
    obtain ⟨cur, n, vs, f, i, hd, hs, -, hf, rfl⟩ := enterFrom_eq_some_iff.mp hr₁
    rw [home, if_neg (by simp [hr])] at hd
    obtain ⟨l, hl, rfl⟩ | ⟨-, rfl⟩ := Heap.deref_eq_some_iff.mp hd
    · rw [hg.pointer hl] at hv
      cases hv
      cases hz
    · rw [home, if_neg (by simp [hr])] at hs
      obtain ⟨ws, hws⟩ := hg.struct hs
      obtain rfl := Option.some.inj (hws.symm.trans hv)
      obtain ⟨t, ht, -⟩ := h.exists_typeOf hws
      obtain rfl := h.typeOf_eq_struct ht hws
      obtain ⟨hfield, -⟩ := Types.fieldByName_spec hf
      obtain ⟨w, hw, -⟩ := h.read_of_typeOf (h.typeOf_child ht hfield)
      have hget := h.read_append cur.loc [i]
      rw [hws] at hget
      exact ih (r := cur.field f i) hr hw (Value.isZero_get hz (hget.symm.trans hw)) hrest

theorem enterAll_of_enterAllFrom (hr : r.addressable = false)
    (hend : enterAllFrom copied h nested r path = some r') (hr' : r'.addressable = true) :
    enterAll h nested (addressed r) path = some r' := by
  induction path generalizing nested r with
  | nil =>
    cases hend
    rw [hr] at hr'
    cases hr'
  | cons name path ih =>
    obtain ⟨r₁, hr₁, hrest⟩ := bind_eq_some_iff.mp hend
    obtain ⟨cur, n, vs, f, i, hd, hs, hz, hf, rfl⟩ := enterFrom_eq_some_iff.mp hr₁
    rw [home, if_neg (by simp [hr])] at hd
    refine bind_eq_some_iff.mpr ?_
    obtain ⟨l, hl, rfl⟩ | ⟨hno, rfl⟩ := Heap.deref_eq_some_iff.mp hd
    · have hent : enter h nested (addressed r) name = some ((r.elem l).field f i) :=
        enter_eq_some_iff.mpr ⟨r.elem l, n, vs, f, i,
          Heap.deref_eq_some_iff.mpr (.inl ⟨l, hg.pointer hl, rfl⟩), hs, hz, hf, rfl⟩
      rw [enterAllFrom_of_addressable (r := (r.elem l).field f i) rfl] at hrest
      exact ⟨_, hent, hrest⟩
    · rw [home, if_neg (by simp [hr])] at hs
      obtain ⟨ws, hws⟩ := hg.struct hs
      have hd' : h.deref (addressed cur) = some (addressed cur) := by
        simp [Heap.deref, addressed, hws]
      refine ⟨(addressed cur).field f i, enter_eq_some_iff.mpr
        ⟨addressed cur, n, ws, f, i, hd', hws, fun _ => ?_, hf, rfl⟩,
        ih (r := cur.field f i) hr hrest⟩
      by_contra hzero
      have hfalse := enterAllFrom_zero hg hr hws (by simpa using hzero) hend
      rw [hr'] at hfalse
      cases hfalse

theorem exists_enterAllFrom (hr : r.addressable = false)
    (hnow : enterAll h nested (addressed r) path = some r')
    (hthen : enterAll copied nested (addressed r) path = some r') :
    ∃ r'', enterAllFrom copied h nested r path = some r'' ∧
      (r''.addressable = true → r'' = r') := by
  induction path generalizing nested r with
  | nil => exact ⟨r, rfl, fun hadd => by rw [hr] at hadd; cases hadd⟩
  | cons name path ih =>
    obtain ⟨r₁, hr₁, hnow⟩ := bind_eq_some_iff.mp hnow
    obtain ⟨r₂, hr₂, hthen⟩ := bind_eq_some_iff.mp hthen
    obtain ⟨cur, n, vs, f, i, hd, hs, hz, hf, rfl⟩ := enter_eq_some_iff.mp hr₁
    obtain ⟨cur', n', vs', f', i', hd', hs', hz', hf', rfl⟩ := enter_eq_some_iff.mp hr₂
    rw [hg.deref, hd'] at hd
    obtain rfl := Option.some.inj hd
    obtain ⟨ws, hws⟩ := hg.struct hs'
    obtain ⟨rfl, -⟩ := Value.struct.inj (Option.some.inj (hws.symm.trans hs))
    obtain ⟨rfl, rfl⟩ := Prod.mk.inj (Option.some.inj (hf'.symm.trans hf))
    obtain ⟨l, hl, rfl⟩ | ⟨hno, rfl⟩ := Heap.deref_eq_some_iff.mp hd'
    · have hent : enterFrom copied h nested r name = some ((r.elem l).field f' i') := by
        refine enterFrom_eq_some_iff.mpr ⟨r.elem l, n', vs, f', i', ?_, hs, hz, hf, rfl⟩
        rw [home, if_neg (by simp [hr])]
        exact Heap.deref_eq_some_iff.mpr (.inl ⟨l, hl, rfl⟩)
      refine ⟨r', bind_eq_some_iff.mpr ⟨_, hent, ?_⟩, fun _ => rfl⟩
      rw [enterAllFrom_of_addressable (r := (r.elem l).field f' i') rfl]
      exact hnow
    · have hent : enterFrom copied h nested r name = some (r.field f' i') := by
        have hhome : home copied h r = copied := if_neg (by simp [hr])
        refine enterFrom_eq_some_iff.mpr ⟨r, n', vs', f', i', ?_, by rw [hhome]; exact hs', hz', hf,
          rfl⟩
        rw [hhome]
        exact Heap.deref_eq_some_iff.mpr (.inr ⟨hno, rfl⟩)
      obtain ⟨r'', hr'', hsame⟩ := ih (r := r.field f' i') hr hnow hthen
      exact ⟨r'', bind_eq_some_iff.mpr ⟨_, hent, hr''⟩, hsame⟩

end Reading

end Skit.Translation
