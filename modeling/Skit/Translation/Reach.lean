import Skit.Lib.Commute
import Skit.Translation.Copies

/-!
# What a translation leaves within reach

A text that is set in a model may make a struct of the model zero and so close ways into it, but
it opens none: a zero struct is not entered, so nothing is set in it. This is why translations
that have been applied can be applied again without any change.
-/
namespace Skit.Translation
open Lib Reflect List Option Value

variable {N B : Type} [DecidableEq N] {E : Types N}

section Ways

/-- The place behind a pointer, and any other place itself. -/
def pointed (h : Heap E B) (l : Loc B) : Option (Loc B) :=
  match h.read l with
  | some (.pointer target) => target
  | _ => some l

/-- The place of a field of the struct at `c`. -/
def fieldAt (h : Heap E B) (c : Loc B) (name : String) : Option (Loc B) :=
  match h.read c with
  | some (.struct n _) => (E.fieldByName n name).map fun (_, i) => c.child i
  | _ => none

/-- The place at the end of a path, through zero structs too. -/
def follow (h : Heap E B) : Loc B → List String → Option (Loc B)
  | l, [] => some l
  | l, name :: path =>
    (pointed h l).bind fun c => (fieldAt h c name).bind fun l' => follow h l' path

/-- The places of the structs that a path goes through. -/
def passed (h : Heap E B) : Loc B → List String → List (Loc B)
  | _, [] => []
  | l, name :: path =>
    (pointed h l).elim [] fun c => c :: (fieldAt h c name).elim [] fun l' => passed h l' path

variable {h g : Heap E B} {nested : Bool} {r r' cur : Ref B} {name : String} {path : List String}
  {l q : Loc B} {s : String}

theorem pointed_of_deref (hd : h.deref r = some cur) : pointed h r.loc = some cur.loc := by
  unfold pointed
  obtain ⟨l, hl, rfl⟩ | ⟨hno, rfl⟩ := Heap.deref_eq_some_iff.mp hd
  · rw [hl]
    rfl
  · split
    · next target htarget => exact absurd htarget (hno target)
    · rfl

theorem enter_place (hr : enter h nested r name = some r') :
    ∃ c, pointed h r.loc = some c ∧ fieldAt h c name = some r'.loc := by
  obtain ⟨cur, n, vs, f, i, hd, hs, -, hf, rfl⟩ := enter_eq_some_iff.mp hr
  exact ⟨cur.loc, pointed_of_deref hd, by simp [fieldAt, hs, hf, Ref.field]⟩

theorem follow_of_enterAll (hr : enterAll h nested r path = some r') :
    follow h r.loc path = some r'.loc := by
  induction path generalizing nested r with
  | nil =>
    cases hr
    rfl
  | cons name path ih =>
    obtain ⟨r₁, hr₁, hr⟩ := bind_eq_some_iff.mp hr
    obtain ⟨c, hc, hl⟩ := enter_place hr₁
    rw [follow, hc, bind_some, hl]
    exact ih hr

theorem pointed_alike (hg : h.Alike g) (l : Loc B) : pointed g l = pointed h l := by
  unfold pointed
  cases hl : h.read l with
  | none => simp [hg.read_none hl]
  | some v =>
    cases v with
    | pointer target => simp [hg.pointer hl]
    | _ =>
      obtain ⟨w, hw, ho⟩ := hg.exists_read hl
      cases w <;> simp_all [outline]

theorem fieldAt_alike (hg : h.Alike g) (c : Loc B) (name : String) :
    fieldAt g c name = fieldAt h c name := by
  unfold fieldAt
  cases hc : h.read c with
  | none => simp [hg.read_none hc]
  | some v =>
    obtain ⟨w, hw, ho⟩ := hg.exists_read hc
    cases v <;> cases w <;> simp_all [outline]

theorem follow_alike (hg : h.Alike g) (l : Loc B) (path : List String) :
    follow g l path = follow h l path := by
  induction path generalizing l with
  | nil => rfl
  | cons name path ih => simp only [follow, pointed_alike hg, fieldAt_alike hg, ih]

theorem passed_alike (hg : h.Alike g) (l : Loc B) (path : List String) :
    passed g l path = passed h l path := by
  induction path generalizing l with
  | nil => rfl
  | cons name path ih => simp only [passed, pointed_alike hg, fieldAt_alike hg, ih]

theorem mem_passed_head (hd : h.deref r = some cur) :
    cur.loc ∈ passed h r.loc (name :: path) := by
  simp [passed, pointed_of_deref hd]

theorem mem_passed_tail (hr : enter h nested r name = some r') {c : Loc B}
    (hc : c ∈ passed h r'.loc path) : c ∈ passed h r.loc (name :: path) := by
  obtain ⟨d, hd, hl⟩ := enter_place hr
  simp [passed, hd, hl, hc]

theorem follow_place (hne : path ≠ []) (hq : follow h l path = some q) :
    ∃ c ∈ passed h l path, ∃ i, q = c.child i := by
  induction path generalizing l with
  | nil => exact absurd rfl hne
  | cons name path ih =>
    obtain ⟨c, hc, hq⟩ := bind_eq_some_iff.mp hq
    obtain ⟨l', hl', hq⟩ := bind_eq_some_iff.mp hq
    cases path with
    | nil =>
      cases hq
      refine ⟨c, by simp [passed, hc], ?_⟩
      unfold fieldAt at hl'
      split at hl'
      · obtain ⟨⟨f, i⟩, -, rfl⟩ := map_eq_some_iff.mp hl'
        exact ⟨i, rfl⟩
      · cases hl'
    | cons name' path =>
      obtain ⟨d, hd, i, hi⟩ := ih (by simp) hq
      refine ⟨d, ?_, i, hi⟩
      rw [passed, hc, elim_some, hl']
      exact mem_cons_of_mem _ hd

theorem enterAll_parent (hne : path ≠ []) (hr : enterAll h nested r path = some r') :
    ∃ c i n vs, r'.loc = c.child i ∧ h.read c = some (.struct n vs) ∧
      ((struct n vs).isZero = false ∨
        nested = false ∧ ∃ cur, h.deref r = some cur ∧ cur.loc = c) := by
  induction path generalizing nested r with
  | nil => exact absurd rfl hne
  | cons name path ih =>
    obtain ⟨r₁, hr₁, hr⟩ := bind_eq_some_iff.mp hr
    cases path with
    | nil =>
      cases hr
      obtain ⟨cur, n, vs, f, i, hd, hs, hz, -, rfl⟩ := enter_eq_some_iff.mp hr₁
      refine ⟨cur.loc, i, n, vs, rfl, hs, ?_⟩
      cases nested with
      | true => exact .inl (hz rfl)
      | false => exact .inr ⟨rfl, cur, hd, rfl⟩
    | cons name' path =>
      obtain ⟨c, i, n, vs, hloc, hs, hz | ⟨hno, -⟩⟩ := ih (by simp) hr
      · exact ⟨c, i, n, vs, hloc, hs, .inl hz⟩
      · cases hno

variable [DecidableEq B]

theorem enterAll_setString_apart (hq : ∀ c ∈ passed h r.loc path, ¬ q.Within c) :
    enterAll (h.setString q s) nested r path = enterAll h nested r path := by
  induction path generalizing nested r with
  | nil => rfl
  | cons name path ih =>
    have hent : enter (h.setString q s) nested r name = enter h nested r name := by
      simp only [enterFrom, home_self, h.deref_setString]
      refine bind_congr fun cur hd => ?_
      rw [h.read_setString_apart (hq _ (mem_passed_head hd))]
    simp only [enterAllFrom, hent]
    refine bind_congr fun r₁ hr₁ => ih fun c hc => ?_
    exact hq c (mem_passed_tail hr₁ hc)

theorem enterAll_write_apart {ws : List (Loc B × String)}
    (hws : ∀ w ∈ ws, ∀ c ∈ passed h r.loc path, ¬ w.1.Within c) :
    enterAll (h.write ws) nested r path = enterAll h nested r path := by
  induction ws generalizing h with
  | nil => rfl
  | cons w ws ih =>
    obtain ⟨hw, hws⟩ := forall_mem_cons.mp hws
    refine Eq.trans (ih (h := h.setString w.1 w.2) ?_) (enterAll_setString_apart hw)
    rwa [passed_alike (h.alike_setString w.1 w.2)]

end Ways

section Narrowing

variable [DecidableEq B] {h : Heap E B} {nested : Bool} {r r' : Ref B} {name : String}
  {path : List String} {c : Loc B} {i : Nat} {n : N} {vs : List (Value N B)} {k : Option N}
  {a s : String}

/-- A text in a struct that is not zero leaves the zero structs zero. -/
theorem isZero_of_setString_read (hc : h.read c = some (.struct n vs))
    (hz : (struct n vs).isZero = false) (hq : h.read (c.child i) = some (.string k a))
    {d : Loc B} {m : N} {ws ws' : List (Value N B)} (hd : h.read d = some (.struct m ws))
    (hd' : (h.setString (c.child i) s).read d = some (.struct m ws'))
    (hzero : (struct m ws).isZero = true) : (struct m ws').isZero = true := by
  obtain hr | ⟨p, hb, hp, hr⟩ := h.read_setString (c.child i) d s
  · rw [hr, hd] at hd'
    cases hd'
    exact hzero
  · -- the text lies in `d`: then so does its struct, or the two are one place
    exfalso
    rcases eq_nil_or_concat p with rfl | ⟨p', j, rfl⟩
    · obtain ⟨b, pd⟩ := d
      simp only [Loc.child, append_nil] at hb hp
      have hsame : c.child i = ⟨b, pd⟩ := by rw [Loc.child, hb, hp]
      rw [hsame, hd] at hq
      cases hq
    · rw [concat_eq_append, ← append_assoc] at hp
      have hpath : c.path = d.path ++ p' := (append_inj' hp rfl).1
      have hplace : c = ⟨d.base, d.path ++ p'⟩ := by
        obtain ⟨b, p⟩ := c
        exact congrArg₂ Loc.mk hb hpath
      have hget := h.read_append d p'
      rw [← hplace, hd, hc] at hget
      rw [isZero_get hzero hget.symm] at hz
      cases hz

theorem enterAll_of_setString (hc : h.read c = some (.struct n vs))
    (hz : (struct n vs).isZero = false) (hq : h.read (c.child i) = some (.string k a))
    (hr : enterAll (h.setString (c.child i) s) nested r path = some r') :
    enterAll h nested r path = some r' := by
  induction path generalizing nested r with
  | nil => exact hr
  | cons name path ih =>
    obtain ⟨r₁, hr₁, hr⟩ := bind_eq_some_iff.mp hr
    refine bind_eq_some_iff.mpr ⟨r₁, ?_, ih hr⟩
    obtain ⟨cur, m, ws', f, j, hd, hs', hz', hf, rfl⟩ := enter_eq_some_iff.mp hr₁
    obtain ⟨ws, hs⟩ := (h.alike_setString (c.child i) s).symm.struct hs'
    rw [h.deref_setString] at hd
    refine enter_eq_some_iff.mpr ⟨cur, m, ws, f, j, hd, hs, ?_, hf, rfl⟩
    intro hn
    by_contra hne
    have hzero := isZero_of_setString_read hc hz hq hs hs' (by simpa using hne)
    rw [hz' hn] at hzero
    cases hzero

/-- From a zero struct no path goes further than to its fields, not even when one of them is
set. -/
theorem eq_nil_of_enterAll_zero {root : Ref B} (hc : h.read root.loc = some (.struct n vs))
    (hz : (struct n vs).isZero = true) (hq : h.read (root.loc.child i) = some (.string k a))
    {f : StructField N} {j : Nat}
    (hr : enterAll (h.setString (root.loc.child i) s) true (root.field f j) path = some r') :
    path = [] := by
  cases path with
  | nil => rfl
  | cons name path =>
    exfalso
    obtain ⟨r₁, hr₁, -⟩ := bind_eq_some_iff.mp hr
    obtain ⟨cur, m, ws, g, l, hd, hs, hzs, -, -⟩ := enter_eq_some_iff.mp hr₁
    rw [h.deref_setString] at hd
    have hchild : ∀ w, h.read (root.loc.child j) = some w → w.isZero = true := by
      intro w hw
      have hget := h.read_append root.loc [j]
      rw [hc] at hget
      exact isZero_get hz (hget.symm.trans hw)
    unfold Heap.deref at hd
    split at hd
    · next target htarget =>
      have hnil := hchild _ htarget
      cases target with
      | none => cases hd
      | some l => cases hnil
    · cases hd
      by_cases hij : j = i
      · subst hij
        obtain ⟨b, hb⟩ := (h.alike_setString (root.loc.child j) s).string hq
        have hs' : (h.setString (root.loc.child j) s).read (root.loc.child j) =
            some (.struct m ws) := hs
        rw [hb] at hs'
        cases hs'
      · have hne : ¬ (root.loc.child i).Within (root.loc.child j) := by
          rintro ⟨-, hp⟩
          have heq := hp.eq_of_length (by simp [Loc.child])
          exact hij (by simpa [Loc.child] using heq)
        have hs' : h.read (root.loc.child j) = some (.struct m ws) := by
          rw [← h.read_setString_apart hne]
          exact hs
        rw [hchild _ hs'] at hzs
        cases hzs rfl

/-- A text that is set where it could be reached brings nothing else within reach. -/
theorem valueByPath_of_setString {root : Ref B} {m : N} {ws : List (Value N B)}
    (hroot : h.read root.loc = some (.struct m ws)) (hc : h.read c = some (.struct n vs))
    (hz : (struct n vs).isZero = false ∨ c = root.loc)
    (hq : h.read (c.child i) = some (.string k a))
    (hr : valueByPath (h.setString (c.child i) s) root path = some r') :
    valueByPath h root path = some r' := by
  cases hzero : (struct n vs).isZero with
  | false => exact enterAll_of_setString hc hzero hq hr
  | true =>
    obtain rfl : c = root.loc := by simpa [hzero] using hz
    cases path with
    | nil => exact hr
    | cons name path =>
      obtain ⟨r₁, hr₁, hr⟩ := bind_eq_some_iff.mp hr
      obtain ⟨cur, m', ws', f, j, hd, hs, -, hf, rfl⟩ := enter_eq_some_iff.mp hr₁
      rw [h.deref_setString] at hd
      obtain rfl : root = cur := by simpa [Heap.deref, hroot] using hd
      obtain ⟨us, hus⟩ := (h.alike_setString _ s).symm.struct hs
      obtain rfl := eq_nil_of_enterAll_zero hc hzero hq hr
      refine bind_eq_some_iff.mpr ⟨_, ?_, hr⟩
      exact enter_eq_some_iff.mpr ⟨root, m', us, f, j, hd, hus, by simp, hf, rfl⟩

end Narrowing

end Skit.Translation
