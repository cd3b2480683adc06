import Skit.Lib.Reflect

/-!
# Heaps that differ in strings

Setting a string leaves the types, the pointers and the slices of a heap as they are: the heap
stays alike. It can only change which structs are zero, and of these only the ones that contain
the place.
-/
namespace Skit.Lib.Reflect
open List Option

variable {N B : Type}

section Values

/-- The value without its text and without what is inside it. -/
def Value.outline : Value N B → Value N B
  | .string k _ => .string k ""
  | .struct n _ => .struct n []
  | v => v

@[simp] theorem Value.outline_setString (v : Value N B) (s : String) (p : List Nat) :
    (v.setString s p).outline = v.outline := by
  cases v <;> cases p <;> rfl

theorem Value.setString_comm (v : Value N B) (s s' : String) {p p' : List Nat} (hp : p ≠ p') :
    (v.setString s p).setString s' p' = (v.setString s' p').setString s p := by
  induction p generalizing v p' with
  | nil =>
    cases p' with
    | nil => exact absurd rfl hp
    | cons i p' => cases v <;> rfl
  | cons i p ih =>
    cases p' with
    | nil => cases v <;> rfl
    | cons j p' =>
      cases v with
      | struct n vs =>
        simp only [Value.setString]
        congr 1
        refine ext_getElem? fun k => ?_
        simp only [getElem?_modify]
        cases vs[k]? with
        | none => rfl
        | some w =>
          by_cases hi : i = k
          · by_cases hj : j = k
            · have hpp : p ≠ p' := fun h => hp (by rw [hi, hj, h])
              simpa [hi, hj] using ih w hpp
            · simp [hi, hj]
          · simp [hi]
      | _ => rfl

theorem Value.setString_self {v : Value N B} {k : Option N} {s : String} {p : List Nat}
    (hv : v.get p = some (.string k s)) : v.setString s p = v := by
  induction p generalizing v with
  | nil =>
    cases hv
    rfl
  | cons i p ih =>
    obtain ⟨w, hw, hp⟩ := bind_eq_some_iff.mp hv
    cases v with
    | struct n vs =>
      simp only [Value.setString]
      congr 1
      refine ext_getElem? fun j => ?_
      rw [getElem?_modify]
      by_cases hij : i = j
      · subst hij
        rw [show vs[i]? = some w from hw]
        simp [ih hp]
      · simp [hij]
    | _ => rfl

/-- Everything in a zero value is zero. -/
theorem Value.isZero_get {v w : Value N B} {p : List Nat} (hv : v.isZero = true)
    (hw : v.get p = some w) : w.isZero = true := by
  induction p generalizing v with
  | nil =>
    cases hw
    exact hv
  | cons i p ih =>
    obtain ⟨u, hu, hp⟩ := bind_eq_some_iff.mp hw
    cases v with
    | struct n vs =>
      refine ih ?_ hp
      rw [Value.isZero, Value.allZero_iff] at hv
      exact hv u (mem_of_getElem? hu)
    | _ => cases hu

end Values

section Places

/-- The place lies in the struct at `c`, or is it. -/
def Loc.Within (q c : Loc B) : Prop := q.base = c.base ∧ c.path <+: q.path

/-- One of the two places lies in the other. -/
def Loc.Meets (c d : Loc B) : Prop := c.Within d ∨ d.Within c

instance [DecidableEq B] (q c : Loc B) : Decidable (q.Within c) :=
  inferInstanceAs (Decidable (_ ∧ _))

instance [DecidableEq B] (c d : Loc B) : Decidable (c.Meets d) :=
  inferInstanceAs (Decidable (_ ∨ _))

theorem Loc.child_within (c : Loc B) (i : Nat) : (c.child i).Within c :=
  ⟨rfl, prefix_append _ _⟩

/-- A struct that contains a field of `c` meets `c`. -/
theorem Loc.meets_of_child_within {c d : Loc B} {i : Nat} (h : (c.child i).Within d) :
    c.Meets d := by
  obtain ⟨hb, hp⟩ := h
  rcases prefix_concat_iff.mp hp with heq | hpre
  · refine .inr ⟨hb.symm, ?_⟩
    rw [heq]
    exact prefix_append _ _
  · exact .inl ⟨hb, hpre⟩

end Places

section Heaps

variable [DecidableEq N] {E : Types N} {h g k : Heap E B} {l q : Loc B} {r : Ref B} {n : N}
  {vs : List (Value N B)} {s : String}

/-- Two heaps that differ at most in the texts of strings. -/
structure Heap.Alike (h g : Heap E B) : Prop where
  type : g.type = h.type
  address : g.address = h.address
  read : ∀ l, (g.read l).map Value.outline = (h.read l).map Value.outline

theorem Heap.Alike.refl (h : Heap E B) : h.Alike h := ⟨rfl, rfl, fun _ => rfl⟩

section

variable (hg : h.Alike g)
include hg

theorem Heap.Alike.symm : g.Alike h :=
  ⟨hg.type.symm, hg.address.symm, fun l => (hg.read l).symm⟩

theorem Heap.Alike.trans (hk : g.Alike k) : h.Alike k :=
  ⟨hk.type.trans hg.type, hk.address.trans hg.address, fun l => (hk.read l).trans (hg.read l)⟩

theorem Heap.Alike.typeOf (l : Loc B) : g.typeOf l = h.typeOf l := by
  rw [Heap.typeOf, Heap.typeOf, hg.type]

theorem Heap.Alike.exists_read {v : Value N B} (hv : h.read l = some v) :
    ∃ w, g.read l = some w ∧ w.outline = v.outline := by
  have hr := hg.read l
  rw [hv] at hr
  exact map_eq_some_iff.mp hr

theorem Heap.Alike.read_none (hn : h.read l = none) : g.read l = none := by
  simpa [hn] using hg.read l

theorem Heap.Alike.struct (hs : h.read l = some (.struct n vs)) :
    ∃ ws, g.read l = some (.struct n ws) := by
  obtain ⟨w, hw, ho⟩ := hg.exists_read hs
  cases w with
  | struct m ws =>
    simp only [Value.outline, Value.struct.injEq, and_true] at ho
    exact ⟨ws, ho ▸ hw⟩
  | _ => simp [Value.outline] at ho

theorem Heap.Alike.string {a : Option N} {b : String}
    (hs : h.read l = some (.string a b)) : ∃ c, g.read l = some (.string a c) := by
  obtain ⟨w, hw, ho⟩ := hg.exists_read hs
  cases w with
  | string a' c =>
    simp only [Value.outline, Value.string.injEq, and_true] at ho
    exact ⟨c, ho ▸ hw⟩
  | _ => simp [Value.outline] at ho

theorem Heap.Alike.pointer {target : Option (Loc B)}
    (hs : h.read l = some (.pointer target)) : g.read l = some (.pointer target) := by
  obtain ⟨w, hw, ho⟩ := hg.exists_read hs
  cases w with
  | pointer target' => exact hw.trans (congrArg some ho)
  | _ => simp [Value.outline] at ho

theorem Heap.Alike.slice {es : Option (List (Loc B))}
    (hs : h.read l = some (.slice es)) : g.read l = some (.slice es) := by
  obtain ⟨w, hw, ho⟩ := hg.exists_read hs
  cases w with
  | slice es' => exact hw.trans (congrArg some ho)
  | _ => simp [Value.outline] at ho

theorem Heap.Alike.deref (r : Ref B) : g.deref r = h.deref r := by
  cases hr : h.read r.loc with
  | none => simp [Heap.deref, hr, hg.read_none hr]
  | some v =>
    cases v with
    | pointer target => simp [Heap.deref, hr, hg.pointer hr]
    | _ =>
      obtain ⟨w, hw, ho⟩ := hg.exists_read hr
      cases w <;> simp_all [Heap.deref, Value.outline]

end

variable [DecidableEq B]

theorem Heap.alike_setString (h : Heap E B) (l : Loc B) (s : String) :
    h.Alike (h.setString l s) := by
  refine ⟨rfl, rfl, fun q => ?_⟩
  obtain hr | ⟨p, -, -, hr⟩ := h.read_setString l q s
  · rw [hr]
  · rw [hr, Option.map_map]
    exact congrArg (fun f => (h.read q).map f) (funext fun v => v.outline_setString s p)

theorem Heap.read_setString_apart (hq : ¬ l.Within q) :
    (h.setString l s).read q = h.read q := by
  obtain hr | ⟨p, hb, hp, -⟩ := h.read_setString l q s
  · exact hr
  · exact absurd ⟨hb, p, hp.symm⟩ hq

theorem Heap.setString_self {a : Option N} (hl : h.read l = some (.string a s)) :
    h.setString l s = h := by
  have hv : (h.value l.base).setString s l.path = h.value l.base := Value.setString_self hl
  obtain ⟨type, value, address, typed⟩ := h
  simp only [Heap.setString, Heap.mk.injEq, true_and, and_true]
  exact Function.update_eq_self_iff.mpr hv

theorem Heap.setString_comm (h : Heap E B) {s' : String} (hne : l ≠ q) :
    (h.setString l s).setString q s' = (h.setString q s').setString l s := by
  obtain ⟨b, p⟩ := l
  obtain ⟨c, p'⟩ := q
  simp only [Heap.setString, Heap.mk.injEq, true_and, and_true]
  by_cases hbc : b = c
  · subst hbc
    have hp : p ≠ p' := fun hp => hne (by rw [hp])
    simp only [Function.update_self, Function.update_idem]
    rw [Value.setString_comm _ _ _ hp]
  · rw [Function.update_of_ne (Ne.symm hbc), Function.update_of_ne hbc,
      Function.update_comm hbc]

end Heaps

section Writes

variable [DecidableEq N] {E : Types N} [DecidableEq B] {h : Heap E B}
  {ws ws' : List (Loc B × String)} {l : Loc B} {s : String}

/-- The heap after some strings were set, one after the other. -/
def Heap.write (h : Heap E B) (ws : List (Loc B × String)) : Heap E B :=
  ws.foldl (fun h w => h.setString w.1 w.2) h

theorem Heap.write_append : h.write (ws ++ ws') = (h.write ws).write ws' := foldl_append

theorem Heap.alike_write (h : Heap E B) (ws : List (Loc B × String)) : h.Alike (h.write ws) := by
  induction ws generalizing h with
  | nil => exact .refl h
  | cons w ws ih => exact (h.alike_setString w.1 w.2).trans (ih _)

theorem Heap.setString_write (hne : ∀ w ∈ ws, w.1 ≠ l) :
    (h.write ws).setString l s = (h.setString l s).write ws := by
  induction ws generalizing h with
  | nil => rfl
  | cons w ws ih =>
    obtain ⟨hw, hws⟩ := forall_mem_cons.mp hne
    change ((h.setString w.1 w.2).write ws).setString l s = _
    rw [ih hws, h.setString_comm hw]
    rfl

theorem Heap.write_comm (hne : ∀ w ∈ ws, ∀ w' ∈ ws', w.1 ≠ w'.1) :
    (h.write ws).write ws' = (h.write ws').write ws := by
  induction ws' generalizing h with
  | nil => rfl
  | cons w' ws' ih =>
    have hw' : ∀ w ∈ ws, w.1 ≠ w'.1 := fun w hw => hne w hw w' mem_cons_self
    change ((h.write ws).setString w'.1 w'.2).write ws' = _
    rw [h.setString_write hw', ih fun w hw w'' hw'' => hne w hw w'' (mem_cons_of_mem _ hw'')]
    rfl

end Writes

end Skit.Lib.Reflect
