import Skit.Lib.GoJson
import Mathlib.Tactic.Choose

/-!
# Reading a value back

The document of a value is read into another value of the same type. The result says what the
first value says exactly when the maps of the second one have no keys that the first one lacks
at the same place, and the first one has no pointer to a nil pointer, which its document does
not tell from a nil pointer (`reads`).
-/
namespace Skit.Lib.GoJson
open List Option

variable {N : Type} {E : Types N}

section Covers

/-- The member of an object. -/
def member : Value → String → Option Value
  | .obj members, name => members name
  | _, _ => none

/-- The maps of the value have all the names that the document has at their places, and no pointer
leads to a nil pointer. -/
inductive Covers : Value → Val → Prop
  | bool {a : Value} {b : Bool} : Covers a (.bool b)
  | int {a : Value} {n : Int} : Covers a (.int n)
  | string {a : Value} {s : String} : Covers a (.string s)
  | nilPointer {a : Value} : Covers a .nilPointer
  | pointer {a : Value} {v : Val} : v ≠ .nilPointer → Covers a v → Covers a (.pointer v)
  | nilSlice {a : Value} : Covers a .nilSlice
  | slice {a : Value} {vs : List Val} : (∀ v ∈ vs, Covers .null v) → Covers a (.slice vs)
  | nilMap {a : Value} : (∀ name, member a name = none) → Covers a .nilMap
  | map {a : Value} {es : List (String × Val)} :
      (∀ name, member a name ≠ none → es.lookup name ≠ none) →
      (∀ name v, es.lookup name = some v → Covers ((member a name).getD .null) v) →
      Covers a (.map es)
  | struct {a : Value} {fs : List (String × Val)} :
      (∀ name v, fs.lookup name = some v → Covers ((member a name).getD .null) v) →
      Covers a (.struct fs)

/-- What is written as null is a nil pointer or is not covered. -/
theorem not_covers_of_null {a : Value} {v : Val} (hnull : v.doc = .null) (hne : v ≠ .nilPointer) :
    ¬ Covers a v := by
  intro hc
  induction hc with
  | nilPointer => exact hne rfl
  | pointer hv _ ih => exact ih hnull hv
  | _ => cases hnull

theorem member_doc_struct (fs : List (String × Val)) (name : String) :
    member (Val.struct fs).doc name = (fs.lookup name).map Val.doc :=
  valueMembers_marshal fs name

theorem member_doc_map (es : List (String × Val)) (name : String) :
    member (Val.map es).doc name = (es.lookup name).map Val.doc :=
  valueMembers_marshal es name

/-- A zero value has no keys. -/
theorem covers_zero {v : Val} {t : Ty N} (hv : HasType E v t) :
    Covers (E.zero t).doc v ↔ Covers .null v := by
  induction hv with
  | bool => exact iff_of_true .bool .bool
  | int _ _ => exact iff_of_true .int .int
  | string => exact iff_of_true .string .string
  | nilPointer => exact Iff.rfl
  | pointer _ _ => exact Iff.rfl
  | nilSlice => exact iff_of_true .nilSlice .nilSlice
  | slice _ _ =>
    constructor
    · rintro (_ | _ | _ | _ | _ | _ | hvs)
      exact .slice hvs
    · rintro (_ | _ | _ | _ | _ | _ | hvs)
      exact .slice hvs
  | nilMap => exact iff_of_true (.nilMap fun _ => rfl) (.nilMap fun _ => rfl)
  | map _ _ _ =>
    constructor
    · intro h
      cases h with
      | map hnames hes => exact .map hnames hes
    · intro h
      cases h with
      | map hnames hes => exact .map hnames hes
  | @struct fs n hnames _ ih =>
    have hfield : ∀ name v, fs.lookup name = some v →
        (Covers ((member (E.zero (.struct n)).doc name).getD .null) v ↔ Covers .null v) := by
      intro name v hv
      have hmem : (E.fields n).lookup name ≠ none := by
        rw [← mem_names_iff, ← hnames, mem_names_iff, hv]
        exact some_ne_none v
      obtain ⟨t, ht⟩ := ne_none_iff_exists'.mp hmem
      have hzero : member (E.zero (.struct n)).doc name = some (E.zero t).doc := by
        have hlookup := E.lookup_zero_struct n name
        rw [E.zero_struct] at hlookup ⊢
        rw [member_doc_struct]
        rw [Val.members, ht] at hlookup
        rw [hlookup]
        rfl
      rw [hzero]
      exact ih name v t hv ht
    constructor
    · intro h
      cases h with
      | struct hfs => exact .struct fun name v hv => (hfield name v hv).mp (hfs name v hv)
    · intro h
      cases h with
      | struct hfs => exact .struct fun name v hv => (hfield name v hv).mpr (hfs name v hv)

end Covers

section Documents

variable {j : Json Int}

theorem docOf_eq_null (h : docOf j = .null) : j = .null := by
  cases j with
  | null => rfl
  | _ => cases h

theorem docOf_eq_bool {b : Bool} (h : docOf j = .bool b) : j = .bool b := by
  cases j with
  | bool b' =>
    cases h
    rfl
  | _ => cases h

theorem docOf_eq_num {n : Int} (h : docOf j = docOf (.num n)) : j = .num n := by
  cases j with
  | num m =>
    have hq : (m : ℚ) = n := Value.num.inj h
    rw [Rat.intCast_inj.mp hq]
  | _ => cases h

theorem docOf_eq_str {s : String} (h : docOf j = .str s) : j = .str s := by
  cases j with
  | str s' =>
    cases h
    rfl
  | _ => cases h

theorem docOf_eq_arr {items : List (Json Int)} (h : docOf j = docOf (.arr items)) :
    ∃ js, j = .arr js ∧ js.map docOf = items.map docOf := by
  cases j with
  | arr js =>
    have hitems := Value.arr.inj h
    rw [Json.valueItems_eq, Json.valueItems_eq] at hitems
    exact ⟨js, rfl, hitems⟩
  | _ => cases h

theorem docOf_eq_obj {members : List (String × Json Int)} (h : docOf j = docOf (.obj members)) :
    ∃ ms, j = .obj ms ∧
      ∀ name, (ms.lookup name).map docOf = (members.lookup name).map docOf := by
  cases j with
  | obj ms =>
    refine ⟨ms, rfl, fun name => ?_⟩
    have hname := congrFun (Value.obj.inj h) name
    rwa [Json.valueMembers_eq, Json.valueMembers_eq] at hname
  | _ => cases h

end Documents

section Reads

/-- What reading the document of `v` into a value of its type gives. -/
def Reads (E : Types N) (v : Val) (t : Ty N) : Prop :=
  ∀ old, HasType E old t → ∀ j : Json Int, j.distinct = true → docOf j = v.doc →
    ∃ w, decode E j t old = .ok w ∧ HasType E w t ∧ (w.view = v.view ↔ Covers old.doc v) ∧
      (old = E.zero t → w.doc = v.doc)

theorem decode_pointer {j : Json Int} (hj : j ≠ .null) (t : Ty N) (old : Val) :
    decode E j (.pointer t) old =
      (decode E j t (old.target.getD (E.zero t))).map .pointer := by
  cases j with
  | null => exact absurd rfl hj
  | _ => simp only [decode, Types.through]

variable {t : Ty N} {v : Val} {vs : List Val} {type : String → Option (Ty N)}
  {ms : List (String × Json Int)}

theorem reads_pointer (hv : HasType E v t) (ih : Reads E v t) :
    Reads E (.pointer v) (.pointer t) := by
  intro old hold j hj hdoc
  by_cases hnull : v.doc = .null
  · obtain rfl := docOf_eq_null (hdoc.trans hnull)
    refine ⟨.nilPointer, rfl, .nilPointer, iff_of_false (fun h => by cases h) ?_, fun _ => ?_⟩
    · intro hc
      cases hc with
      | pointer hne hc => exact not_covers_of_null hnull hne hc
    · exact hnull.symm
  · have hjn : j ≠ .null := by
      rintro rfl
      exact hnull hdoc.symm
    have hne : v ≠ .nilPointer := by
      rintro rfl
      exact hnull rfl
    have hold' : HasType E (old.target.getD (E.zero t)) t := by
      cases hold with
      | nilPointer => exact E.hasType_zero t
      | pointer h => exact h
    obtain ⟨w, hw, htw, hview, hzero⟩ := ih _ hold' j hj hdoc
    have hcov : Covers (old.target.getD (E.zero t)).doc v ↔ Covers old.doc v := by
      cases hold with
      | nilPointer => exact covers_zero hv
      | pointer _ => exact Iff.rfl
    refine ⟨.pointer w, ?_, .pointer htw, ?_, ?_⟩
    · rw [decode_pointer hjn, hw]
      rfl
    · constructor
      · intro h
        exact .pointer hne (hcov.mp (hview.mp (View.pointer.inj h)))
      · intro h
        cases h with
        | pointer _ hc => exact congrArg View.pointer (hview.mpr (hcov.mpr hc))
    · rintro rfl
      exact hzero rfl

theorem decodeItems_reads (ih : ∀ v ∈ vs, Reads E v t)
    {js : List (Json Int)} (hjs : ∀ j ∈ js, j.distinct = true)
    (hdoc : js.map docOf = vs.map Val.doc) (htv : ∀ v ∈ vs, HasType E v t) :
    ∃ ws, decodeItems E js t = .ok ws ∧ (∀ w ∈ ws, HasType E w t) ∧
      (ws.map Val.view = vs.map Val.view ↔ ∀ v ∈ vs, Covers .null v) ∧
      ws.map Val.doc = vs.map Val.doc := by
  induction vs generalizing js with
  | nil =>
    obtain rfl : js = [] := by simpa using hdoc
    exact ⟨[], rfl, by simp, by simp, rfl⟩
  | cons v vs ihl =>
    cases js with
    | nil => cases hdoc
    | cons j js =>
      obtain ⟨hd, hds⟩ := List.cons.inj hdoc
      obtain ⟨hv, hvs⟩ := forall_mem_cons.mp ih
      obtain ⟨hj, hjs⟩ := forall_mem_cons.mp hjs
      obtain ⟨ht, hts⟩ := forall_mem_cons.mp htv
      obtain ⟨w, hw, htw, hview, hzero⟩ := hv _ (E.hasType_zero t) j hj hd
      obtain ⟨ws, hws, htws, hviews, hdocs⟩ := ihl hvs hjs hds hts
      refine ⟨w :: ws, ?_, forall_mem_cons.mpr ⟨htw, htws⟩, ?_, ?_⟩
      · rw [decodeItems, hw]
        simp only [hws, Except.map]
      · rw [map_cons, map_cons, List.cons.injEq, forall_mem_cons, hviews, hview,
          covers_zero ht]
      · rw [map_cons, map_cons, hzero rfl, hdocs]

theorem marshalItems_docs (vs : List Val) : (marshalItems vs).map docOf = vs.map Val.doc := by
  induction vs with
  | nil => rfl
  | cons v vs ih =>
    rw [marshalItems, map_cons, ih]
    rfl

theorem viewItems_eq (vs : List Val) : viewItems vs = vs.map Val.view := by
  induction vs with
  | nil => rfl
  | cons v vs ih => rw [viewItems, ih, map_cons]

theorem doc_slice (vs : List Val) : (Val.slice vs).doc = .arr (vs.map Val.doc) := by
  have hdoc : (Val.slice vs).doc =
      .arr (Json.valueItems (fun n : Int => (n : ℚ)) (marshalItems vs)) := rfl
  rw [hdoc, Json.valueItems_eq]
  exact congrArg Value.arr (marshalItems_docs vs)

/-- The nil slice and the empty one are read alike. -/
theorem reads_items (hdoc : v.doc = (Val.slice vs).doc) (hview : v.view = (Val.slice vs).view)
    (hcov : ∀ a, Covers a v ↔ ∀ v ∈ vs, Covers .null v) (htv : ∀ v ∈ vs, HasType E v t)
    (ih : ∀ v ∈ vs, Reads E v t) : Reads E v (.slice t) := by
  intro old _ j hj hjdoc
  obtain ⟨js, rfl, hjs⟩ := docOf_eq_arr (hjdoc.trans hdoc)
  rw [marshalItems_docs] at hjs
  obtain ⟨ws, hws, htws, hviews, hdocs⟩ :=
    decodeItems_reads ih (Json.distinctItems_iff.mp hj) hjs htv
  refine ⟨.slice ws, ?_, .slice htws, ?_, fun _ => ?_⟩
  · simp only [decode, Types.through, hws, Except.map]
  · rw [hview, hcov, ← hviews, Val.view, Val.view, viewItems_eq, viewItems_eq]
    exact ⟨View.list.inj, congrArg View.list⟩
  · rw [hdoc, doc_slice, doc_slice, hdocs]

/-- The members of an object are read into those that are there. -/
theorem decodeMembers_reads {r : String → Val} {old : List (String × Val)}
    (hms : (ms.map Prod.fst).Nodup)
    (hr : ∀ name j, ms.lookup name = some j → ∃ t, type name = some t ∧
      decode E j t ((old.lookup name).getD (E.zero t)) = .ok (r name)) :
    ∃ res, decodeMembers E ms type old = .ok res ∧
      (∀ name, res.lookup name =
        if ms.lookup name = none then old.lookup name else some (r name)) ∧
      ((old.map Prod.fst).Nodup → (res.map Prod.fst).Nodup) ∧
      ((∀ name ∈ ms.map Prod.fst, name ∈ old.map Prod.fst) →
        res.map Prod.fst = old.map Prod.fst) := by
  induction ms generalizing old with
  | nil => exact ⟨old, rfl, by simp, id, fun _ => rfl⟩
  | cons m ms ih =>
    obtain ⟨name, j⟩ := m
    obtain ⟨hnew, hms⟩ := nodup_cons.mp hms
    obtain ⟨t, ht, hdec⟩ := hr name j (by simp)
    have hnone : ms.lookup name = none := by
      by_contra h
      exact hnew (mem_names_iff.mpr h)
    have hrest : ∀ name' j', ms.lookup name' = some j' → ∃ t, type name' = some t ∧
        decode E j' t (((assign name (r name) old).lookup name').getD (E.zero t)) =
          .ok (r name') := by
      intro name' j' hj'
      have hne : name' ≠ name := by
        rintro rfl
        rw [hnone] at hj'
        cases hj'
      rw [lookup_assign, if_neg hne]
      exact hr name' j' (by rw [lookup_cons, beq_false_of_ne hne]; exact hj')
    obtain ⟨res, hres, hlookup, hnodup, hnames⟩ := ih hms hrest
    refine ⟨res, ?_, fun name' => ?_, fun h => hnodup (nodup_assign _ _ h), fun h => ?_⟩
    · simp only [decodeMembers, ht, hdec, hres]
    · rw [hlookup, lookup_assign, lookup_cons]
      by_cases hname : name' = name
      · simp [hname, hnone]
      · rw [if_neg hname, beq_false_of_ne hname]
    · have hmem := h name (by simp)
      rw [hnames ?_, names_assign_of_mem _ hmem]
      intro name' hname'
      rw [names_assign_of_mem _ hmem]
      exact h name' (mem_cons_of_mem _ hname')

/-- The members `res` that the documents of `es` have made of `old`. -/
structure Merged (E : Types N) (type : String → Option (Ty N)) (es old res : List (String × Val)) :
    Prop where
  typed : ∀ name w t, res.lookup name = some w → type name = some t → HasType E w t
  view : viewMembers res = viewMembers es ↔
    (∀ name, old.lookup name ≠ none → es.lookup name ≠ none) ∧
      ∀ name v, es.lookup name = some v → Covers (((old.lookup name).map Val.doc).getD .null) v
  doc : (∀ name, es.lookup name = none → old.lookup name = none) →
    (∀ name t, type name = some t → (old.lookup name).getD (E.zero t) = E.zero t) →
    ∀ name, (res.lookup name).map Val.doc = (es.lookup name).map Val.doc
  nodup : (old.map Prod.fst).Nodup → (res.map Prod.fst).Nodup
  names : (∀ name, es.lookup name ≠ none → old.lookup name ≠ none) →
    res.map Prod.fst = old.map Prod.fst

/-- One member. -/
structure Read (E : Types N) (old : Option Val) (v : Val) (t : Ty N) (w : Val) : Prop where
  typed : HasType E w t
  view : w.view = v.view ↔ Covers ((old.map Val.doc).getD .null) v
  doc : old.getD (E.zero t) = E.zero t → w.doc = v.doc

theorem Reads.member (hr : Reads E v t) (hv : HasType E v t)
    {old : Option Val} (hold : ∀ u, old = some u → HasType E u t) {j : Json Int}
    (hj : j.distinct = true) (hdoc : docOf j = v.doc) :
    ∃ w, decode E j t (old.getD (E.zero t)) = .ok w ∧ Read E old v t w := by
  have hold' : HasType E (old.getD (E.zero t)) t := by
    cases old with
    | none => exact E.hasType_zero t
    | some u => exact hold u rfl
  obtain ⟨w, hw, htw, hview, hzero⟩ := hr _ hold' j hj hdoc
  refine ⟨w, hw, htw, hview.trans ?_, hzero⟩
  cases old with
  | none => exact covers_zero hv
  | some u => exact Iff.rfl

theorem Merged.of_read {es old res : List (String × Val)}
    (htype : ∀ name v, es.lookup name = some v → ∃ t, type name = some t)
    (hold : ∀ name v t, old.lookup name = some v → type name = some t → HasType E v t)
    (hkept : ∀ name, es.lookup name = none → res.lookup name = old.lookup name)
    (hread : ∀ name v t, es.lookup name = some v → type name = some t →
      ∃ w, res.lookup name = some w ∧ Read E (old.lookup name) v t w)
    (hnodup : (old.map Prod.fst).Nodup → (res.map Prod.fst).Nodup)
    (hnames : (∀ name, es.lookup name ≠ none → old.lookup name ≠ none) →
      res.map Prod.fst = old.map Prod.fst) : Merged E type es old res := by
  refine ⟨fun name w t hw ht => ?_, ?_, fun hnew hzero name => ?_, hnodup, hnames⟩
  · cases hv : es.lookup name with
    | none => exact hold name w t (hkept name hv ▸ hw) ht
    | some v =>
      obtain ⟨w', hw', hr⟩ := hread name v t hv ht
      rw [hw'] at hw
      cases hw
      exact hr.typed
  · constructor
    · intro heq
      have hall : ∀ name, (res.lookup name).map Val.view = (es.lookup name).map Val.view := by
        intro name
        rw [← viewMembers_eq, ← viewMembers_eq, heq]
      refine ⟨fun name hm hnone => ?_, fun name v hv => ?_⟩
      · have := hall name
        rw [hkept name hnone, hnone] at this
        exact hm (Option.map_eq_none_iff.mp this)
      · obtain ⟨t, ht⟩ := htype name v hv
        obtain ⟨w, hw, hr⟩ := hread name v t hv ht
        have := hall name
        rw [hw, hv] at this
        exact hr.view.mp (Option.some.inj this)
    · rintro ⟨hkeys, hvals⟩
      funext name
      rw [viewMembers_eq, viewMembers_eq]
      cases hv : es.lookup name with
      | none =>
        have hnone : old.lookup name = none := by
          by_contra h
          exact hkeys name h hv
        rw [hkept name hv, hnone]
      | some v =>
        obtain ⟨t, ht⟩ := htype name v hv
        obtain ⟨w, hw, hr⟩ := hread name v t hv ht
        rw [hw, map_some, map_some, hr.view.mpr (hvals name v hv)]
  · cases hv : es.lookup name with
    | none => rw [hkept name hv, hnew name hv]
    | some v =>
      obtain ⟨t, ht⟩ := htype name v hv
      obtain ⟨w, hw, hr⟩ := hread name v t hv ht
      rw [hw, map_some, map_some, hr.doc (hzero name t ht)]

/-- What the members of a struct or a map become. -/
theorem exists_merged (type : String → Option (Ty N)) {es old : List (String × Val)}
    (hms : (Json.obj ms).distinct = true)
    (hdoc : ∀ name, (ms.lookup name).map docOf = ((marshalMembers es).lookup name).map docOf)
    (htype : ∀ name v, es.lookup name = some v →
      ∃ t, type name = some t ∧ HasType E v t ∧ Reads E v t)
    (hold : ∀ name v t, old.lookup name = some v → type name = some t → HasType E v t) :
    ∃ res, decodeMembers E ms type old = .ok res ∧ Merged E type es old res := by
  obtain ⟨hnodup, hdist⟩ := Json.distinct_obj_iff.mp hms
  simp only [lookup_marshalMembers, Option.map_map] at hdoc
  have hread : ∀ name, ∃ w, ∀ j v t, ms.lookup name = some j → es.lookup name = some v →
      type name = some t → decode E j t ((old.lookup name).getD (E.zero t)) = .ok w ∧
        Read E (old.lookup name) v t w := by
    intro name
    cases hv : es.lookup name with
    | none => exact ⟨.nilPointer, fun j v t _ h => by cases h⟩
    | some v =>
      obtain ⟨t, ht, htv, hreads⟩ := htype name v hv
      have hj := hdoc name
      rw [hv] at hj
      obtain ⟨j, hj, hjdoc⟩ := Option.map_eq_some_iff.mp hj
      obtain ⟨w, hw⟩ := hreads.member htv (fun u hu => hold name u t hu ht)
        (hdist _ (mem_of_lookup hj)) hjdoc
      refine ⟨w, fun j' v' t' hj' hv' ht' => ?_⟩
      rw [hj] at hj'
      rw [ht] at ht'
      cases hj'
      cases hv'
      cases ht'
      exact hw
  choose r hr using hread
  have hlist : ∀ name j, ms.lookup name = some j → ∃ t, type name = some t ∧
      decode E j t ((old.lookup name).getD (E.zero t)) = .ok (r name) := by
    intro name j hj
    have hv := hdoc name
    rw [hj] at hv
    obtain ⟨v, hv, -⟩ := Option.map_eq_some_iff.mp hv.symm
    obtain ⟨t, ht, -, -⟩ := htype name v hv
    exact ⟨t, ht, (hr name j v t hj hv ht).1⟩
  have hsame : ∀ name, ms.lookup name = none ↔ es.lookup name = none := by
    intro name
    rw [← Option.map_eq_none_iff (f := docOf), hdoc name, Option.map_eq_none_iff]
  obtain ⟨res, hres, hlookup, hnodup', hnames⟩ := decodeMembers_reads hnodup hlist
  refine ⟨res, hres, .of_read (fun name v hv => ?_) hold (fun name hnone => ?_)
    (fun name v t hv ht => ?_) hnodup' fun h => ?_⟩
  · obtain ⟨t, ht, -⟩ := htype name v hv
    exact ⟨t, ht⟩
  · rw [hlookup, if_pos ((hsame name).mpr hnone)]
  · have hne : ms.lookup name ≠ none := fun h => by
      rw [hsame, hv] at h
      cases h
    obtain ⟨j, hj⟩ := ne_none_iff_exists'.mp hne
    exact ⟨r name, by rw [hlookup, if_neg hne], (hr name j v t hj hv ht).2⟩
  · refine hnames fun name hname => mem_names_iff.mpr (h name ?_)
    rw [Ne, ← hsame]
    exact mem_names_iff.mp hname

/-- The nil map and the empty one are read alike. -/
theorem reads_entries {es : List (String × Val)}
    (hdoc : v.doc = (Val.map es).doc) (hview : v.view = (Val.map es).view)
    (hcov : ∀ a, Covers a v ↔ Covers a (.map es)) (htv : ∀ e ∈ es, HasType E e.2 t)
    (ih : ∀ e ∈ es, Reads E e.2 t) : Reads E v (.map t) := by
  intro old hold j hj hjdoc
  obtain ⟨ms, rfl, hms⟩ := docOf_eq_obj (hjdoc.trans hdoc)
  have hmember : ∀ name, member old.doc name = (old.members.lookup name).map Val.doc := by
    cases hold with
    | nilMap => exact fun _ => rfl
    | map _ _ => exact member_doc_map _
  have hnames : (old.members.map Prod.fst).Nodup := by
    cases hold with
    | nilMap => exact nodup_nil
    | map h _ => exact h
  have hmembers : ∀ e ∈ old.members, HasType E e.2 t := by
    cases hold with
    | nilMap => exact fun e he => by cases he
    | map _ h => exact h
  obtain ⟨res, hres, hm⟩ := exists_merged (fun _ => some t) hj hms
    (fun name v hv => ⟨t, rfl, htv _ (mem_of_lookup hv), ih _ (mem_of_lookup hv)⟩)
    (fun name v t' hv ht => by
      cases ht
      exact hmembers _ (mem_of_lookup hv))
  refine ⟨.map res, ?_, .map (hm.nodup hnames) fun e he => ?_, ?_, fun hzero => ?_⟩
  · simp only [decode, Types.through, hres, Except.map]
  · exact hm.typed _ _ t (lookup_of_mem (hm.nodup hnames) he) rfl
  · rw [hview, hcov]
    refine Iff.trans ⟨View.record.inj, congrArg View.record⟩ (hm.view.trans ?_)
    have hkey : ∀ name, old.members.lookup name ≠ none ↔ member old.doc name ≠ none := by
      intro name
      rw [hmember, Ne, Ne, Option.map_eq_none_iff]
    simp only [← hmember, hkey]
    constructor
    · exact fun ⟨hkeys, hvals⟩ => .map hkeys hvals
    · intro hc
      cases hc with
      | map hkeys hvals => exact ⟨hkeys, hvals⟩
  · have hnil : old.members = [] := by
      rw [hzero]
      rfl
    rw [hnil] at hm
    rw [hdoc]
    refine congrArg Value.obj (funext fun name => ?_)
    rw [valueMembers_marshal, valueMembers_marshal]
    exact hm.doc (fun _ _ => rfl) (fun _ _ _ => rfl) name

theorem reads_struct {fs : List (String × Val)} {n : N}
    (hfs : fs.map Prod.fst = (E.fields n).map Prod.fst)
    (htv : ∀ name v t, fs.lookup name = some v → (E.fields n).lookup name = some t →
      HasType E v t)
    (ih : ∀ name v t, fs.lookup name = some v → (E.fields n).lookup name = some t →
      Reads E v t) : Reads E (.struct fs) (.struct n) := by
  have hfield : ∀ {gs : List (String × Val)}, gs.map Prod.fst = (E.fields n).map Prod.fst →
      ∀ name, gs.lookup name ≠ none ↔ (E.fields n).lookup name ≠ none := by
    intro gs hgs name
    rw [← mem_names_iff, ← mem_names_iff, hgs]
  intro old hold j hj hjdoc
  cases hold with
  | @struct gs _ hgs hgt =>
    obtain ⟨ms, rfl, hms⟩ := docOf_eq_obj hjdoc
    have hsame : ∀ name, gs.lookup name ≠ none ↔ fs.lookup name ≠ none :=
      fun name => (hfield hgs name).trans (hfield hfs name).symm
    obtain ⟨res, hres, hm⟩ := exists_merged (fun name => (E.fields n).lookup name) hj hms
      (fun name v hv => by
        obtain ⟨t, ht⟩ := ne_none_iff_exists'.mp
          ((hfield hfs name).mp (hv ▸ some_ne_none v))
        exact ⟨t, ht, htv name v t hv ht, ih name v t hv ht⟩) hgt
    have hnames : res.map Prod.fst = gs.map Prod.fst := hm.names fun name => (hsame name).mpr
    refine ⟨.struct res, ?_, .struct (hnames.trans hgs) hm.typed, ?_, fun hzero => ?_⟩
    · simp only [decode, Types.through, Val.members, hres, Except.map]
    · refine Iff.trans ⟨View.record.inj, congrArg View.record⟩ (hm.view.trans ?_)
      simp only [← member_doc_struct]
      constructor
      · exact fun h => .struct h.2
      · intro hc
        cases hc with
        | struct hvals => exact ⟨fun name => (hsame name).mp, hvals⟩
    · refine congrArg Value.obj (funext fun name => ?_)
      rw [valueMembers_marshal, valueMembers_marshal]
      refine hm.doc (fun name hnone => ?_) (fun name t ht => ?_) name
      · by_contra h
        exact (hsame name).mp h hnone
      · have hgz : gs.lookup name = ((E.fields n).lookup name).map E.zero := by
          rw [← E.lookup_zero_struct, ← hzero]
          rfl
        rw [hgz, ht]
        rfl

/-- Reading the document of a value into any value of its type. -/
theorem reads (hv : HasType E v t) : Reads E v t := by
  induction hv with
  | @bool b =>
    intro old _ j _ hdoc
    obtain rfl := docOf_eq_bool hdoc
    exact ⟨.bool b, rfl, .bool, iff_of_true rfl .bool, fun _ => rfl⟩
  | @int n below above hlo hhi =>
    intro old _ j _ hdoc
    obtain rfl := docOf_eq_num hdoc
    refine ⟨.int n, ?_, .int hlo hhi, iff_of_true rfl .int, fun _ => rfl⟩
    simp only [decode, Types.through, hlo, hhi, and_self, if_true]
  | @string s =>
    intro old _ j _ hdoc
    obtain rfl := docOf_eq_str hdoc
    exact ⟨.string s, rfl, .string, iff_of_true rfl .string, fun _ => rfl⟩
  | nilPointer =>
    intro old _ j _ hdoc
    obtain rfl := docOf_eq_null hdoc
    exact ⟨.nilPointer, rfl, .nilPointer, iff_of_true rfl .nilPointer, fun _ => rfl⟩
  | pointer hv ih => exact reads_pointer hv ih
  | nilSlice =>
    have hdoc : Val.nilSlice.doc = (Val.slice []).doc := rfl
    exact reads_items hdoc rfl (fun a => iff_of_true .nilSlice (by simp)) (by simp) (by simp)
  | @slice vs t htv ih =>
    refine reads_items rfl rfl (fun a => ⟨fun h => ?_, .slice⟩) htv ih
    cases h with
    | slice h => exact h
  | nilMap =>
    have hdoc : Val.nilMap.doc = (Val.map []).doc := rfl
    refine reads_entries hdoc rfl (fun a => ⟨fun h => ?_, fun h => ?_⟩) (by simp) (by simp)
    · cases h with
      | nilMap h => exact .map (fun name hne => absurd (h name) hne) (by simp)
    · cases h with
      | map h _ =>
        refine .nilMap fun name => ?_
        by_contra hne
        exact h name hne rfl
  | map _ htv ih => exact reads_entries rfl rfl (fun a => Iff.rfl) htv ih
  | struct hfs htv ih => exact reads_struct hfs htv ih

end Reads

end Skit.Lib.GoJson
