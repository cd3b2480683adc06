import Mathlib.Data.List.Basic
import Mathlib.Data.List.Nodup
import Mathlib.Data.List.Perm.Subperm
import Mathlib.Data.Rat.Defs

/-!
# JSON trees

`Json N` is a JSON text read as a tree, with numbers in `N` and the members of an object in
the order of the text. `Value` is what such a tree denotes: numbers are exact and an object
is a function on names, so that equal values are equal terms. A name that occurs twice
denotes its first member; `distinct` excludes such objects.
-/
namespace Skit.Lib
open List

inductive Json (N : Type)
  | null
  | bool (b : Bool)
  | num (n : N)
  | str (s : String)
  | arr (items : List (Json N))
  | obj (members : List (String × Json N))

inductive Value
  | null
  | bool (b : Bool)
  | num (q : ℚ)
  | str (s : String)
  | arr (items : List Value)
  | obj (members : String → Option Value)

variable {name : String} {α : Type}

theorem mem_of_lookup {members : List (String × α)} {v : α}
    (h : members.lookup name = some v) : (name, v) ∈ members := by
  obtain ⟨l, l', rfl, -⟩ := lookup_eq_some_iff.mp h
  simp

/-- Distinct names are looked up as they are listed. -/
theorem lookup_of_mem {members : List (String × α)} {v : α}
    (hn : (members.map Prod.fst).Nodup) (hm : (name, v) ∈ members) :
    members.lookup name = some v := by
  obtain ⟨l, l', rfl⟩ := append_of_mem hm
  refine lookup_eq_some_iff.mpr ⟨l, l', rfl, fun p hp => ?_⟩
  rw [map_append, nodup_append] at hn
  simpa using (hn.2.2 p.1 (mem_map_of_mem hp) name (by simp)).symm

theorem lookup_map {α β : Type} (f : α → β) (members : List (String × α)) (name : String) :
    (members.map fun m => (m.1, f m.2)).lookup name = (members.lookup name).map f := by
  induction members with
  | nil => rfl
  | cons m members ih =>
    rw [map_cons, lookup_cons, lookup_cons, ih]
    split <;> rfl

/-- A name is listed if it is found. -/
theorem mem_names_iff {members : List (String × α)} :
    name ∈ members.map Prod.fst ↔ members.lookup name ≠ none := by
  rw [← Option.isSome_iff_ne_none, lookup_isSome_iff]
  simp only [mem_map, beq_iff_eq]
  exact exists_congr fun p => and_congr_right fun _ => eq_comm

namespace Json

variable {N M : Type}

/-- Induction over a tree: the items and the members of a node come as hypotheses. -/
@[elab_as_elim, induction_eliminator]
theorem ind {motive : Json N → Prop} (null : motive .null) (bool : ∀ b, motive (.bool b))
    (num : ∀ n, motive (.num n)) (str : ∀ s, motive (.str s))
    (arr : ∀ items, (∀ x ∈ items, motive x) → motive (.arr items))
    (obj : ∀ members, (∀ p ∈ members, motive p.2) → motive (.obj members)) (t : Json N) :
    motive t :=
  @Json.rec N motive (fun items => ∀ x ∈ items, motive x) (fun members => ∀ p ∈ members, motive p.2)
    (fun p => motive p.2) null bool num str arr obj (by simp)
    (fun _ _ hx hxs => forall_mem_cons.mpr ⟨hx, hxs⟩) (by simp)
    (fun _ _ hp hps => forall_mem_cons.mpr ⟨hp, hps⟩) (fun _ _ h => h) t

section Operations

variable (f : N → M)

mutual

def mapNum : Json N → Json M
  | .null => .null
  | .bool b => .bool b
  | .num n => .num (f n)
  | .str s => .str s
  | .arr items => .arr (mapNumItems items)
  | .obj members => .obj (mapNumMembers members)

def mapNumItems : List (Json N) → List (Json M)
  | [] => []
  | x :: xs => mapNum x :: mapNumItems xs

def mapNumMembers : List (String × Json N) → List (String × Json M)
  | [] => []
  | (k, v) :: ms => (k, mapNum v) :: mapNumMembers ms

end

mutual

/-- The value of a tree whose numbers stand for rationals. -/
def value (f : N → ℚ) : Json N → Value
  | .null => .null
  | .bool b => .bool b
  | .num n => .num (f n)
  | .str s => .str s
  | .arr items => .arr (valueItems f items)
  | .obj members => .obj (valueMembers f members)

def valueItems (f : N → ℚ) : List (Json N) → List Value
  | [] => []
  | x :: xs => value f x :: valueItems f xs

def valueMembers (f : N → ℚ) : List (String × Json N) → String → Option Value
  | [], _ => none
  | (k, v) :: ms, name => if name = k then some (value f v) else valueMembers f ms name

end

mutual

/-- The tree without the members, at any depth, whose names are in `names`. -/
def without (names : List String) : Json N → Json N
  | .arr items => .arr (withoutItems names items)
  | .obj members => .obj (withoutMembers names members)
  | t => t

def withoutItems (names : List String) : List (Json N) → List (Json N)
  | [] => []
  | x :: xs => without names x :: withoutItems names xs

def withoutMembers (names : List String) : List (String × Json N) → List (String × Json N)
  | [] => []
  | (k, v) :: ms =>
    if k ∈ names then withoutMembers names ms
    else (k, without names v) :: withoutMembers names ms

end

mutual

/-- The numbers of a tree. -/
def numbers : Json N → List N
  | .num n => [n]
  | .arr items => numbersItems items
  | .obj members => numbersMembers members
  | _ => []

def numbersItems : List (Json N) → List N
  | [] => []
  | x :: xs => numbers x ++ numbersItems xs

def numbersMembers : List (String × Json N) → List N
  | [] => []
  | (_, v) :: ms => numbers v ++ numbersMembers ms

end

mutual

/-- How deep arrays and objects are nested. -/
def depth : Json N → Nat
  | .arr items => depthItems items + 1
  | .obj members => depthMembers members + 1
  | _ => 0

def depthItems : List (Json N) → Nat
  | [] => 0
  | x :: xs => max (depth x) (depthItems xs)

def depthMembers : List (String × Json N) → Nat
  | [] => 0
  | (_, v) :: ms => max (depth v) (depthMembers ms)

end

mutual

/-- No object of the tree has two members of one name. -/
def distinct : Json N → Bool
  | .arr items => distinctItems items
  | .obj members => decide (members.map Prod.fst).Nodup && distinctMembers members
  | _ => true

def distinctItems : List (Json N) → Bool
  | [] => true
  | x :: xs => distinct x && distinctItems xs

def distinctMembers : List (String × Json N) → Bool
  | [] => true
  | (_, v) :: ms => distinct v && distinctMembers ms

end

end Operations

section Lists

variable {items : List (Json N)} {members : List (String × Json N)} (names : List String)

theorem mapNumItems_eq (f : N → M) (items : List (Json N)) :
    mapNumItems f items = items.map (mapNum f) := by
  induction items with
  | nil => rfl
  | cons x xs ih => simp [mapNumItems, ih]

theorem mapNumMembers_eq (f : N → M) (members : List (String × Json N)) :
    mapNumMembers f members = members.map fun p => (p.1, mapNum f p.2) := by
  induction members with
  | nil => rfl
  | cons p ms ih => simp [mapNumMembers, ih]

theorem valueItems_eq (f : N → ℚ) (items : List (Json N)) :
    valueItems f items = items.map (value f) := by
  induction items with
  | nil => rfl
  | cons x xs ih => simp [valueItems, ih]

/-- A member denotes what the lookup of its name finds. -/
theorem valueMembers_eq (f : N → ℚ) (members : List (String × Json N)) (name : String) :
    valueMembers f members name = (members.lookup name).map (value f) := by
  induction members with
  | nil => rfl
  | cons p ms ih =>
    obtain ⟨key, x⟩ := p
    by_cases hn : name = key
    · simp [valueMembers, hn]
    · simp [valueMembers, lookup_cons, hn, ih, beq_false_of_ne hn]

theorem withoutItems_eq (items : List (Json N)) :
    withoutItems names items = items.map (without names) := by
  induction items with
  | nil => rfl
  | cons x xs ih => simp [withoutItems, ih]

theorem withoutMembers_eq (members : List (String × Json N)) :
    withoutMembers names members =
      (members.filter fun p => p.1 ∉ names).map fun p => (p.1, without names p.2) := by
  induction members with
  | nil => rfl
  | cons p ms ih =>
    by_cases hn : p.1 ∈ names
    · simp [withoutMembers, hn, ih]
    · simp [withoutMembers, hn, ih]

theorem mem_numbersItems {n : N} : n ∈ numbersItems items ↔ ∃ x ∈ items, n ∈ x.numbers := by
  induction items with
  | nil => simp [numbersItems]
  | cons x xs ih => simp [numbersItems, ih]

theorem mem_numbersMembers {n : N} :
    n ∈ numbersMembers members ↔ ∃ p ∈ members, n ∈ p.2.numbers := by
  induction members with
  | nil => simp [numbersMembers]
  | cons p ms ih => simp [numbersMembers, ih]

theorem depthItems_le_iff {d : Nat} : depthItems items ≤ d ↔ ∀ x ∈ items, x.depth ≤ d := by
  induction items with
  | nil => simp [depthItems]
  | cons x xs ih => rw [depthItems, Nat.max_le, ih, forall_mem_cons]

theorem depthMembers_le_iff {d : Nat} :
    depthMembers members ≤ d ↔ ∀ p ∈ members, p.2.depth ≤ d := by
  induction members with
  | nil => simp [depthMembers]
  | cons p ms ih => rw [depthMembers, Nat.max_le, ih, forall_mem_cons]

theorem distinctItems_iff : distinctItems items = true ↔ ∀ x ∈ items, x.distinct = true := by
  induction items with
  | nil => simp [distinctItems]
  | cons x xs ih => simp [distinctItems, ih]

theorem distinctMembers_iff :
    distinctMembers members = true ↔ ∀ p ∈ members, p.2.distinct = true := by
  induction members with
  | nil => simp [distinctMembers]
  | cons p ms ih => simp [distinctMembers, ih]

theorem distinct_obj_iff : (obj members).distinct = true ↔
      (members.map Prod.fst).Nodup ∧ ∀ p ∈ members, p.2.distinct = true := by
  simp [distinct, distinctMembers_iff]

end Lists

section Laws

variable {names : List String}

/-- Numbers are read where they stand. -/
theorem value_mapNum (g : M → ℚ) (f : N → M) (t : Json N) :
    (t.mapNum f).value g = t.value fun n => g (f n) := by
  induction t with
  | null => rfl
  | bool b => rfl
  | num n => rfl
  | str s => rfl
  | arr items ih => simpa [mapNum, value, mapNumItems_eq, valueItems_eq] using ih
  | obj members ih =>
    simp only [mapNum, value, mapNumMembers_eq, Value.obj.injEq]
    funext name
    simp only [valueMembers_eq]
    induction members with
    | nil => rfl
    | cons p ms hms =>
      obtain ⟨hp, hrest⟩ := forall_mem_cons.mp ih
      obtain ⟨key, x⟩ := p
      cases hn : name == key with
      | true => simp [lookup_cons, hn, hp]
      | false => simpa [lookup_cons, hn] using hms hrest

/-- The value depends on the numbers that occur. -/
theorem value_eq_of_numbers {f g : N → ℚ} (t : Json N) (h : ∀ n ∈ t.numbers, f n = g n) :
    t.value f = t.value g := by
  induction t with
  | null => rfl
  | bool b => rfl
  | num n => simpa [value] using h n (by simp [numbers])
  | str s => rfl
  | arr items ih =>
    simp only [value, valueItems_eq, Value.arr.injEq, numbers, mem_numbersItems] at h ⊢
    exact map_congr_left fun x hx => ih x hx fun n hn => h n ⟨x, hx, hn⟩
  | obj members ih =>
    simp only [value, Value.obj.injEq, numbers, mem_numbersMembers] at h ⊢
    funext name
    rw [valueMembers_eq, valueMembers_eq]
    cases hl : members.lookup name with
    | none => rfl
    | some v =>
      have hmem := mem_of_lookup hl
      simpa using ih _ hmem fun n hn => h n ⟨_, hmem, hn⟩

/-- Names are removed alike whatever the numbers are. -/
theorem mapNum_without (f : N → M) (t : Json N) :
    (t.without names).mapNum f = (t.mapNum f).without names := by
  induction t with
  | null => rfl
  | bool b => rfl
  | num n => rfl
  | str s => rfl
  | arr items ih => simpa [without, mapNum, withoutItems_eq, mapNumItems_eq] using ih
  | obj members ih =>
    simp only [without, mapNum, withoutMembers_eq, mapNumMembers_eq, map_map, obj.injEq,
      filter_map]
    refine map_congr_left fun p hp => ?_
    simpa using ih p (mem_of_mem_filter hp)

/-- Removing names one after the other is removing them together. -/
theorem without_without (names' : List String) (t : Json N) :
    (t.without names).without names' = t.without (names ++ names') := by
  induction t with
  | null => rfl
  | bool b => rfl
  | num n => rfl
  | str s => rfl
  | arr items ih => simpa [without, withoutItems_eq] using ih
  | obj members ih =>
    simp only [without, withoutMembers_eq, filter_map, map_map, filter_filter,
      obj.injEq]
    have hfilter : (members.filter fun p =>
        ((fun p => decide (p.1 ∉ names')) ∘ fun p => (p.1, p.2.without names)) p &&
          decide (p.1 ∉ names)) = members.filter fun p => decide (p.1 ∉ names ++ names') := by
      refine filter_congr fun p _ => ?_
      simp [Bool.and_comm]
    rw [hfilter]
    refine map_congr_left fun p hp => ?_
    simpa using ih p (mem_of_mem_filter hp)

theorem distinct_mapNum (f : N → M) (t : Json N) : (t.mapNum f).distinct = t.distinct := by
  rw [Bool.eq_iff_iff]
  induction t with
  | null => rfl
  | bool b => rfl
  | num n => rfl
  | str s => rfl
  | arr items ih =>
    simp only [mapNum, distinct, mapNumItems_eq, distinctItems_iff, forall_mem_map]
    exact forall₂_congr ih
  | obj members ih =>
    simp only [mapNum, mapNumMembers_eq, distinct_obj_iff, map_map, forall_mem_map]
    exact and_congr Iff.rfl (forall₂_congr ih)

theorem distinct_without (t : Json N) (h : t.distinct = true) :
    (t.without names).distinct = true := by
  induction t with
  | null => rfl
  | bool b => rfl
  | num n => rfl
  | str s => rfl
  | arr items ih =>
    simp only [without, distinct, withoutItems_eq, distinctItems_iff, forall_mem_map] at h ⊢
    exact fun x hx => ih x hx (h x hx)
  | obj members ih =>
    rw [distinct_obj_iff] at h
    simp only [without, withoutMembers_eq, distinct_obj_iff, map_map, forall_mem_map]
    refine ⟨h.1.sublist (filter_sublist.map Prod.fst), fun p hp => ?_⟩
    have hmem := mem_of_mem_filter hp
    exact ih p hmem (h.2 p hmem)

/-- Objects of distinct names are equal if they have as many members and every member of the
one is found, with its value, in the other. -/
theorem valueMembers_eq_iff {f : N → ℚ} {g : M → ℚ} {members : List (String × Json N)}
    {members' : List (String × Json M)} (hn : (members.map Prod.fst).Nodup)
    (hn' : (members'.map Prod.fst).Nodup) :
    valueMembers f members = valueMembers g members' ↔ members.length = members'.length ∧
      ∀ p ∈ members, ∃ w, members'.lookup p.1 = some w ∧ p.2.value f = w.value g := by
  constructor
  · intro h
    have hlookup (name : String) : (members.lookup name).map (value f) =
        (members'.lookup name).map (value g) := by
      rw [← valueMembers_eq, ← valueMembers_eq, h]
    have hperm : (members.map Prod.fst).Perm (members'.map Prod.fst) := by
      refine (perm_ext_iff_of_nodup hn hn').mpr fun name => ?_
      rw [mem_names_iff, mem_names_iff, ne_eq, ← Option.map_eq_none_iff (f := value f), hlookup,
        Option.map_eq_none_iff]
    refine ⟨by simpa using hperm.length_eq, fun p hp => ?_⟩
    have hp' := hlookup p.1
    rw [lookup_of_mem hn hp] at hp'
    obtain ⟨w, hw, hv⟩ := Option.map_eq_some_iff.mp hp'.symm
    exact ⟨w, hw, hv.symm⟩
  · rintro ⟨hlen, hall⟩
    funext name
    rw [valueMembers_eq, valueMembers_eq]
    cases hl : members.lookup name with
    | some v =>
      obtain ⟨w, hw, hv⟩ := hall _ (mem_of_lookup hl)
      simp only at hw hv
      rw [hw, Option.map_some, Option.map_some, hv]
    | none =>
      -- all names of the other object are names of this one
      have hsub : members.map Prod.fst ⊆ members'.map Prod.fst := by
        intro k hk
        obtain ⟨p, hp, rfl⟩ := mem_map.mp hk
        obtain ⟨w, hw, -⟩ := hall p hp
        exact mem_names_iff.mpr (by simp [hw])
      have hperm := (List.Nodup.subperm hn hsub).perm_of_length_le (by simp [hlen])
      have hnone : members'.lookup name = none := by
        by_contra hsome
        exact mem_names_iff.mp (hperm.mem_iff.mpr (mem_names_iff.mpr hsome)) hl
      rw [hnone]
      rfl

/-- What is equal stays equal when its numbers are replaced. -/
theorem value_congr (f : N → ℚ) (g : ℚ → ℚ) {t u : Json N} (h : t.value f = u.value f) :
    (t.value fun n => g (f n)) = u.value fun n => g (f n) := by
  induction t generalizing u with
  | arr items ih =>
    cases u <;> simp only [value, reduceCtorEq, Value.arr.injEq, valueItems_eq] at h ⊢
    rename_i items'
    induction items generalizing items' with
    | nil => simpa using h
    | cons x xs hxs =>
      cases items' with
      | nil => cases h
      | cons y ys =>
        obtain ⟨hxy, hrest⟩ := List.cons.inj h
        obtain ⟨hx, hall⟩ := forall_mem_cons.mp ih
        simp only [map_cons]
        rw [hx hxy, hxs hall _ hrest]
  | obj members ih =>
    cases u <;> simp only [value, reduceCtorEq, Value.obj.injEq] at h ⊢
    rename_i members'
    funext name
    have hname := congrFun h name
    rw [valueMembers_eq, valueMembers_eq] at hname ⊢
    cases hl : members.lookup name with
    | none =>
      rw [hl] at hname
      rw [Option.map_eq_none_iff.mp hname.symm]
    | some v =>
      rw [hl] at hname
      obtain ⟨w, hw, hvw⟩ := Option.map_eq_some_iff.mp hname.symm
      have hmem : (name, v) ∈ members := mem_of_lookup hl
      rw [hw, Option.map_some, Option.map_some, ih _ hmem hvw.symm]
  | _ => cases u <;> simp_all [value]

end Laws

end Json

end Skit.Lib
