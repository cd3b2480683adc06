import Mathlib.Data.List.Basic

/-!
# Attribute trees of structured logs

A logger nests its attributes by steps: attributes that are added, and groups that are opened for
everything that is added later. A group without attributes is not written, so trees are compared
without empty groups.
-/
namespace Skit.Lib.Slog
open List

/-- An attribute: a key with a value, or a group of attributes. -/
inductive Attr (V : Type)
  | leaf (key : String) (value : V)
  | group (key : String) (attrs : List (Attr V))

variable {V : Type}

namespace Attr

def isEmptyGroup : Attr V → Bool
  | .group _ [] => true
  | _ => false

/-- `slog.Group`, which drops the empty groups among the attributes. -/
def newGroup (key : String) (attrs : List (Attr V)) : Attr V :=
  .group key (attrs.filter (!·.isEmptyGroup))

end Attr

mutual

/-- What is written of an attribute. -/
def prune : Attr V → List (Attr V)
  | .leaf key value => [.leaf key value]
  | .group key attrs => if pruneAll attrs = [] then [] else [.group key (pruneAll attrs)]

def pruneAll : List (Attr V) → List (Attr V)
  | [] => []
  | a :: as => prune a ++ pruneAll as

end

/-- A step of a logger. -/
inductive Step (V : Type)
  | attrs (as : List (Attr V))
  | group (name : String)

/-- The attributes of a record inside the steps before it. A group without a name is none. -/
def nest : List (Step V) → List (Attr V) → List (Attr V)
  | [], own => own
  | .attrs as :: steps, own => as ++ nest steps own
  | .group name :: steps, own =>
    if name = "" then nest steps own else [.group name (nest steps own)]

/-- The tree that is written. -/
def tree (steps : List (Step V)) (own : List (Attr V)) : List (Attr V) := pruneAll (nest steps own)

variable {as bs own own' : List (Attr V)}

theorem pruneAll_append (as bs : List (Attr V)) :
    pruneAll (as ++ bs) = pruneAll as ++ pruneAll bs := by
  induction as with
  | nil => rfl
  | cons a as ih => rw [cons_append, pruneAll, pruneAll, ih, append_assoc]

theorem prune_of_isEmptyGroup {a : Attr V} (h : a.isEmptyGroup = true) : prune a = [] := by
  cases a with
  | leaf key value => cases h
  | group key attrs =>
    cases attrs with
    | nil => rw [prune, pruneAll, if_pos rfl]
    | cons a as => cases h

/-- Empty groups may be dropped before. -/
theorem pruneAll_filter (as : List (Attr V)) :
    pruneAll (as.filter (!·.isEmptyGroup)) = pruneAll as := by
  induction as with
  | nil => rfl
  | cons a as ih =>
    cases ha : a.isEmptyGroup with
    | true => rw [filter_cons_of_neg (by simp [ha]), ih, pruneAll, prune_of_isEmptyGroup ha,
        nil_append]
    | false => rw [filter_cons_of_pos (by simp [ha]), pruneAll, pruneAll, ih]

theorem prune_group_congr (key : String) (h : pruneAll as = pruneAll bs) :
    prune (.group key as) = prune (.group key bs) := by
  rw [prune, prune, h]

theorem prune_newGroup (key : String) (as : List (Attr V)) :
    prune (.newGroup key as) = prune (.group key as) :=
  prune_group_congr key (pruneAll_filter as)

theorem pruneAll_singleton (a : Attr V) : pruneAll [a] = prune a := by
  rw [pruneAll, pruneAll, append_nil]

theorem nest_append (steps steps' : List (Step V)) (own : List (Attr V)) :
    nest (steps ++ steps') own = nest steps (nest steps' own) := by
  induction steps with
  | nil => rfl
  | cons step steps ih =>
    cases step with
    | attrs as => rw [cons_append, nest, nest, ih]
    | group name => rw [cons_append, nest, nest, ih]

end Skit.Lib.Slog
