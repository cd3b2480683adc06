import Skit.Auditlog.Retained
import Skit.Lib.Json
import Skit.Lib.Float64

/-!
# Snapshots and their comparison

A payload is a JSON tree with the numbers of its text. `encoding/json/v2` decodes it into
maps, slices and float64 numbers, and `payloadsEqual` compares what it decoded, without the
members `updated_at` and `updated_by`. Numbers that share a float64 are one number there.
-/
namespace Skit.Auditlog
open Lib List

/-- A number as JSON writes it. -/
structure Decimal where
  mantissa : Int
  exponent : Int
  deriving DecidableEq, Repr

def Decimal.value (d : Decimal) : ℚ := d.mantissa * 10 ^ d.exponent

abbrev Payload := Json Decimal

/-- What Go decodes into an `any`; a number is a float64. -/
abbrev Any := Json ℚ

section Decoding

/-- The nesting that `jsontext` accepts. -/
def maxNestingDepth : Nat := 10000

def isMap : Payload → Bool
  | .null => true
  | .obj _ => true
  | _ => false

def inRange (d : Decimal) : Bool := (float64 d.value).isSome

def toFloat64 (d : Decimal) : ℚ := (float64 d.value).getD 0

/-- `json.Unmarshal` into a map of the type `map[string]any`; `null` gives the nil map. -/
def unmarshal (data : Payload) : Except Err Any :=
  if !isMap data then .error (.text "cannot unmarshal into a map")
  else if maxNestingDepth < data.depth then .error (.text "exceeded max depth")
  else if !data.distinct then .error (.text "duplicate object member name")
  else if !data.numbers.all inRange then .error (.text "value out of range")
  else .ok (data.mapNum toFloat64)

/-- `removeKeys`: the loop deletes a member while it ranges over the map, and goes into the
members that stay. -/
def removeKeys (data : Any) (keyToRemove : String) : Any := data.without [keyToRemove]

def normalizeMap (jsonData : Payload) : Except Err Any :=
  match unmarshal jsonData with
  | .error err => .error (.wrap ("failed to unmarshal JSON: " ++ err.error) err)
  | .ok m => .ok (removeKeys (removeKeys m "updated_at") "updated_by")

mutual

/-- `reflect.DeepEqual` on decoded values. -/
def deepEqual : Any → Any → Bool
  | .null, .null => true
  | .bool b, .bool b' => b == b'
  | .num q, .num q' => decide (q = q')
  | .str s, .str s' => s == s'
  | .arr items, .arr items' => deepEqualItems items items'
  | .obj members, .obj members' =>
    members.length == members'.length && deepEqualMembers members members'
  | _, _ => false

def deepEqualItems : List Any → List Any → Bool
  | [], [] => true
  | x :: xs, y :: ys => deepEqual x y && deepEqualItems xs ys
  | _, _ => false

def deepEqualMembers : List (String × Any) → List (String × Any) → Bool
  | [], _ => true
  | (k, v) :: ms, members' =>
    match members'.lookup k with
    | none => false
    | some w => deepEqual v w && deepEqualMembers ms members'

end

/-- What is assumed of `cmp.Equal` on decoded values, and the text of `cmp.Diff`. -/
structure Comparer where
  equal : Any → Any → Bool
  diff : Any → Any → String
  equal_iff : ∀ {x y : Any}, x.distinct = true → y.distinct = true →
    (equal x y = true ↔ x.value id = y.value id)

def payloadsEqual (cmp : Comparer) (a b : Payload) : Except Err Bool :=
  match normalizeMap a with
  | .error err => .error err
  | .ok na =>
    match normalizeMap b with
    | .error err => .error err
    | .ok nb => .ok (cmp.equal na nb)

end Decoding

section Meaning

/-- The members that a change does not consist in. -/
def volatileFields : List String := ["updated_at", "updated_by"]

/-- What a payload says of its model, as a JSON value. -/
def snapshotValue (a : Payload) : Value := (a.without volatileFields).value Decimal.value

/-- The same with every number rounded to a float64. -/
def roundedValue (a : Payload) : Value := (a.without volatileFields).value toFloat64

/-- The payload can be decoded into a map. -/
structure Decodes (a : Payload) : Prop where
  map : isMap a = true
  depth : a.depth ≤ maxNestingDepth
  distinct : a.distinct = true
  inRange : ∀ d ∈ a.numbers, inRange d = true

/-- The payloads differ, but only in numbers that share a float64. -/
def Conflated (a b : Payload) : Prop :=
  snapshotValue a ≠ snapshotValue b ∧ roundedValue a = roundedValue b

/-- Two payloads that can be decoded are not conflated, and two that say the same can be
decoded. -/
structure ToldApart (a b : Payload) : Prop where
  not_conflated : Decodes a → Decodes b → ¬ Conflated a b
  decodes : snapshotValue a = snapshotValue b → Decodes a ∧ Decodes b

end Meaning

section Comparison

variable {a b : Payload} {cmp : Comparer}

theorem unmarshal_eq_ok {m : Any} :
    unmarshal a = .ok m ↔ Decodes a ∧ a.mapNum toFloat64 = m := by
  unfold unmarshal
  split_ifs with hmap hdepth hdistinct hrange
  · refine iff_of_false (by simp) fun h => ?_
    simp [h.1.map] at hmap
  · refine iff_of_false (by simp) fun h => ?_
    exact absurd h.1.depth (Nat.not_le.mpr hdepth)
  · refine iff_of_false (by simp) fun h => ?_
    simp [h.1.distinct] at hdistinct
  · refine iff_of_false (by simp) fun h => ?_
    rw [Bool.not_eq_true', all_eq_false] at hrange
    obtain ⟨d, hd, hout⟩ := hrange
    exact hout (h.1.inRange d hd)
  · have hdecodes : Decodes a := by
      refine ⟨by simpa using hmap, Nat.not_lt.mp hdepth, by simpa using hdistinct, ?_⟩
      simpa using hrange
    simp [hdecodes]

theorem normalizeMap_eq_ok {m : Any} : normalizeMap a = .ok m ↔
    Decodes a ∧ (a.without volatileFields).mapNum toFloat64 = m := by
  have hremove (m : Any) : removeKeys (removeKeys m "updated_at") "updated_by" =
      m.without volatileFields := Json.without_without _ _
  unfold normalizeMap
  cases hu : unmarshal a with
  | error err =>
    refine iff_of_false (by simp) fun h => ?_
    rw [unmarshal_eq_ok.mpr ⟨h.1, rfl⟩] at hu
    cases hu
  | ok m' =>
    obtain ⟨hdecodes, rfl⟩ := unmarshal_eq_ok.mp hu
    simp [hremove, hdecodes, Json.mapNum_without]

theorem deepEqualItems_iff {items items' : List Any}
    (h : ∀ x ∈ items, ∀ y ∈ items', deepEqual x y = true ↔ x.value id = y.value id) :
    deepEqualItems items items' = true ↔
      items.map (Json.value id) = items'.map (Json.value id) := by
  induction items generalizing items' with
  | nil => cases items' <;> simp [deepEqualItems]
  | cons x xs ih =>
    cases items' with
    | nil => simp [deepEqualItems]
    | cons y ys =>
      simp only [forall_mem_cons] at h
      rw [deepEqualItems, Bool.and_eq_true, map_cons, map_cons, List.cons.injEq, h.1.1,
        ih fun x hx => (h.2 x hx).2]

theorem deepEqualMembers_iff {members members' : List (String × Any)} :
    deepEqualMembers members members' = true ↔
      ∀ p ∈ members, ∃ w, members'.lookup p.1 = some w ∧ deepEqual p.2 w = true := by
  induction members with
  | nil => simp [deepEqualMembers]
  | cons p ms ih =>
    rw [forall_mem_cons, ← ih, deepEqualMembers]
    cases members'.lookup p.1 <;> simp

theorem deepEqual_iff {x y : Any} (hx : x.distinct = true) (hy : y.distinct = true) :
    deepEqual x y = true ↔ x.value id = y.value id := by
  induction x using Json.ind generalizing y with
  | arr items ih =>
    cases y <;> simp only [deepEqual, Json.value, reduceCtorEq, Bool.false_eq_true]
    rename_i items'
    rw [Json.distinct, Json.distinctItems_iff] at hx hy
    rw [Value.arr.injEq, Json.valueItems_eq, Json.valueItems_eq]
    exact deepEqualItems_iff fun x hmem y hmem' => ih x hmem (hx x hmem) (hy y hmem')
  | obj members ih =>
    cases y <;> simp only [deepEqual, Json.value, reduceCtorEq, Bool.false_eq_true]
    rename_i members'
    rw [Json.distinct_obj_iff] at hx hy
    rw [Value.obj.injEq, Json.valueMembers_eq_iff hx.1 hy.1, Bool.and_eq_true, beq_iff_eq,
      deepEqualMembers_iff]
    refine and_congr_right fun _ => forall₂_congr fun p hp => exists_congr fun w => ?_
    refine and_congr_right fun hw => ih p hp (hx.2 p hp) (hy.2 _ (mem_of_lookup hw))
  | _ => cases y <;> simp [deepEqual, Json.value]

/-- `payloadsEqual` decides whether the payloads are equal with their numbers rounded. -/
theorem payloadsEqual_eq_true : payloadsEqual cmp a b = .ok true ↔
    Decodes a ∧ Decodes b ∧ roundedValue a = roundedValue b := by
  unfold payloadsEqual
  cases ha : normalizeMap a with
  | error err =>
    refine iff_of_false (by simp) fun h => ?_
    rw [normalizeMap_eq_ok.mpr ⟨h.1, rfl⟩] at ha
    cases ha
  | ok na =>
    obtain ⟨hda, rfl⟩ := normalizeMap_eq_ok.mp ha
    cases hb : normalizeMap b with
    | error err =>
      refine iff_of_false (by simp) fun h => ?_
      rw [normalizeMap_eq_ok.mpr ⟨h.2.1, rfl⟩] at hb
      cases hb
    | ok nb =>
      obtain ⟨hdb, rfl⟩ := normalizeMap_eq_ok.mp hb
      have hdistinct {t : Payload} (h : Decodes t) :
          ((t.without volatileFields).mapNum toFloat64).distinct = true := by
        rw [Json.distinct_mapNum]
        exact Json.distinct_without t h.distinct
      have hiff := cmp.equal_iff (hdistinct hda) (hdistinct hdb)
      rw [Json.value_mapNum, Json.value_mapNum] at hiff
      simpa [hda, hdb, roundedValue] using hiff

theorem roundedValue_congr (h : snapshotValue a = snapshotValue b) :
    roundedValue a = roundedValue b :=
  Json.value_congr Decimal.value (fun q => (float64 q).getD 0) h

theorem payloadsEqual_exact_iff :
    (payloadsEqual cmp a b = .ok true ↔ snapshotValue a = snapshotValue b) ↔ ToldApart a b := by
  rw [payloadsEqual_eq_true]
  constructor
  · intro h
    refine ⟨fun ha hb hc => hc.1 (h.mp ⟨ha, hb, hc.2⟩), fun hs => ?_⟩
    obtain ⟨ha, hb, -⟩ := h.mpr hs
    exact ⟨ha, hb⟩
  · rintro ⟨hapart, hdecodes⟩
    constructor
    · rintro ⟨ha, hb, hrounded⟩
      by_contra hne
      exact hapart ha hb ⟨hne, hrounded⟩
    · intro hs
      obtain ⟨ha, hb⟩ := hdecodes hs
      exact ⟨ha, hb, roundedValue_congr hs⟩

theorem toldApart_of_integers (ha : Decodes a) (hb : Decodes b)
    (h : ∀ t ∈ [a, b], ∀ d ∈ (t.without volatileFields).numbers,
      ∃ n : ℤ, d.value = n ∧ |n| < 2 ^ 53) : ToldApart a b := by
  have hexact : ∀ t ∈ [a, b], roundedValue t = snapshotValue t := by
    intro t ht
    refine Json.value_eq_of_numbers _ fun d hd => ?_
    obtain ⟨n, hn, hlt⟩ := h t ht d hd
    rw [toFloat64, hn, float64_intCast hlt, Option.getD_some]
  refine ⟨fun _ _ hc => hc.1 ?_, fun _ => ⟨ha, hb⟩⟩
  rw [← hexact a (by simp), ← hexact b (by simp)]
  exact hc.2

/-- The comparison is exact for payloads whose numbers are integers of up to 53 bits. -/
theorem payloadsEqual_integers (ha : Decodes a) (hb : Decodes b)
    (h : ∀ t ∈ [a, b], ∀ d ∈ (t.without volatileFields).numbers,
      ∃ n : ℤ, d.value = n ∧ |n| < 2 ^ 53) :
    payloadsEqual cmp a b = .ok true ↔ snapshotValue a = snapshotValue b :=
  payloadsEqual_exact_iff.mpr (toldApart_of_integers ha hb h)

end Comparison

section Skipping

/-- The comparison of two payloads is exact if it tells them apart, and no `Create` skips a
snapshot that it tells apart from the last one and that differs from it. -/
theorem change_detection_exact (cmp : Comparer) (a b : Payload) :
    ((payloadsEqual cmp a b = .ok true ↔ snapshotValue a = snapshotValue b) ↔ ToldApart a b) ∧
    ∀ (ι : Type) [DecidableEq ι] (jobs : ι → Job Payload) (tr : List (Point ι Payload))
      (c : Config ι (Call Payload) Ans (Table Payload) (Result Payload)) (i : ι)
      (core : Core Payload) (new : NewAuditLog Payload),
      Run (calls jobs) tr c → jobs i = .create core new → core.payloadsEqual = payloadsEqual cmp →
      c.procs i = .ret (.created (.ok none)) →
      ∃ q r t body last, q :: r <:+ tr ∧
        q.act = .proc i ⟨t, .queryLast new.toModel, .ok last⟩ ∧
        q.pre.queryLast new.toModel = .ok last ∧ new.body = .ok body ∧
        (ToldApart body last.payload → snapshotValue body = snapshotValue last.payload) := by
  refine ⟨payloadsEqual_exact_iff, ?_⟩
  intro ι _ jobs tr c i core new h hjob hcore hret
  obtain ⟨-, t, h', body, last, hh, hbody, hequal⟩ := ends_of_returned h hjob hret
  have hsuf : ⟨t, .queryLast new.toModel, .ok last⟩ :: h' <:+ hist i tr := hh ▸ suffix_refl _
  obtain ⟨q, r, hq, ha, -⟩ := exists_suffix_of_hist hsuf
  have hread := (entry_runs_of h hq ha).read rfl
  refine ⟨q, r, t, body, last, hq, ha, hread.symm, hbody, fun htold => ?_⟩
  rw [hcore] at hequal
  exact (payloadsEqual_exact_iff.mpr htold).mp hequal

/-- `cmp.Equal` as `reflect.DeepEqual`; nothing reads the text. -/
def deepComparer : Comparer := ⟨deepEqual, fun _ _ => "", deepEqual_iff⟩

def balance (n : Int) : Payload := .obj [("balance", .num ⟨n, 0⟩)]

theorem payloadsEqual_balance : payloadsEqual deepComparer (balance 1) (balance 2) = .ok true ↔
    snapshotValue (balance 1) = snapshotValue (balance 2) := by
  have hone : Decodes (balance 1) := ⟨rfl, by decide, by decide, by decide +kernel⟩
  have htwo : Decodes (balance 2) := ⟨rfl, by decide, by decide, by decide +kernel⟩
  have hvalue : ∀ n : Int, ∀ d ∈ ((balance n).without volatileFields).numbers, d.value = n := by
    simp [balance, Json.without, Json.withoutMembers, Json.numbers, Json.numbersMembers,
      volatileFields, Decimal.value]
  refine payloadsEqual_integers hone htwo ?_
  simp only [forall_mem_cons, not_mem_nil, false_implies, implies_true, and_true]
  exact ⟨fun d hd => ⟨1, hvalue 1 d hd, by decide⟩, fun d hd => ⟨2, hvalue 2 d hd, by decide⟩⟩

/-- Two balances with one float64, and a number that is not a float64. -/
theorem snapshots_confused :
    payloadsEqual deepComparer (balance (2 ^ 53)) (balance (2 ^ 53 + 1)) = .ok true ∧
      snapshotValue (balance (2 ^ 53)) ≠ snapshotValue (balance (2 ^ 53 + 1)) ∧
      payloadsEqual deepComparer (balance (10 ^ 400)) (balance (10 ^ 400)) ≠ .ok true := by
  refine ⟨by decide +kernel, fun h => ?_, by decide +kernel⟩
  have hname := congrFun (Value.obj.inj h) "balance"
  simp [Json.withoutMembers, Json.valueMembers, Json.value, Json.without, volatileFields,
    Decimal.value] at hname

def snapshotOf (body : Payload) : NewAuditLog Payload :=
  ⟨user, "PUT", "/users/1", .ok body, "admin"⟩

def payloadCore : Core Payload := ⟨0, ⟨0, 0, 0, 0⟩, payloadsEqual deepComparer⟩

/-- Two calls of `Create` for one model. -/
def pairJobs (first second : Payload) (i : Fin 2) : Job Payload :=
  .create payloadCore (snapshotOf (if i = 0 then first else second))

def firstRow (first : Payload) : AuditLog Payload := Core.entry (snapshotOf first) first 1 0

def firstTable (first : Payload) : Table Payload :=
  ((.empty : Table Payload).save 1 (firstRow first)).2

/-- The first call stores version 1, and then the second one reads it. -/
def pairRun (first : Payload) : List (Point (Fin 2) Payload) :=
  [⟨.proc 1 ⟨0, .queryLast user, .ok { firstRow first with id := 1 }⟩, firstTable first,
      firstTable first⟩,
    ⟨.proc 0 ⟨0, .save (firstRow first), none⟩, .empty, firstTable first⟩,
    ⟨.proc 0 ⟨0, .now, 0⟩, .empty, .empty⟩,
    ⟨.proc 0 ⟨0, .queryLast user, (.empty : Table Payload).queryLast user⟩, .empty, .empty⟩]

/-- What `Create` returns when the comparison with the last version ends it. -/
def endedBy : Except Err Bool → Option (Except Err (Option (AuditLog Payload)))
  | .ok true => some (.ok none)
  | .ok false => none
  | .error err => some (.error err)

theorem exec_endedBy {first second : Payload} {res : Except Err (Option (AuditLog Payload))}
    (h : endedBy (payloadsEqual deepComparer second first) = some res) :
    Exec (pairJobs first second 1).prog
      [⟨(0 : Int), .queryLast user, .ok { firstRow first with id := 1 }⟩]
      (.ret (.created res)) := by
  have hread : Exec (τ := Int) (pairJobs first second 1).prog _ _ :=
    Exec.step 0 (.ok { firstRow first with id := 1 }) Exec.start
  have hu : payloadCore.unchanged second (.ok { firstRow first with id := 1 }) =
      payloadsEqual deepComparer second first := rfl
  convert hread using 1
  · rfl
  · cases he : payloadsEqual deepComparer second first with
    | error err =>
      rw [he] at h hu
      cases h
      simp [Prog.bind, Core.readError, hu]
    | ok same =>
      rw [he] at h hu
      cases same with
      | false => cases h
      | true =>
        cases h
        simp [Prog.bind, Core.readError, hu]

theorem pairRun_runs (first second : Payload) :
    ∃ c, Run (calls (pairJobs first second)) (pairRun first) c ∧
      c.procs 0 = .ret (.created (.ok (some (firstRow first)))) ∧
      ∀ res, endedBy (payloadsEqual deepComparer second first) = some res →
        c.procs 1 = .ret (.created res) := by
  have h₁ := (Run.init (S := calls (pairJobs first second)) rfl).step
    (e := ⟨.proc 0 ⟨0, .queryLast user, _⟩, _, _⟩) (by simp)
    (.proc rfl (.inl (.queryLast user)))
  have h₂ := h₁.step (e := ⟨.proc 0 ⟨0, .now, 0⟩, _, _⟩) (by simp [Act.time])
    (.proc rfl (.inl (.now 0)))
  have h₃ := h₂.step (e := ⟨.proc 0 ⟨0, .save (firstRow first), _⟩, _, _⟩) (by simp [Act.time])
    (.proc rfl (.inl (.save 1 (firstRow first))))
  have h₄ := h₃.step (e := ⟨.proc 1 ⟨0, .queryLast user, _⟩, _, _⟩) (by simp [Act.time])
    (.proc rfl (.inl (.queryLast user)))
  exact ⟨_, h₄, rfl, fun res hres => (h₄.exec 1).unique (exec_endedBy hres)⟩

def named (fields : List (String × Payload)) : Payload := .obj (("name", .str "ann") :: fields)

/-- A snapshot that differs from the last one in `updated_at` is skipped. -/
theorem change_detection_exact_touched :
    ∃ c, Run (calls (pairJobs (named []) (named [("updated_at", .str "today")])))
        (pairRun (named [])) c ∧ c.procs 1 = .ret (.created (.ok none)) ∧
      ∃ q r t body last, q :: r <:+ pairRun (named []) ∧
        q.act = .proc 1 ⟨t, .queryLast user, .ok last⟩ ∧ q.pre.queryLast user = .ok last ∧
        .ok (named [("updated_at", .str "today")]) = Except.ok (ε := Err) body ∧
        (ToldApart body last.payload → snapshotValue body = snapshotValue last.payload) := by
  obtain ⟨c, h, -, hret⟩ := pairRun_runs (named []) (named [("updated_at", .str "today")])
  have hnone := hret (.ok none) rfl
  exact ⟨c, h, hnone,
    (change_detection_exact deepComparer (named []) (named [])).2 _ _ _ c 1 payloadCore
      (snapshotOf (named [("updated_at", .str "today")])) h rfl rfl hnone⟩

end Skipping

end Skit.Auditlog
