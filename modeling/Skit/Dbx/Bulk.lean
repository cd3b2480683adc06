import Skit.Dbx.Tran

/-!
# Bulk inserts

`BulkInsert` cuts the values into batches of whole rows and runs one multi-row `INSERT` for each of
them, until one fails. The texts of the table, the columns and the conflict action go into the
statement as they are, so a question mark in one of them is a placeholder too many.
-/
namespace Skit.Dbx
open List

open Lib Prog

variable {V τ : Type}

section Code

def maxParameters : Nat := 1000

/-- A statement with its arguments. -/
structure Insert (V : Type) where
  query : String
  args : List V
  deriving DecidableEq

/-- The loop that writes an item `n` times, with a comma before each but the first. -/
def listed (n : Nat) (item : String) : String :=
  String.join ((List.range n).map fun i => (if 0 < i then ", " else "") ++ item)

def buildInsertQuery (table : String) (columns : List String) (nValues : Nat)
    (conflictAction : String) : String :=
  let nCols := columns.length
  let nRows := nValues / nCols
  "INSERT INTO " ++ table ++ " (" ++ ", ".intercalate columns ++ ") VALUES " ++
    listed nRows ("(" ++ listed nCols "?" ++ ")") ++
    (if conflictAction = "" then "" else " " ++ conflictAction)

/-- What is assumed of `Rebind`, which `sqlx` has for every driver: each question mark becomes a
placeholder. `sign` begins a placeholder of the driver. -/
structure Driver where
  rebind : String → String
  sign : Char
  count_rebind : ∀ query : String, sign = '?' ∨ sign ∉ query.toList →
    (rebind query).toList.count sign = query.toList.count '?'

variable (d : Driver) (cls : Option Classifier) (table : String) (columns : List String)
  (values : List V) (conflictAction : String)

/-- The loop of `BulkInsert` from the value `left` on. The number bounds the batches to go. -/
def insertFrom (stride : Nat) :
    Nat → Nat → Prog (Insert V) (fun _ => Option Err) (Option Err)
  | 0, _ => .ret none
  | n + 1, left =>
    if left < values.length then
      let right := min (left + stride) values.length
      let batch := (values.take right).drop left
      let query := d.rebind (buildInsertQuery table columns batch.length conflictAction)
      .call ⟨query, batch⟩ fun
        | some err =>
          .ret (some (wrapf ("dbx: bulk insert into " ++ table ++ " [" ++ toString left ++ ":" ++
            toString right ++ "]") (classify cls err)))
        | none => insertFrom stride n (left + stride)
    else .ret none

def bulkInsert : Prog (Insert V) (fun _ => Option Err) (Option Err) :=
  let failed msg := .ret (some (.text ("dbx: bulk insert into " ++ table ++ ": " ++ msg)))
  if columns.length = 0 then failed "no columns"
  else if values.length % columns.length ≠ 0 then
    failed ("len(values)=" ++ toString values.length ++ " not a multiple of len(columns)=" ++
      toString columns.length)
  else if values.length = 0 then .ret none
  else
    let stride := maxParameters / columns.length * columns.length
    if stride = 0 then failed ("too many columns (" ++ toString columns.length ++ ")")
    else insertFrom d cls table columns values conflictAction stride values.length 0

end Code

section Spec

/-- The text of an `INSERT` of so many rows. -/
def insertText (table : String) (columns : List String) (rows : Nat) (conflictAction : String) :
    String :=
  "INSERT INTO " ++ table ++ " (" ++ ", ".intercalate columns ++ ") VALUES " ++
    ", ".intercalate (List.replicate rows
      ("(" ++ ", ".intercalate (List.replicate columns.length "?") ++ ")")) ++
    (if conflictAction = "" then "" else " " ++ conflictAction)

/-- A statement of `rows` whole rows, at least one, with a placeholder for each argument. -/
structure Insert.Whole (d : Driver) (table : String) (columns : List String)
    (conflictAction : String) (st : Insert V) (rows : Nat) : Prop where
  pos : 0 < rows
  args : st.args.length = rows * columns.length
  bound : st.args.length ≤ maxParameters
  query : st.query = d.rebind (insertText table columns rows conflictAction)
  marks : (insertText table columns rows conflictAction).toList.count '?' = st.args.length
  placeholders : (d.sign = '?' ∨ d.sign ∉ (insertText table columns rows conflictAction).toList) →
    st.query.toList.count d.sign = st.args.length

/-- Batches of whole rows with the values, each within the bound. -/
structure Batches (columns : List String) (values : List V) (batches : List (List V)) : Prop where
  values : batches.flatten = values
  rows : ∀ batch ∈ batches, columns.length ∣ batch.length
  bound : ∀ batch ∈ batches, batch.length ≤ maxParameters

/-- The arguments of the statements of a history, in their order. -/
def sent (h : List (Event τ (Insert V) fun _ => Option Err)) : List (List V) :=
  (h.map (·.op.args)).reverse

/-- What `BulkInsert` has done when it returns. -/
structure Inserts (d : Driver) (table : String) (columns : List String) (values : List V)
    (conflictAction : String) (h : List (Event τ (Insert V) fun _ => Option Err))
    (r : Option Err) : Prop where
  statements : ∀ ev ∈ h, ∃ rows, ev.op.Whole d table columns conflictAction rows
  inserted : (∀ ev ∈ h, ev.ans = none) → r = none ∧ (sent h).flatten = values ∧
    ∀ batches, Batches columns values batches → (sent h).length ≤ batches.length
  failed : ∀ later ev earlier, h = later ++ ev :: earlier → ev.ans ≠ none →
    later = [] ∧ r ≠ none ∧ ∃ rows, (sent earlier).flatten = values.take (rows * columns.length)

end Spec

section Texts

theorem intercalate_replicate {α : Type} (sep item : List α) (n : Nat) :
    List.intercalate sep (List.replicate (n + 1) item) =
      item ++ (List.replicate n (sep ++ item)).flatten := by
  induction n with
  | zero => simp [List.intercalate]
  | succ n ih =>
    have hstep : List.intercalate sep (List.replicate (n + 1 + 1) item) =
        item ++ sep ++ List.intercalate sep (List.replicate (n + 1) item) := by
      simp [List.intercalate, replicate_succ]
    rw [hstep, ih, replicate_succ, flatten_cons]
    simp

theorem listed_eq (n : Nat) (item : String) :
    listed n item = ", ".intercalate (List.replicate n item) := by
  rw [← String.toList_inj, String.toList_intercalate, map_replicate]
  cases n with
  | zero => rfl
  | succ n =>
    have hrest : ((List.range n).map Nat.succ).map (fun i => (if 0 < i then ", " else "") ++ item) =
        List.replicate n (", " ++ item) := by
      simp [map_map, Function.comp_def]
    rw [intercalate_replicate, listed, range_succ_eq_map, map_cons, hrest,
      if_neg (Nat.lt_irrefl 0), String.empty_append, String.join_cons, String.toList_append,
      String.toList_join, flatMap_replicate, String.toList_append]

variable {conflictAction : String} {columns : List String} {table : String}

theorem buildInsertQuery_eq {rows : Nat} (hcols : 0 < columns.length) :
    buildInsertQuery table columns (rows * columns.length) conflictAction =
      insertText table columns rows conflictAction := by
  unfold buildInsertQuery insertText
  dsimp only
  rw [Nat.mul_div_cancel rows hcols, listed_eq columns.length "?", listed_eq]

theorem count_intercalate {c : Char} {sep : List Char} (hsep : c ∉ sep) (ls : List (List Char)) :
    (List.intercalate sep ls).count c = (ls.map (List.count c)).sum := by
  induction ls with
  | nil => rfl
  | cons l ls ih =>
    cases ls with
    | nil => simp [List.intercalate]
    | cons l' ls =>
      have hstep : List.intercalate sep (l :: l' :: ls) =
          l ++ sep ++ List.intercalate sep (l' :: ls) := by simp [List.intercalate]
      rw [hstep, count_append, count_append, ih, count_eq_zero.mpr hsep]
      simp

/-- The texts that go into a statement as they are have no question mark. -/
structure Plain (table : String) (columns : List String) (conflictAction : String) : Prop where
  table : '?' ∉ table.toList
  columns : ∀ column ∈ columns, '?' ∉ column.toList
  conflictAction : '?' ∉ conflictAction.toList

theorem count_insertText (hp : Plain table columns conflictAction) (rows : Nat) :
    (insertText table columns rows conflictAction).toList.count '?' = rows * columns.length := by
  have hcolumns : (columns.map fun column => column.toList.count '?').sum = 0 := by
    have hzero : ∀ column ∈ columns, column.toList.count '?' = 0 := fun column hmem =>
      count_eq_zero.mpr (hp.columns column hmem)
    rw [map_congr_left hzero]
    simp
  have hrow : ("(" ++ ", ".intercalate (List.replicate columns.length "?") ++ ")").toList.count '?'
      = columns.length := by
    simp only [String.toList_append, count_append, String.toList_intercalate]
    rw [count_intercalate (by decide), map_map, map_replicate]
    simp
  have haction :
      (if conflictAction = "" then "" else " " ++ conflictAction).toList.count '?' = 0 := by
    split_ifs
    · rfl
    · rw [String.toList_append, count_append, count_eq_zero.mpr hp.conflictAction]
      rfl
  have hinsert : "INSERT INTO ".toList.count '?' = 0 := by decide
  have hopen : " (".toList.count '?' = 0 := by decide
  have hvalues : ") VALUES ".toList.count '?' = 0 := by decide
  unfold insertText
  simp only [String.toList_append, count_append, count_eq_zero.mpr hp.table,
    String.toList_intercalate, haction, hinsert, hopen, hvalues]
  rw [count_intercalate (by decide), count_intercalate (by decide)]
  simp only [map_map, Function.comp_def, hcolumns, map_replicate]
  rw [hrow, sum_replicate_nat]
  omega

end Texts

section Loop

variable {d : Driver} {cls : Option Classifier} {table : String} {columns : List String}
  {values : List V} {conflictAction : String} {n : Nat}
  {h : List (Event τ (Insert V) fun _ => Option Err)}

/-- The values of a full batch. -/
def stride (columns : List String) : Nat := maxParameters / columns.length * columns.length

theorem stride_pos (hcols : 0 < columns.length) (hmax : columns.length ≤ maxParameters) :
    0 < stride columns :=
  Nat.mul_pos (Nat.div_pos hmax hcols) hcols

theorem le_stride {k : Nat} (hcols : 0 < columns.length) (hdvd : columns.length ∣ k)
    (hk : k ≤ maxParameters) : k ≤ stride columns := by
  obtain ⟨rows, rfl⟩ := hdvd
  rw [stride, Nat.mul_comm]
  exact Nat.mul_le_mul_right _ ((Nat.le_div_iff_mul_le hcols).mpr (by rwa [Nat.mul_comm]))

theorem Batches.length_le {batches : List (List V)} (hcols : 0 < columns.length)
    (hb : Batches columns values batches) : values.length ≤ batches.length * stride columns := by
  obtain ⟨rfl, hrows, hbound⟩ := hb
  induction batches with
  | nil => simp
  | cons batch batches ih =>
    rw [forall_mem_cons] at hrows hbound
    have hfirst := le_stride hcols hrows.1 hbound.1
    have hrest := ih hrows.2 hbound.2
    rw [flatten_cons, length_append, length_cons, Nat.succ_mul]
    omega

/-- `n` full batches have been inserted, and the last of them was needed. -/
structure Before (d : Driver) (table : String) (columns : List String) (values : List V)
    (conflictAction : String) (n : Nat) (h : List (Event τ (Insert V) fun _ => Option Err)) :
    Prop where
  statements : ∀ ev ∈ h, ∃ rows, ev.op.Whole d table columns conflictAction rows
  answers : ∀ ev ∈ h, ev.ans = none
  count : h.length = n
  needed : ∀ m < n, m * stride columns < values.length
  inserted : (sent h).flatten = values.take (n * stride columns)

theorem Before.nil : Before d table columns values conflictAction 0
    ([] : List (Event τ (Insert V) fun _ => Option Err)) :=
  ⟨nofun, nofun, rfl, nofun, by simp [sent]⟩

/-- The batch after `n` full ones. -/
def batch (columns : List String) (values : List V) (n : Nat) : List V :=
  (values.take (min (n * stride columns + stride columns) values.length)).drop (n * stride columns)

theorem take_append_batch (columns : List String) (values : List V) (n : Nat) :
    values.take (n * stride columns) ++ batch columns values n =
      values.take ((n + 1) * stride columns) := by
  have hmin : values.take (min (n * stride columns + stride columns) values.length) =
      values.take (n * stride columns + stride columns) := by
    rw [← take_eq_take_min]
  have hle : n * stride columns ≤ n * stride columns + stride columns := Nat.le_add_right _ _
  rw [batch, hmin, Nat.succ_mul]
  conv_rhs => rw [← take_append_drop (n * stride columns) (values.take _)]
  rw [take_take, min_eq_left hle]

theorem length_batch (columns : List String) (values : List V) (n : Nat) :
    (batch columns values n).length =
      min (stride columns) (values.length - n * stride columns) := by
  rw [batch, length_drop, length_take]
  omega

theorem exists_rows (hcols : 0 < columns.length) (hmax : columns.length ≤ maxParameters)
    (hdvd : columns.length ∣ values.length) (hleft : n * stride columns < values.length) :
    ∃ rows, 0 < rows ∧ (batch columns values n).length = rows * columns.length := by
  have hrows : columns.length ∣ (batch columns values n).length := by
    have hstride : columns.length ∣ stride columns := Dvd.intro_left _ rfl
    rw [length_batch]
    rcases min_choice (stride columns) (values.length - n * stride columns) with heq | heq
    · rw [heq]
      exact hstride
    · rw [heq]
      exact Nat.dvd_sub hdvd (hstride.mul_left n)
  have hpos : 0 < (batch columns values n).length := by
    have := stride_pos hcols hmax
    rw [length_batch]
    omega
  obtain ⟨rows, hlen⟩ := hrows
  rw [Nat.mul_comm] at hlen
  exact ⟨rows, Nat.pos_of_mul_pos_right (hlen ▸ hpos), hlen⟩

/-- The statement for the next batch. -/
def nextInsert (d : Driver) (table : String) (columns : List String) (values : List V)
    (conflictAction : String) (n : Nat) : Insert V :=
  ⟨d.rebind (buildInsertQuery table columns (batch columns values n).length conflictAction),
    batch columns values n⟩

theorem nextInsert_whole (hcols : 0 < columns.length) (hmax : columns.length ≤ maxParameters)
    (hdvd : columns.length ∣ values.length) (hp : Plain table columns conflictAction)
    (hleft : n * stride columns < values.length) :
    ∃ rows, (nextInsert d table columns values conflictAction n).Whole d table columns
      conflictAction rows := by
  obtain ⟨rows, hpos, hlen⟩ := exists_rows hcols hmax hdvd hleft
  have hbound : (batch columns values n).length ≤ maxParameters := by
    have hstride : stride columns ≤ maxParameters := Nat.div_mul_le_self _ _
    rw [length_batch]
    omega
  have hquery : (nextInsert d table columns values conflictAction n).query =
      d.rebind (insertText table columns rows conflictAction) := by
    rw [nextInsert, hlen, buildInsertQuery_eq hcols]
  have hmarks : (insertText table columns rows conflictAction).toList.count '?' =
      (batch columns values n).length := by rw [count_insertText hp, ← hlen]
  refine ⟨rows, hpos, hlen, hbound, hquery, hmarks, fun hsign => ?_⟩
  rw [hquery, d.count_rebind _ hsign]
  exact hmarks

theorem sent_cons (ev : Event τ (Insert V) fun _ => Option Err) :
    sent (ev :: h) = sent h ++ [ev.op.args] := by
  simp [sent]

theorem Before.inserts (hcols : 0 < columns.length)
    (hb : Before d table columns values conflictAction n h)
    (hleft : values.length ≤ n * stride columns) :
    Inserts d table columns values conflictAction h none := by
  refine ⟨hb.statements, fun _ => ⟨rfl, ?_, fun batches hbatches => ?_⟩, ?_⟩
  · rw [hb.inserted, take_of_length_le hleft]
  · rw [sent, length_reverse, length_map, hb.count]
    -- fewer batches would not reach the last value
    by_contra hfew
    have hneeded := hb.needed _ (not_le.mp hfew)
    exact absurd (hbatches.length_le hcols) (not_le.mpr hneeded)
  · rintro later ev earlier rfl hans
    exact absurd (hb.answers ev (by simp)) hans

theorem Before.fails {rows : Nat} {st : Insert V} {t : τ} {err : Err} {r : Option Err}
    (hb : Before d table columns values conflictAction n h)
    (hst : st.Whole d table columns conflictAction rows) (hr : r ≠ none) :
    Inserts d table columns values conflictAction (⟨t, st, some err⟩ :: h) r := by
  refine ⟨forall_mem_cons.mpr ⟨⟨rows, hst⟩, hb.statements⟩, fun hall => ?_, ?_⟩
  · cases hall _ mem_cons_self
  · intro later ev earlier heq hans
    cases later with
    | nil =>
      obtain ⟨rfl, rfl⟩ := List.cons.inj heq
      refine ⟨rfl, hr, n * (maxParameters / columns.length), ?_⟩
      rw [hb.inserted, stride, Nat.mul_assoc]
    | cons a later =>
      have hmem : ev ∈ h := by
        rw [(List.cons.inj heq).2]
        exact mem_append_right later mem_cons_self
      exact absurd (hb.answers ev hmem) hans

theorem Before.next (t : τ) (hb : Before d table columns values conflictAction n h)
    (hleft : n * stride columns < values.length)
    (hst : ∃ rows, (nextInsert d table columns values conflictAction n).Whole d table columns
      conflictAction rows) :
    Before d table columns values conflictAction (n + 1)
      (⟨t, nextInsert d table columns values conflictAction n, none⟩ :: h) := by
  refine ⟨forall_mem_cons.mpr ⟨hst, hb.statements⟩,
    forall_mem_cons.mpr ⟨rfl, hb.answers⟩, ?_, fun m hm => ?_, ?_⟩
  · rw [length_cons, hb.count]
  · exact lt_of_le_of_lt (Nat.mul_le_mul_right _ (Nat.lt_succ_iff.mp hm)) hleft
  · rw [sent_cons, flatten_append, hb.inserted, flatten_singleton]
    exact take_append_batch columns values n

/-- The loop after `n` full batches, with a bound for those to go. -/
theorem Before.insertFrom (hcols : 0 < columns.length) (hmax : columns.length ≤ maxParameters)
    (hdvd : columns.length ∣ values.length) (hp : Plain table columns conflictAction) {k : Nat}
    (hb : Before d table columns values conflictAction n h)
    (hk : values.length ≤ n * stride columns + k) :
    wp (fun _ _ => True) (fun r h' => Inserts d table columns values conflictAction h' r)
      (insertFrom d cls table columns values conflictAction (stride columns) k
        (n * stride columns)) h := by
  induction k generalizing n h with
  | zero => exact hb.inserts hcols hk
  | succ k ih =>
    rw [Dbx.insertFrom]
    split_ifs with hleft
    · have hst := nextInsert_whole (d := d) hcols hmax hdvd hp hleft
      refine ⟨trivial, fun t ans => ?_⟩
      cases ans with
      | some err =>
        obtain ⟨rows, hst⟩ := hst
        exact hb.fails hst (Option.some_ne_none _)
      | none =>
        have hstride := stride_pos hcols hmax
        have hrest := ih (hb.next t hleft hst) (by rw [Nat.succ_mul]; omega)
        rwa [Nat.succ_mul] at hrest
    · exact hb.inserts hcols (not_lt.mp hleft)

/-- `BulkInsert` inserts every row once and in the order of the values. -/
theorem bulkInsert_inserts {r : Option Err} (hne : columns ≠ [])
    (hmax : columns.length ≤ maxParameters) (hdvd : columns.length ∣ values.length)
    (hp : Plain table columns conflictAction)
    (hx : Exec (bulkInsert d cls table columns values conflictAction) h (.ret r)) :
    Inserts d table columns values conflictAction h r := by
  have hcols : 0 < columns.length := length_pos_iff.mpr hne
  have hwp : wp (fun _ _ => True) (fun r h' => Inserts d table columns values conflictAction h' r)
      (bulkInsert d cls table columns values conflictAction)
      ([] : List (Event τ (Insert V) fun _ => Option Err)) := by
    have hmod : ¬ values.length % columns.length ≠ 0 :=
      not_not_intro (Nat.mod_eq_zero_of_dvd hdvd)
    rw [bulkInsert, if_neg hcols.ne', if_neg hmod]
    split_ifs with hempty
    · exact Before.nil.inserts hcols (by omega)
    · have hstride : maxParameters / columns.length * columns.length ≠ 0 :=
        (stride_pos hcols hmax).ne'
      have hloop : wp (τ := τ) _ _ (insertFrom d cls table columns values conflictAction
          (stride columns) values.length (0 * stride columns)) [] :=
        Before.nil.insertFrom hcols hmax hdvd hp (by omega)
      rw [Nat.zero_mul] at hloop
      dsimp only
      rwa [if_neg hstride]
  exact hx.wp hwp

/-- A driver that takes the question marks themselves. -/
def questionMarks : Driver := ⟨id, '?', fun _ _ => rfl⟩

/-- Two rows of two columns. -/
def twoRows : List (Event Nat (Insert Nat) fun _ => Option Err) :=
  [⟨0, ⟨"INSERT INTO t (a, b) VALUES (?, ?), (?, ?)", [1, 2, 3, 4]⟩, none⟩]

theorem twoRows_inserts :
    Exec (bulkInsert questionMarks none "t" ["a", "b"] [1, 2, 3, 4] "") twoRows (.ret none) ∧
      Inserts questionMarks "t" ["a", "b"] [1, 2, 3, 4] "" twoRows none := by
  have hx : Exec (bulkInsert questionMarks none "t" ["a", "b"] [1, 2, 3, 4] "") twoRows
    (.ret none) := Exec.start.of_play twoRows.reverse rfl
  have hplain : Plain "t" ["a", "b"] "" := ⟨by decide, by decide, by decide⟩
  exact ⟨hx, bulkInsert_inserts (by decide) (by decide) (by decide) hplain hx⟩

/-- A condition with the operator `?` of a driver. -/
def conflict : String := "ON CONFLICT (id) DO UPDATE SET n = 0 WHERE t.tags ? 'new'"

/-- One row with that condition. -/
def oneRow (d : Driver) : List (Event Nat (Insert Nat) fun _ => Option Err) :=
  [⟨0, ⟨d.rebind (buildInsertQuery "t" ["id"] 1 conflict), [7]⟩, none⟩]

/-- The operator becomes a placeholder without an argument. -/
theorem oneRow_placeholders :
    (insertText "t" ["id"] 1 conflict).toList.count '?' = 2 ∧
      ∀ d, Exec (bulkInsert d none "t" ["id"] [7] conflict) (oneRow d) (.ret none) ∧
        ¬ Inserts d "t" ["id"] [7] conflict (oneRow d) none := by
  have hcount : (insertText "t" ["id"] 1 conflict).toList.count '?' = 2 := by decide +kernel
  refine ⟨hcount, fun d => ⟨Exec.start.of_play (oneRow d).reverse ?_, fun hi => ?_⟩⟩
  · simp [oneRow, play, bulkInsert, insertFrom, maxParameters]
  obtain ⟨rows, hwhole⟩ := hi.statements _ mem_cons_self
  have hrows : rows = 1 := by simpa [oneRow] using hwhole.args.symm
  have hone := hwhole.marks
  rw [hrows, hcount] at hone
  cases hone

end Loop

end Skit.Dbx
