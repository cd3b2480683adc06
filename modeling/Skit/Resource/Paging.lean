import Skit.Errs.Error
import Skit.Lib.Base64
import Skit.Lib.Keyset
import Skit.Page.Offset
import Skit.Resource.Store
import Skit.Lib.Timestamp
import Mathlib.Data.Prod.Lex

/-!
# Cursor paging of a generated resource

`QueryByCursor` reads the rows of a filter in descending order of `created_at` and `id`, one more
than the page has, and packs the key of the last row of the page into the token of the next one.
A client that follows the tokens walks over the keys (`follow_eq`), whatever is inserted and
deleted between its requests.
-/
namespace Skit.Page

open Lib

/-- A token and a limit in its range. -/
structure Cursor where
  token : List UInt8
  limit : Nat
  pos : 0 < limit

def newCursor (token : List UInt8) (limit : Int) : Cursor :=
  if h : limit ≤ 0 then ⟨token, defaultRowsPerPage, by decide⟩
  else if maxRowsPerPage < limit then ⟨token, maxRowsPerPage, by decide⟩
  else ⟨token, limit.toNat, by omega⟩

/-- The key in the token, unless the token is invalid. -/
def Cursor.key (c : Cursor) : Option (List UInt8) :=
  if c.token = [] then some [] else Base64.decode c.token

def encodeCursor (key : List UInt8) : List UInt8 :=
  if key = [] then [] else Base64.encode key

theorem newCursor_token (token : List UInt8) (limit : Int) :
    (newCursor token limit).token = token := by
  unfold newCursor
  split_ifs <;> rfl

theorem newCursor_limit (token token' : List UInt8) (limit : Int) :
    (newCursor token limit).limit = (newCursor token' limit).limit := by
  unfold newCursor
  split_ifs <;> rfl

theorem key_encodeCursor {c : Cursor} {key : List UInt8} (h : c.token = encodeCursor key) :
    c.key = some key := by
  by_cases hkey : key = []
  · rw [encodeCursor, if_pos hkey] at h
    rw [Cursor.key, if_pos h, hkey]
  · rw [encodeCursor, if_neg hkey] at h
    rw [Cursor.key, h, if_neg (Base64.encode_ne_nil hkey), Base64.decode_encode]

end Skit.Page

namespace Skit.Resource

open Lib Calendar Page List

section Cursors

/-- The bytes of a text in ASCII. -/
def bytes (cs : List Char) : List UInt8 := cs.map fun c => UInt8.ofNat c.toNat

/-- The bytes as characters, one for each. -/
def chars (bs : List UInt8) : List Char := bs.map fun b => Char.ofNat b.toNat

/-- `strings.Cut`. -/
def cut (sep : UInt8) : List UInt8 → Option (List UInt8 × List UInt8)
  | [] => none
  | b :: bs => if b = sep then some ([], bs) else (cut sep bs).map fun p => (b :: p.1, p.2)

inductive CursorError
  /-- The token is not base64. -/
  | invalid
  | malformedKey (key : List UInt8)
  | malformedTimestamp (ts : List UInt8)
  /-- The database cannot cast the id. -/
  | notUUID (id : List UInt8)
  deriving DecidableEq, Repr

def bar : UInt8 := 124

/-- The bytes of `created_at` and `id`, with a bar between them. -/
def encodeCursor (createdAt : Time) (id : UUID) : List UInt8 :=
  bytes (formatNano createdAt) ++ bar :: bytes id.string

def decodeCursor (key : List UInt8) : Except CursorError (Time × List UInt8) :=
  match cut bar key with
  | none => .error (.malformedKey key)
  | some (ts, id) =>
    match parseNano (chars ts) with
    | none => .error (.malformedTimestamp ts)
    | some t => .ok (t, id)

end Cursors

section Query

/-- What the statements ask of Postgres: a match of `ILIKE` and the cast of a text to a `uuid`,
which reads the form that `UUID.String` writes. -/
structure Postgres where
  ilike : String → String → Bool
  castUUID : List UInt8 → Option UUID
  cast_string : ∀ id : UUID, castUUID (bytes id.string) = some id

structure QueryFilter where
  name : Option String := none
  description : Option String := none

/-- What the rows are ordered by. -/
def Row.key (r : Row) : Int ×ₗ UUID := toLex (r.createdAt, r.id)

variable (pg : Postgres)

/-- The conditions of the `WHERE`. -/
def applyFilter (filter : QueryFilter) (extra : List (Row → Bool)) : List (Row → Bool) :=
  (filter.name.map fun s r => pg.ilike r.name ("%" ++ s ++ "%")).toList ++
    (filter.description.map fun s r => pg.ilike r.description ("%" ++ s ++ "%")).toList ++ extra

/-- `SELECT … WHERE … ORDER BY created_at DESC, id DESC LIMIT …`. -/
def select (t : Table) (wc : List (Row → Bool)) (limit : Nat) : List Row :=
  (Keyset.descending Row.key (t.rows.filter fun r => wc.all fun c => c r)).take limit

/-- The boundary that a key names; the driver binds it in microseconds. -/
def boundary (key : List UInt8) : Except CursorError (List (Row → Bool)) :=
  if key = [] then .ok []
  else do
    let (ts, id) ← decodeCursor key
    match pg.castUUID id with
    | none => .error (.notUUID id)
    | some after => .ok [fun r => r.key < toLex (stamp ts, after)]

def Row.token (r : Row) : List UInt8 :=
  Page.encodeCursor (encodeCursor (1000 * r.createdAt) r.id)

/-- `QueryByCursor` of the store, at a time when the table has these rows. -/
def queryByCursor (t : Table) (filter : QueryFilter) (cur : Cursor) :
    Except CursorError (List Row × List UInt8) := do
  let key ← cur.key.elim (.error .invalid) .ok
  let extra ← boundary pg key
  let rows := select t (applyFilter pg filter extra) (cur.limit + 1)
  if cur.limit < rows.length then
    .ok (rows.take cur.limit, ((rows.take cur.limit).getLast?.map Row.token).getD [])
  else .ok (rows, [])

/-- `QueryByCursor` of the core: every error of the store is an internal one. -/
def Core.queryByCursor (t : Table) (filter : QueryFilter) (cur : Cursor) :
    Except (Errs.Code × CursorError) (List Row × List UInt8) :=
  (Resource.queryByCursor pg t filter cur).mapError fun e => (Errs.internal, e)

/-- The requests of a client that follows the tokens, over the tables there are at each of them:
the pages, and whether the last one had no next token. -/
def follow (filter : QueryFilter) (limit : Int) (token : List UInt8) :
    List Table → Except (Errs.Code × CursorError) (List (List Row) × Bool)
  | [] => .ok ([], false)
  | t :: ts => do
    let (items, next) ← Core.queryByCursor pg t filter (newCursor token limit)
    if next = [] then .ok ([items], true)
    else do
      let (pages, done) ← follow filter limit next ts
      .ok (items :: pages, done)

end Query

section Keys

theorem chars_bytes {cs : List Char} (h : ∀ c ∈ cs, c.toNat < 256) : chars (bytes cs) = cs := by
  have hchar : ∀ c ∈ cs, Char.ofNat (UInt8.ofNat c.toNat).toNat = id c := by
    intro c hc
    rw [UInt8.toNat_ofNat', Nat.mod_eq_of_lt (h c hc), Char.ofNat_toNat, id]
  rw [chars, bytes, map_map]
  exact (map_congr_left hchar).trans (map_id cs)

theorem cut_append {sep : UInt8} {xs ys : List UInt8} (h : sep ∉ xs) :
    cut sep (xs ++ sep :: ys) = some (xs, ys) := by
  induction xs with
  | nil => rw [nil_append, cut, if_pos rfl]
  | cons x xs ih =>
    obtain ⟨hx, hxs⟩ := not_or.mp (mem_cons.not.mp h)
    rw [cons_append, cut, if_neg (Ne.symm hx), ih hxs]
    rfl

theorem decodeCursor_encodeCursor {t : Time} (h : InYears t) (id : UUID) :
    decodeCursor (encodeCursor t id) = .ok (t, bytes id.string) := by
  have hascii : ∀ c ∈ formatNano t, c.toNat < 124 := by
    intro c hc
    rcases mem_formatNano h hc with hc | hc
    · simp only [isDigit, decide_eq_true_eq] at hc
      omega
    · have hall : ∀ c ∈ ['-', 'T', ':', '.', 'Z'], c.toNat < 124 := by simp
      exact hall c hc
  have hbar : bar ∉ bytes (formatNano t) := by
    intro hmem
    obtain ⟨c, hc, heq⟩ := mem_map.mp hmem
    have hlt := hascii c hc
    have hnat := congrArg UInt8.toNat heq
    rw [UInt8.toNat_ofNat'] at hnat
    change c.toNat % 256 = 124 at hnat
    omega
  have hread : parseNano (chars (bytes (formatNano t))) = some t := by
    rw [chars_bytes fun c hc => (hascii c hc).trans (by decide), parseNano_formatNano h]
  simp only [decodeCursor, encodeCursor, cut_append hbar, hread]

end Keys

section Follow

variable {cur : Cursor} {after : Option (Int ×ₗ UUID)} {ts : List Table} (pg : Postgres)
  (filter : QueryFilter)

/-- The rows of the filter. -/
def matching (t : Table) : List Row :=
  t.rows.filter fun r => (applyFilter pg filter []).all fun c => c r

/-- The token of a boundary. -/
def keyToken (k : Int ×ₗ UUID) : List UInt8 :=
  Page.encodeCursor (encodeCursor (1000 * (ofLex k).1) (ofLex k).2)

def afterToken (after : Option (Int ×ₗ UUID)) : List UInt8 := after.elim [] keyToken

/-- The boundaries that a timestamp can write. -/
def InYearsKey (k : Int ×ₗ UUID) : Prop := InYears (1000 * (ofLex k).1)

theorem encodeCursor_ne_nil (t : Time) (id : UUID) : encodeCursor t id ≠ [] := by
  rw [encodeCursor]
  exact append_ne_nil_of_right_ne_nil _ (cons_ne_nil _ _)

theorem keyToken_ne_nil (k : Int ×ₗ UUID) : keyToken k ≠ [] := by
  rw [keyToken, Page.encodeCursor, if_neg (encodeCursor_ne_nil _ _)]
  exact Base64.encode_ne_nil (encodeCursor_ne_nil _ _)

theorem afterToken_eq_nil {after : Option (Int ×ₗ UUID)} :
    afterToken after = [] ↔ after = none := by
  cases after with
  | none => exact iff_of_true rfl rfl
  | some k => exact iff_of_false (keyToken_ne_nil k) (Option.some_ne_none k)

theorem stamp_mul (t : Int) : stamp (1000 * t) = t := by
  unfold stamp
  omega

theorem boundary_eq {k : Int ×ₗ UUID} (h : InYearsKey k) :
    boundary pg (encodeCursor (1000 * (ofLex k).1) (ofLex k).2) = .ok [fun r => r.key < k] := by
  rw [boundary, if_neg (encodeCursor_ne_nil _ _), decodeCursor_encodeCursor h]
  simp only [bind, Except.bind, pg.cast_string, stamp_mul]
  rfl

theorem select_eq (t : Table) (extra : List (Row → Bool)) (n : Nat) :
    select t (applyFilter pg filter extra) n = (Keyset.descending Row.key
      ((matching pg filter t).filter fun r => extra.all fun c => c r)).take n := by
  have hrows : t.rows.filter (fun r => (applyFilter pg filter extra).all fun c => c r) =
      (matching pg filter t).filter fun r => extra.all fun c => c r := by
    rw [matching, filter_filter]
    refine filter_congr fun r _ => ?_
    simp only [applyFilter, append_nil, all_append]
    exact Bool.and_comm _ _
  rw [select, hrows]

theorem queryByCursor_eq (t : Table) (hcur : cur.token = afterToken after)
    (hin : ∀ k ∈ after, InYearsKey k) :
    queryByCursor pg t filter cur =
      .ok ((Keyset.page Row.key cur.limit after (matching pg filter t)).1,
        afterToken (Keyset.page Row.key cur.limit after (matching pg filter t)).2) := by
  have hextra : ∃ key extra, cur.key = some key ∧ boundary pg key = .ok extra ∧
      (matching pg filter t).filter (fun r => extra.all fun c => c r) =
        Keyset.past Row.key after (matching pg filter t) := by
    cases after with
    | none =>
      refine ⟨[], [], key_encodeCursor hcur, if_pos rfl, filter_congr fun r _ => ?_⟩
      exact (decide_eq_true (Keyset.past_none r.key)).symm
    | some k =>
      refine ⟨_, _, key_encodeCursor hcur, boundary_eq pg (hin k rfl),
        filter_congr fun r _ => ?_⟩
      simp only [all_cons, all_nil, Bool.and_true, Keyset.past_some]
  obtain ⟨key, extra, hkey, hboundary, hpast⟩ := hextra
  simp only [queryByCursor, hkey, hboundary, bind, Except.bind, Option.elim_some, select_eq, hpast,
    Keyset.page]
  split
  · cases hlast : (List.take cur.limit (List.take (cur.limit + 1) (Keyset.descending Row.key
        (Keyset.past Row.key after (matching pg filter t))))).getLast? <;> rfl
  · rfl

/-- Every row was created in a year of four digits. -/
def Table.InYears (t : Table) : Prop := ∀ r ∈ t.rows, Calendar.InYears (1000 * r.createdAt)

theorem follow_eq (limit : Int) (hts : ∀ t ∈ ts, t.InYears) (hin : ∀ k ∈ after, InYearsKey k) :
    follow pg filter limit (afterToken after) ts = .ok (Keyset.walk Row.key
      (newCursor [] limit).limit after (ts.map (matching pg filter))) := by
  induction ts generalizing after with
  | nil => rfl
  | cons t ts ih =>
    have hrequest := queryByCursor_eq pg filter t
      (newCursor_token (afterToken after) limit) hin
    rw [newCursor_limit _ [] limit] at hrequest
    have hboundary : ∀ b, (Keyset.page Row.key (newCursor [] limit).limit after
        (matching pg filter t)).2 = some b → InYearsKey b := by
      intro b hb
      obtain ⟨r, hr, rfl⟩ := Keyset.exists_of_boundary hb
      exact hts t mem_cons_self r (mem_of_mem_filter hr)
    rw [follow, Core.queryByCursor, hrequest, map_cons, Keyset.walk]
    generalize Keyset.page Row.key (newCursor [] limit).limit after (matching pg filter t) = p at *
    simp only [Except.mapError, bind, Except.bind, afterToken_eq_nil]
    cases hp : p.2 with
    | none => rfl
    | some b =>
      rw [if_neg (Option.some_ne_none b), ih (fun u hu => hts u (mem_cons_of_mem t hu))]
      intro k hk
      exact Option.some.inj hk ▸ hboundary b hp

theorem key_inj {r r' : Row} (h : r.key = r'.key) : r.createdAt = r'.createdAt ∧ r.id = r'.id :=
  Prod.mk.inj (toLex.injective h)

theorem key_eq_iff {r : Row} {createdAt : Int} {id : UUID} :
    r.key = toLex (createdAt, id) ↔ r.createdAt = createdAt ∧ r.id = id :=
  toLex.injective.eq_iff.trans Prod.mk_inj

theorem nodup_matching (t : Table) : ((matching pg filter t).map Row.key).Nodup := by
  have hids : ((matching pg filter t).map Row.id).Nodup :=
    t.distinct.sublist (filter_sublist.map Row.id)
  exact pairwise_map.mpr ((pairwise_map.mp hids).imp fun hne heq => hne (key_inj heq).2)

/-- What a client gets that follows the tokens over the tables, one for each of its requests. -/
structure Visits (ts : List Table) (pages : List (List Row)) (done : Bool) : Prop where
  descends : pages.flatten.Pairwise fun a b => b.key < a.key
  /-- No row comes twice where an id stays with its `created_at`. -/
  once : (∀ t ∈ ts, ∀ t' ∈ ts, ∀ r ∈ t.rows, ∀ r' ∈ t'.rows, r.id = r'.id →
    r.createdAt = r'.createdAt) → (pages.flatten.map Row.id).Nodup
  /-- A page has rows of the filter that are there at its request. -/
  found : List.Forall₂ (fun page t => ∀ r ∈ page, r ∈ matching pg filter t) pages
    (ts.take pages.length)
  /-- A row that matches at every request is on one of the pages. -/
  complete : done = true → ∀ createdAt id,
    (∀ t ∈ ts.take pages.length, ∃ r ∈ matching pg filter t, r.createdAt = createdAt ∧ r.id = id) →
      ∃ r ∈ pages.flatten, r.createdAt = createdAt ∧ r.id = id

theorem follow_empty (limit : Int) (hts : ∀ t ∈ ts, t.InYears) :
    follow pg filter limit [] ts = .ok (Keyset.walk Row.key (newCursor [] limit).limit none
      (ts.map (matching pg filter))) := by
  have hnone : ∀ k ∈ (none : Option (Int ×ₗ UUID)), InYearsKey k := nofun
  exact follow_eq pg filter limit hts hnone

theorem follow_still (limit : Int) {t : Table} (ht : t.InYears) :
    ∃ n pages, follow pg filter limit [] (List.replicate n t) = .ok (pages, true) ∧
      pages.flatten.Perm (matching pg filter t) ∧
      pages.flatten.Pairwise fun a b => b.key < a.key := by
  obtain ⟨m, hm⟩ : ∃ m, m = (matching pg filter t).length + 1 := ⟨_, rfl⟩
  have hlen : (Keyset.past Row.key none (matching pg filter t)).length ≤
      m * (newCursor [] limit).limit := by
    rw [Keyset.past_none_eq]
    have hle : m * 1 ≤ m * (newCursor [] limit).limit :=
      Nat.mul_le_mul_left m (newCursor [] limit).pos
    omega
  obtain ⟨hdone, hall⟩ := Keyset.walk_still (newCursor [] limit).pos (nodup_matching pg filter t)
    (by omega) hlen
  have hstill : ∀ u ∈ List.replicate m t, u.InYears := fun u hu => eq_of_mem_replicate hu ▸ ht
  have hfollow := follow_empty pg filter limit hstill
  rw [map_replicate] at hfollow
  refine ⟨m, _, hfollow.trans (congrArg Except.ok (Prod.ext rfl hdone)), ?_, ?_⟩
  · rw [hall, Keyset.past_none_eq]
    exact Keyset.descending_perm
  · rw [hall]
    exact Keyset.descending_pairwise (Keyset.nodup_past none (nodup_matching pg filter t))

theorem follow_visits (limit : Int) (hts : ∀ t ∈ ts, t.InYears) :
    ∃ pages done, follow pg filter limit [] ts = .ok (pages, done) ∧
      Visits pg filter ts pages done := by
  have hpos := (newCursor [] limit).pos
  have hrows : ∀ xs ∈ ts.map (matching pg filter), (xs.map Row.key).Nodup := by
    intro xs hxs
    obtain ⟨t, -, rfl⟩ := mem_map.mp hxs
    exact nodup_matching pg filter t
  obtain ⟨hdesc, -⟩ := Keyset.walk_descends none hpos hrows
  have hfound := Keyset.walk_mem none hpos hrows
  have hserves := fun hdone k => Keyset.walk_serves hpos hrows hdone (Keyset.past_none k)
  rw [← map_take] at hfound
  rw [follow_empty pg filter limit hts]
  generalize Keyset.walk Row.key (newCursor [] limit).limit none (ts.map (matching pg filter)) = w
    at *
  refine ⟨w.1, w.2, rfl, hdesc, fun hids => ?_, (List.forall₂_map_right_iff).mp hfound, ?_⟩
  · -- Two rows of one id would have one key.
    have hsource : ∀ r ∈ w.1.flatten, ∃ t ∈ ts, r ∈ t.rows := by
      intro r hr
      obtain ⟨xs, hxs, hr⟩ := Keyset.exists_of_mem_flatten hfound hr
      obtain ⟨t, ht, rfl⟩ := mem_map.mp hxs
      exact ⟨t, mem_of_mem_take ht, mem_of_mem_filter hr⟩
    refine pairwise_map.mpr (hdesc.imp_of_mem fun hr hr' hlt hid => ?_)
    obtain ⟨t, ht, hr⟩ := hsource _ hr
    obtain ⟨t', ht', hr'⟩ := hsource _ hr'
    have hkey : _ = _ := key_eq_iff.mpr ⟨hids t ht t' ht' _ hr _ hr' hid, hid⟩
    exact absurd hkey hlt.ne'
  · intro hdone createdAt id hthere
    obtain ⟨r, hr, hkey⟩ := hserves hdone (toLex (createdAt, id)) fun xs hxs => by
      rw [← map_take] at hxs
      obtain ⟨t, ht, rfl⟩ := mem_map.mp hxs
      obtain ⟨r, hr, hrow⟩ := hthere t ht
      exact ⟨r, hr, key_eq_iff.mpr hrow⟩
    exact ⟨r, hr, key_eq_iff.mp hkey⟩

end Follow

section Example

def hexValue (c : Char) : Nat := if isDigit c then c.toNat - 48 else c.toNat - 87

def readHex (cs : List Char) : Nat := cs.foldl (fun n c => 16 * n + hexValue c) 0

theorem hexDigit_spec {n : Nat} (h : n < 16) :
    hexValue n.digitChar = n ∧ n.digitChar.toNat < 256 ∧ n.digitChar ≠ '-' := by
  have hall : ∀ m : Fin 16, hexValue m.val.digitChar = m ∧ m.val.digitChar.toNat < 256 ∧
      m.val.digitChar ≠ '-' := by decide
  exact hall ⟨n, h⟩

theorem mem_hexDigits {w n : Nat} {c : Char} (h : c ∈ hexDigits w n) :
    c.toNat < 256 ∧ c ≠ '-' := by
  induction w generalizing n with
  | zero => cases h
  | succ w ih =>
    rcases mem_append.mp h with h | h
    · exact ih h
    · rw [mem_singleton.mp h]
      exact (hexDigit_spec (Nat.mod_lt n (by decide))).2

theorem readHex_hexDigits {w n : Nat} (h : n < 16 ^ w) : readHex (hexDigits w n) = n := by
  induction w generalizing n with
  | zero =>
    have hn : n = 0 := by simpa using h
    rw [hn]
    rfl
  | succ w ih =>
    have hdiv : n / 16 < 16 ^ w := by
      rw [Nat.pow_succ] at h
      omega
    have hlast := (hexDigit_spec (Nat.mod_lt n (by decide : 0 < 16))).1
    have hfront := ih hdiv
    rw [readHex] at hfront
    rw [readHex, hexDigits, foldl_append, hfront, foldl_cons, foldl_nil, hlast]
    omega

theorem string_digits (id : UUID) : id.string.filter (· ≠ '-') = hexDigits 32 id := by
  have hdigits : ∀ c ∈ hexDigits 32 id, c ≠ '-' := fun c hc => (mem_hexDigits hc).2
  unfold UUID.string
  generalize hexDigits 32 id = h at hdigits ⊢
  have hpiece : ∀ k n, ((h.drop k).take n).filter (· ≠ '-') = (h.drop k).take n := fun k n =>
    filter_eq_self.mpr fun c hc =>
      decide_eq_true (hdigits c (mem_of_mem_drop (mem_of_mem_take hc)))
  have hfirst : (h.take 8).filter (· ≠ '-') = h.take 8 := hpiece 0 8
  have hrest : (h.drop 20).filter (· ≠ '-') = h.drop 20 :=
    filter_eq_self.mpr fun c hc => decide_eq_true (hdigits c (mem_of_mem_drop hc))
  have hhyphen : ['-'].filter (· ≠ '-') = [] := by decide
  have hjoin : ∀ k n, (h.drop k).take n ++ h.drop (k + n) = h.drop k := by
    intro k n
    rw [← drop_drop, take_append_drop]
  simp only [flatten_cons, flatten_nil, filter_append, append_nil, hfirst,
    hpiece, hrest, hhyphen, nil_append]
  rw [hjoin 16 4, hjoin 12 4, hjoin 8 4, take_append_drop]

theorem string_ascii (id : UUID) : ∀ c ∈ id.string, c.toNat < 256 := by
  intro c hc
  by_cases hhyphen : c = '-'
  · rw [hhyphen]
    decide
  · have hmem : c ∈ id.string.filter (· ≠ '-') := mem_filter.mpr ⟨hc, decide_eq_true hhyphen⟩
    rw [string_digits] at hmem
    exact (mem_hexDigits hmem).1

/-- A Postgres whose `ILIKE` matches everything. -/
def anyPostgres : Postgres where
  ilike _ _ := true
  castUUID bs := some (Fin.ofNat _ (readHex ((chars bs).filter (· ≠ '-'))))
  cast_string id := by
    have hlt : (id : Nat) < 16 ^ 32 := id.isLt
    rw [chars_bytes (string_ascii id), string_digits, readHex_hexDigits hlt, Fin.ofNat_val_eq_self]

def created (createdAt : Int) (id : UUID) : Row := ⟨id, "", "", createdAt, createdAt⟩

/-- Three rows, two of one instant. -/
def tied : Table := ⟨[created 5 1, created 7 2, created 7 3], by decide⟩

/-- Two rows of the first instant of the year 10000. -/
def late : Table := ⟨[created 315564336000000000 1, created 315564336000000000 2], by decide⟩

end Example

/-- A client that follows the tokens sees every row of the filter once, newest first, and is not
disturbed by what comes and goes meanwhile. -/
theorem paging_visits_once (pg : Postgres) (filter : QueryFilter) (limit : Int) :
    (∀ t : Table, t.InYears → ∃ n pages,
      follow pg filter limit [] (List.replicate n t) = .ok (pages, true) ∧
        pages.flatten.Perm (matching pg filter t) ∧
        pages.flatten.Pairwise fun a b => b.key < a.key) ∧
    ∀ ts : List Table, (∀ t ∈ ts, t.InYears) → ∃ pages done,
      follow pg filter limit [] ts = .ok (pages, done) ∧ Visits pg filter ts pages done :=
  ⟨fun _ ht => follow_still pg filter limit ht, fun _ hts => follow_visits pg filter limit hts⟩

/-- Pages of one row. -/
theorem paging_visits_once_tied : ∃ n pages,
    follow anyPostgres {} 1 [] (List.replicate n tied) = .ok (pages, true) ∧
      pages.flatten.Perm (matching anyPostgres {} tied) ∧
      pages.flatten.Pairwise fun a b => b.key < a.key := by
  refine (paging_visits_once anyPostgres {} 1).1 tied fun r hr => ?_
  have hyears : InYears 5000 ∧ InYears 7000 := ⟨⟨by decide, by decide⟩, by decide, by decide⟩
  simp only [tied, mem_cons, not_mem_nil, or_false] at hr
  rcases hr with rfl | rfl | rfl
  · exact hyears.1
  · exact hyears.2
  · exact hyears.2

/-- The boundary of a row of the year 10000 is not read back: there is no second page. -/
theorem late_boundary_refused :
    follow anyPostgres {} 1 [] [late, late] =
      .error (Errs.internal, .malformedTimestamp (bytes "10000-01-01T00:00:00Z".toList)) := by
  rfl

end Skit.Resource
