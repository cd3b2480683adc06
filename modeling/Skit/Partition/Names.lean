import Skit.Partition.Keeper
import Mathlib.Data.String.Basic

/-!
# Names of partitions

A text is read as a date of the layout exactly when it is the date as the layout writes it, so
`parse` accepts the names that `part` gives and no others, and the name of a partition tells
its table and its period.
-/
namespace Skit.Partition
open Lib Calendar List Option

section Texts

/-- The date as the layout of a period writes it. -/
def dateText (p : Period) (y m d : Nat) : List Char :=
  match p with
  | .day => lastDigits 4 y ++ '_' :: (lastDigits 2 m ++ '_' :: lastDigits 2 d)
  | _ => lastDigits 4 y ++ '_' :: lastDigits 2 m

theorem format_eq (p : Period) {t : Time} (h : InYears t) :
    format t p.layout = dateText p t.year.toNat t.month.toNat t.day.toNat := by
  obtain ⟨hlow, hhigh⟩ := h
  have hv := t.valid_ymd
  have hmonth := hv.month_pos
  have hmonth' := hv.month_le
  have hday := hv.day_pos
  have hday' := t.day_le_31
  have hy : appendInt 4 t.year = _ := appendInt_eq hlow (by omega)
  have hm : appendInt 2 t.month = _ := appendInt_eq (by omega) (by omega)
  have hd : appendInt 2 t.day = _ := appendInt_eq (by omega) (by omega)
  cases p <;> simp [format, Period.layout, Chunk.format, dateText, hy, hm, hd]

theorem length_dateText (p : Period) (y m d : Nat) :
    (dateText p y m d).length = p.layoutText.utf8ByteSize := by
  cases p <;> simp [dateText] <;> rfl

theorem mem_dateText {p : Period} {y m d : Nat} {c : Char} (hc : c ∈ dateText p y m d) :
    isDigit c = true ∨ c = '_' := by
  have hdigits {w n : Nat} (h : c ∈ lastDigits w n) : isDigit c = true :=
    all_eq_true.mp (all_lastDigits w n) c h
  cases p with
  | day =>
    simp only [dateText, mem_append, mem_cons] at hc
    rcases hc with hc | rfl | hc | rfl | hc
    · exact .inl (hdigits hc)
    · exact .inr rfl
    · exact .inl (hdigits hc)
    · exact .inr rfl
    · exact .inl (hdigits hc)
  | month | other =>
    simp only [dateText, mem_append, mem_cons] at hc
    rcases hc with hc | rfl | hc
    · exact .inl (hdigits hc)
    · exact .inr rfl
    · exact .inl (hdigits hc)

end Texts

section Reading

variable {f g : Fields} {cs rest : List Char}

theorem bind_number {w : Nat} (u : Nat → Fields) :
    ((number w cs).bind fun p => some (u p.1, p.2)) = some (g, rest) ↔
      ∃ n, n < 10 ^ w ∧ cs = lastDigits w n ++ rest ∧ g = u n := by
  simp only [bind_eq_some_iff, Prod.exists, number_eq_some_iff, Option.some.injEq,
    Prod.mk.injEq]
  refine ⟨?_, ?_⟩
  · rintro ⟨n, r, ⟨hn, hcs⟩, rfl, rfl⟩
    exact ⟨n, hn, hcs, rfl⟩
  · rintro ⟨n, hn, hcs, rfl⟩
    exact ⟨n, rest, ⟨hn, hcs⟩, rfl, rfl⟩

theorem read_longYear : Chunk.longYear.read f cs = some (g, rest) ↔
    ∃ n : Nat, n < 10 ^ 4 ∧ cs = lastDigits 4 n ++ rest ∧ g = { f with year := n } :=
  bind_number fun n => { f with year := n }

theorem read_zeroDay : Chunk.zeroDay.read f cs = some (g, rest) ↔
    ∃ n : Nat, n < 10 ^ 2 ∧ cs = lastDigits 2 n ++ rest ∧ g = { f with day := n } :=
  bind_number fun n => { f with day := n }

theorem read_zeroMonth : Chunk.zeroMonth.read f cs = some (g, rest) ↔
    ∃ n : Nat, 1 ≤ n ∧ n ≤ 12 ∧ cs = lastDigits 2 n ++ rest ∧ g = { f with month := n } := by
  simp only [Chunk.read, bind_eq_bind, bind_eq_some_iff, Prod.exists,
    number_eq_some_iff, ite_none_left_eq_some, Option.some.injEq, Prod.mk.injEq]
  refine ⟨?_, ?_⟩
  · rintro ⟨n, r, ⟨-, hcs⟩, hn, rfl, rfl⟩
    exact ⟨n, by omega, by omega, hcs, rfl⟩
  · rintro ⟨n, hn, hn', hcs, rfl⟩
    exact ⟨n, rest, ⟨by omega, hcs⟩, by omega, rfl, rfl⟩

theorem read_underscore : Chunk.underscore.read f cs = some (g, rest) ↔
    cs = '_' :: rest ∧ g = f := by
  cases cs with
  | nil => simp [Chunk.read]
  | cons c cs =>
    by_cases hc : c = '_'
    · simp [Chunk.read, hc, and_comm, eq_comm]
    · simp [Chunk.read, hc]

theorem readAll_cons {c : Chunk} {layout : List Chunk} :
    readAll (c :: layout) f cs = some (g, rest) ↔
      ∃ f' cs', c.read f cs = some (f', cs') ∧ readAll layout f' cs' = some (g, rest) := by
  simp [readAll, bind_eq_some_iff]

/-- The fields of a date read from the text of the layout. -/
def dateFields (p : Period) (y m d : Nat) : Fields :=
  match p with
  | .day => ⟨y, m, d⟩
  | _ => ⟨y, m, -1⟩

theorem readAll_layout {p : Period} : readAll p.layout {} cs = some (g, []) ↔
    ∃ y m d : Nat, y < 10 ^ 4 ∧ 1 ≤ m ∧ m ≤ 12 ∧ d < 10 ^ 2 ∧ cs = dateText p y m d ∧
      g = dateFields p y m d := by
  have hnil {f : Fields} {cs : List Char} : readAll [] f cs = some (g, []) ↔ f = g ∧ cs = [] := by
    simp [readAll]
  cases p with
  | day =>
    simp only [Period.layout, readAll_cons, read_longYear, read_underscore, read_zeroMonth,
      read_zeroDay, hnil, dateText, dateFields]
    refine ⟨?_, ?_⟩
    · rintro ⟨_, _, ⟨y, hy, rfl, rfl⟩, _, _, ⟨rfl, rfl⟩, _, _, ⟨m, hm, hm', rfl, rfl⟩, _, _,
        ⟨rfl, rfl⟩, _, _, ⟨d, hd, rfl, rfl⟩, rfl, rfl⟩
      exact ⟨y, m, d, hy, hm, hm', hd, by simp, rfl⟩
    · rintro ⟨y, m, d, hy, hm, hm', hd, rfl, rfl⟩
      exact ⟨_, _, ⟨y, hy, rfl, rfl⟩, _, _, ⟨rfl, rfl⟩, _, _, ⟨m, hm, hm', rfl, rfl⟩, _, _,
        ⟨rfl, rfl⟩, _, _, ⟨d, hd, (append_nil _).symm, rfl⟩, rfl, rfl⟩
  | month | other =>
    simp only [Period.layout, readAll_cons, read_longYear, read_underscore, read_zeroMonth, hnil,
      dateText, dateFields]
    refine ⟨?_, ?_⟩
    · rintro ⟨_, _, ⟨y, hy, rfl, rfl⟩, _, _, ⟨rfl, rfl⟩, _, _, ⟨m, hm, hm', rfl, rfl⟩, rfl, rfl⟩
      exact ⟨y, m, 0, hy, hm, hm', by decide, by simp, rfl⟩
    · rintro ⟨y, m, d, hy, hm, hm', -, rfl, rfl⟩
      exact ⟨_, _, ⟨y, hy, rfl, rfl⟩, _, _, ⟨rfl, rfl⟩, _, _,
        ⟨m, hm, hm', (append_nil _).symm, rfl⟩, rfl, rfl⟩

end Reading

section Parsing

variable {p : Period} {cs : List Char} {t : Time}

/-- The day of a date in the layout of a period. -/
def dayOf (p : Period) (d : Int) : Int :=
  match p with
  | .day => d
  | _ => 1

theorem dateFields_year (p : Period) (y m d : Nat) : (dateFields p y m d).year = y := by
  cases p <;> rfl

theorem dateFields_month (p : Period) (y m d : Nat) :
    (if (dateFields p y m d).month < 0 then 1 else (dateFields p y m d).month) = m := by
  cases p <;> exact if_neg (Int.not_lt.mpr (Int.natCast_nonneg m))

theorem dateFields_day (p : Period) (y m d : Nat) :
    (if (dateFields p y m d).day < 0 then 1 else (dateFields p y m d).day) = dayOf p d := by
  cases p with
  | day => exact if_neg (Int.not_lt.mpr (Int.natCast_nonneg d))
  | month | other => rfl

theorem parse_eq_some : parse p.layout cs = some t ↔
    ∃ y m d : Nat, y < 10 ^ 4 ∧ d < 10 ^ 2 ∧ cs = dateText p y m d ∧
      Time.Valid y m (dayOf p d) ∧ Time.date y m (dayOf p d) = t := by
  simp only [parse, bind_eq_bind, bind_eq_some_iff, Prod.exists,
    ite_none_left_eq_some, Option.some.injEq, ne_eq, not_not]
  refine ⟨?_, ?_⟩
  · rintro ⟨f, rest, hread, rfl, hday, hdate⟩
    obtain ⟨y, m, d, hy, hm, hm', hd, rfl, rfl⟩ := readAll_layout.mp hread
    rw [dateFields_year, dateFields_month, dateFields_day] at hday hdate
    obtain ⟨hpos, hle⟩ := not_or.mp hday
    exact ⟨y, m, d, hy, hd, rfl,
      ⟨Int.ofNat_le.mpr hm, Int.ofNat_le.mpr hm', not_lt.mp hpos, not_lt.mp hle⟩, hdate⟩
  · rintro ⟨y, m, d, hy, hd, rfl, hv, rfl⟩
    obtain ⟨hm, hm', hpos, hle⟩ := hv
    refine ⟨dateFields p y m d, [],
      readAll_layout.mpr ⟨y, m, d, hy, by omega, by omega, hd, rfl, rfl⟩, rfl, ?_⟩
    rw [dateFields_year, dateFields_month, dateFields_day]
    exact ⟨not_or.mpr ⟨not_lt.mpr hpos, not_lt.mpr hle⟩, rfl⟩

theorem start_eq_date : p.start t = Time.date t.year t.month (dayOf p t.day) := by
  cases p <;> rfl

theorem start_date {y m d : Int} (hv : Time.Valid y m (dayOf p d)) :
    p.start (Time.date y m (dayOf p d)) = Time.date y m (dayOf p d) := by
  obtain ⟨hy, hm, hd⟩ := Time.ymd_date hv
  have hday : dayOf p (dayOf p d) = dayOf p d := by cases p <;> rfl
  rw [start_eq_date, hy, hm, hd, hday]

/-- A text is read as an instant exactly if the instant is the start of a period and is
written so. -/
theorem parse_eq_some_iff :
    parse p.layout cs = some t ↔ p.start t = t ∧ InYears t ∧ cs = format t p.layout := by
  rw [parse_eq_some]
  refine ⟨?_, ?_⟩
  · rintro ⟨y, m, d, hy, hd, rfl, hv, rfl⟩
    obtain ⟨hyear, hmonth, hday⟩ := Time.ymd_date hv
    have hyears : InYears (Time.date y m (dayOf p d)) := by
      rw [InYears, hyear]
      omega
    refine ⟨start_date hv, hyears, ?_⟩
    rw [format_eq p hyears, hyear, hmonth, hday]
    cases p <;> simp [dateText, dayOf]
  · rintro ⟨hstart, hyears, rfl⟩
    obtain ⟨hlow, hhigh⟩ := id hyears
    have hv := t.valid_ymd
    obtain ⟨hm, hm', hd, hd'⟩ := id hv
    have hy : (t.year.toNat : Int) = t.year := Int.toNat_of_nonneg hlow
    have hm : (t.month.toNat : Int) = t.month := Int.toNat_of_nonneg (by omega)
    have hd : (t.day.toNat : Int) = t.day := Int.toNat_of_nonneg (by omega)
    refine ⟨t.year.toNat, t.month.toNat, t.day.toNat, by omega, ?_, format_eq p hyears, ?_, ?_⟩
    · have hle := Time.day_le_31 t
      omega
    · rw [hy, hm, hd]
      cases p with
      | day => exact hv
      | month | other => exact ⟨by omega, by omega, le_rfl, by simp only [dayOf]; omega⟩
    · rw [hy, hm, hd, ← start_eq_date, hstart]

end Parsing

section Names

variable (k : Keeper) {table table' rel : String} {since since' : Time}

theorem cutDot_append {cs ds : List Char} (h : '.' ∉ ds) :
    cutDot (cs ++ ds) = (cutDot cs).map fun p => (p.1, p.2 ++ ds) := by
  induction cs with
  | nil =>
    induction ds with
    | nil => rfl
    | cons d ds ih =>
      rw [mem_cons, not_or] at h
      have hrest : cutDot ds = none := ih h.2
      simp [cutDot, Ne.symm h.1, hrest]
  | cons c cs ih =>
    by_cases hc : c = '.'
    · simp [cutDot, hc]
    · simp [cutDot, hc, ih, Function.comp_def]

theorem baseName_append {s : List Char} (h : '.' ∉ s) :
    (baseName (table ++ String.ofList s)).toList = (baseName table).toList ++ s := by
  unfold baseName
  rw [String.toList_append, String.toList_ofList, cutDot_append h]
  cases cutDot table.toList with
  | none => simp
  | some p => simp

/-- The name of the relation of a partition, without the schema. -/
def Part.relname (q : Part) : String := baseName q.name

theorem not_mem_dateText {p : Period} {y m d : Nat} : '.' ∉ '_' :: dateText p y m d := by
  intro hmem
  rcases mem_cons.mp hmem with hdot | hmem
  · exact absurd hdot (by decide)
  · rcases mem_dateText hmem with hdot | hdot <;> exact absurd hdot (by decide)

theorem relname_part (h : InYears since) : (k.part table since).relname.toList =
    (baseName table).toList ++ '_' :: format since k.cfg.period.layout := by
  have hname : (k.part table since).name =
      table ++ String.ofList ('_' :: format since k.cfg.period.layout) := by
    refine String.toList_injective ?_
    simp [Keeper.part]
  rw [Part.relname, hname, format_eq _ h, baseName_append not_mem_dateText]

theorem parse_relname_iff {q : Part} : k.parse table rel = some q ↔
    ∃ since, k.cfg.period.start since = since ∧ InYears since ∧ q = k.part table since ∧
      rel = q.relname := by
  simp only [Keeper.parse, bind_eq_bind, bind_eq_some_iff, parse_eq_some_iff,
    dropPrefix?_eq_some_iff, Option.some.injEq]
  refine ⟨?_, ?_⟩
  · rintro ⟨suffix, ⟨pre, hrel, hpre⟩, since, ⟨hstart, hyears, rfl⟩, rfl⟩
    refine ⟨since, hstart, hyears, rfl, String.toList_injective ?_⟩
    rw [relname_part k hyears, hrel, eq_of_beq hpre]
    simp
  · rintro ⟨since, hstart, hyears, rfl, rfl⟩
    refine ⟨format since k.cfg.period.layout, ⟨_, ?_, BEq.rfl⟩, since, ⟨hstart, hyears, rfl⟩, rfl⟩
    rw [relname_part k hyears]
    simp

theorem utf8Size_of_isDigit {c : Char} (h : isDigit c = true ∨ c = '_') : c.utf8Size = 1 := by
  refine Char.utf8Size_eq_one_iff.mpr ?_
  rcases h with h | rfl
  · simp only [isDigit, decide_eq_true_eq] at h
    exact UInt32.le_iff_toNat_le.mpr (by change c.toNat ≤ 127; omega)
  · decide

theorem utf8ByteSize_ofList_ascii {cs : List Char} (h : ∀ c ∈ cs, c.utf8Size = 1) :
    (String.ofList cs).utf8ByteSize = cs.length := by
  rw [String.utf8ByteSize_ofList]
  induction cs with
  | nil => rfl
  | cons c cs ih =>
    rw [String.utf8Len, ih fun d hd => h d (mem_cons_of_mem c hd), h c (by simp)]
    rfl

theorem relname_short (h : InYears since) (ht : table ∈ k.cfg.tables) :
    (k.part table since).relname.utf8ByteSize ≤ maxName := by
  have hname : (k.part table since).relname =
      baseName table ++ String.ofList ('_' :: format since k.cfg.period.layout) := by
    refine String.toList_injective ?_
    rw [relname_part k h, String.toList_append, String.toList_ofList]
  have hshort := k.accepted.short table ht
  have hunder : "_".utf8ByteSize = 1 := rfl
  rw [hname, String.utf8ByteSize_append, format_eq _ h, utf8ByteSize_ofList_ascii, length_cons,
    length_dateText]
  · omega
  · intro c hc
    refine utf8Size_of_isDigit ?_
    rcases mem_cons.mp hc with rfl | hc
    · exact .inr rfl
    · exact mem_dateText hc

/-- The date is cut off from the end, where it has a fixed length. -/
theorem part_name_inj (hs : k.cfg.period.start since = since)
    (hs' : k.cfg.period.start since' = since') (h : InYears since) (h' : InYears since')
    (heq : (k.part table since).name = (k.part table' since').name) :
    table = table' ∧ since = since' := by
  have hlist := congrArg String.toList heq
  simp only [Keeper.part, String.toList_append, String.toList_ofList, append_assoc] at hlist
  obtain ⟨htable, hrest⟩ := append_inj' hlist (by
    simp [format_eq _ h, format_eq _ h', length_dateText])
  have hformat := append_cancel_left hrest
  refine ⟨String.toList_injective htable, ?_⟩
  have hparse := parse_eq_some_iff.mpr ⟨hs, h, rfl⟩
  rw [hformat, parse_eq_some_iff.mpr ⟨hs', h', rfl⟩] at hparse
  exact (Option.some.inj hparse).symm

/-- A partition is told by its name: the name fits, `parse` reads the partition back and
accepts nothing else, and no two partitions of the tables share a name. -/
theorem names_identify_partitions :
    (∀ table ∈ k.cfg.tables, ∀ since, k.cfg.period.start since = since → InYears since →
        (k.part table since).relname.utf8ByteSize ≤ 63 ∧
          k.parse table (k.part table since).relname = some (k.part table since)) ∧
      (∀ table ∈ k.cfg.tables, ∀ rel q, k.parse table rel = some q →
        ∃ since, k.cfg.period.start since = since ∧ InYears since ∧ q = k.part table since ∧
          rel = q.relname) ∧
      (∀ table ∈ k.cfg.tables, ∀ table' ∈ k.cfg.tables, ∀ since since',
        k.cfg.period.start since = since → k.cfg.period.start since' = since' →
        InYears since → InYears since' → (k.part table since).name = (k.part table' since').name →
          table = table' ∧ since = since') := by
  refine ⟨fun table ht since hs hy => ⟨relname_short k hy ht, ?_⟩, ?_, ?_⟩
  · exact (parse_relname_iff k).mpr ⟨since, hs, hy, rfl, rfl⟩
  · exact fun table _ rel q h => (parse_relname_iff k).mp h
  · exact fun table _ table' _ since since' hs hs' h h' => part_name_inj k hs hs' h h'

end Names

section Messages

def messagesConfig : Config := ⟨["messages", "deliveries"], .month, 1, 90 * nsPerDay⟩

theorem messagesConfig_check : messagesConfig.check = .ok () := by decide +kernel

def messages : Keeper := ⟨messagesConfig, messagesConfig_check⟩

theorem names_identify_partitions_messages :
    messages.parse "messages" "messages_2026_11" =
      some (messages.part "messages" (Time.date 2026 11 1)) := by
  have hname : "messages_2026_11" = (messages.part "messages" (Time.date 2026 11 1)).relname := by
    decide +kernel
  rw [hname]
  exact ((names_identify_partitions messages).1 "messages" (by decide) (Time.date 2026 11 1)
    (by decide +kernel) ⟨by decide +kernel, by decide +kernel⟩).2

end Messages

end Skit.Partition
