import Skit.Lib.Calendar
import Skit.Lib.Digits
import Mathlib.Data.List.DropRight

/-!
# Timestamps of RFC 3339

`Time.Format` and `time.Parse` with the layout `2006-01-02T15:04:05.999999999Z07:00`, in UTC and in
other zones. The year has four digits in a text that is read, so an instant is read back if its
year is one of those. The last section is how `encoding/json/v2` writes and reads a `time.Time`.
-/
namespace Skit.Lib.Calendar
open List

section Format

def Time.hour (t : Time) : Int := t % nsPerDay / 3600000000000

def Time.minute (t : Time) : Int := t % 3600000000000 / 60000000000

def Time.second (t : Time) : Int := t % 60000000000 / 1000000000

def Time.nanosecond (t : Time) : Int := t % 1000000000

/-- The fraction of a second, without the zeros at its end. -/
def appendNano (nanosec : Int) : List Char :=
  if nanosec = 0 then [] else '.' :: (appendInt 9 nanosec).rdropWhile (· = '0')

/-- The offset of a zone, given in seconds. -/
def appendZone (offset : Int) : List Char :=
  if offset = 0 then ['Z']
  else (if offset.tdiv 60 < 0 then '-' else '+') ::
    (appendInt 2 ((offset.tdiv 60).natAbs / 60 : Nat) ++
      ':' :: appendInt 2 ((offset.tdiv 60).natAbs % 60 : Nat))

/-- The instant whose clock in UTC is the clock of `t` in a zone. -/
def inZone (offset : Int) (t : Time) : Time := t + offset * 1000000000

/-- `Format(time.RFC3339Nano)` in a zone. -/
def formatZone (offset : Int) (t : Time) : List Char :=
  let l := inZone offset t
  [appendInt 4 l.year, ['-'], appendInt 2 l.month, ['-'], appendInt 2 l.day, ['T'],
    appendInt 2 l.hour, [':'], appendInt 2 l.minute, [':'], appendInt 2 l.second,
    appendNano l.nanosecond, appendZone offset].flatten

/-- `Format(time.RFC3339Nano)` in UTC. -/
def formatNano (t : Time) : List Char := formatZone 0 t

theorem inZone_zero (t : Time) : inZone 0 t = t := by rw [inZone, Int.zero_mul, Int.add_zero]

end Format

section Parse

def skip (c : Char) : List Char → Option (List Char)
  | [] => none
  | d :: rest => if d = c then some rest else none

/-- Two digits, or one where the layout lets the other be missing. -/
def getnum (fixed : Bool) (cs : List Char) : Option (Nat × List Char) :=
  (number 2 cs).or (if fixed then none else number 1 cs)

/-- The first nine digits of a fraction as nanoseconds. -/
def parseNanoseconds (ds : List Char) : Nat :=
  value (ds.take 9) * 10 ^ (9 - (ds.take 9).length)

/-- The fraction may be missing, and may have any number of digits. -/
def readFraction : List Char → Nat × List Char
  | [] => (0, [])
  | c :: rest =>
    if (c = '.' ∨ c = ',') ∧ rest.head?.any isDigit then
      (parseNanoseconds (rest.takeWhile isDigit), rest.dropWhile isDigit)
    else (0, c :: rest)

/-- The offset of a zone in seconds. -/
def readZone : List Char → Option (Int × List Char)
  | [] => none
  | c :: rest =>
    if c = 'Z' then some (0, rest)
    else do
      let (hh, rest) ← getnum true rest
      let rest ← skip ':' rest
      let (mm, rest) ← getnum true rest
      let offset : Int := (hh * 60 + mm) * 60
      if 24 < hh ∨ 60 < mm then none
      else if c = '+' then some (offset, rest)
      else if c = '-' then some (-offset, rest)
      else none

/-- `time.Parse(time.RFC3339Nano, …)`. -/
def parseNano (cs : List Char) : Option Time := do
  let (year, cs) ← number 4 cs
  let cs ← skip '-' cs
  let (month, cs) ← getnum true cs
  guard (1 ≤ month ∧ month ≤ 12)
  let cs ← skip '-' cs
  let (day, cs) ← getnum true cs
  let cs ← skip 'T' cs
  let (hh, cs) ← getnum false cs
  guard (hh < 24)
  let cs ← skip ':' cs
  let (mm, cs) ← getnum true cs
  guard (mm < 60)
  let cs ← skip ':' cs
  let (ss, cs) ← getnum true cs
  guard (ss < 60)
  let (nsec, cs) := readFraction cs
  let (offset, cs) ← readZone cs
  guard (cs = [])
  guard (1 ≤ (day : Int) ∧ (day : Int) ≤ daysIn year month)
  some (Time.date year month day +
    (((hh * 60 + mm) * 60 + ss - offset) * 1000000000 + nsec))

end Parse

section Fractions

theorem trim_split (cs : List Char) :
    ∃ k, cs = cs.rdropWhile (· = '0') ++ List.replicate k '0' := by
  refine ⟨(cs.rtakeWhile (· = '0')).length, ?_⟩
  have hzeros : cs.rtakeWhile (· = '0') = List.replicate (cs.rtakeWhile (· = '0')).length '0' :=
    eq_replicate_of_mem fun c hc => by simpa using mem_rtakeWhile_imp hc
  rw [← hzeros, rdropWhile_append_rtakeWhile]

theorem value_append_zeros (cs : List Char) (k : Nat) :
    value (cs ++ List.replicate k '0') = value cs * 10 ^ k := by
  induction k with
  | zero => simp
  | succ k ih =>
    rw [replicate_succ', ← append_assoc, value_append, ih, Nat.pow_succ,
      ← Nat.mul_assoc (value cs)]
    exact Nat.mul_comm 10 _

variable {n : Nat}

theorem parseNanoseconds_trim (h : n < 10 ^ 9) :
    parseNanoseconds ((lastDigits 9 n).rdropWhile (· = '0')) = n := by
  obtain ⟨k, hk⟩ := trim_split (lastDigits 9 n)
  have hvalue := value_lastDigits h
  have hlen := length_lastDigits 9 n
  rw [hk, value_append_zeros] at hvalue
  rw [hk, length_append, length_replicate] at hlen
  have hk' : k = 9 - ((lastDigits 9 n).rdropWhile (· = '0')).length := by omega
  rw [parseNanoseconds, take_of_length_le (by omega), ← hk', hvalue]

theorem trim_digits : ∀ c ∈ (lastDigits 9 n).rdropWhile (· = '0'), isDigit c = true := by
  intro c hc
  obtain ⟨k, hk⟩ := trim_split (lastDigits 9 n)
  refine all_eq_true.mp (all_lastDigits 9 n) c ?_
  rw [hk]
  exact mem_append_left _ hc

theorem trim_ne_nil (h : n < 10 ^ 9) (h0 : n ≠ 0) :
    (lastDigits 9 n).rdropWhile (· = '0') ≠ [] := by
  intro hnil
  have hread := parseNanoseconds_trim h
  rw [hnil] at hread
  exact h0 hread.symm

/-- A zone does not go on with the fraction. -/
def ZoneStarts (z : List Char) : Prop :=
  ∀ c ∈ z.head?, isDigit c = false ∧ c ≠ '.' ∧ c ≠ ','

theorem readFraction_appendNano (h : n < 10 ^ 9) {z : List Char} (hz : ZoneStarts z) :
    readFraction (appendNano n ++ z) = (n, z) := by
  have hspan : z.takeWhile isDigit = [] ∧ z.dropWhile isDigit = z := by
    cases z with
    | nil => exact ⟨rfl, rfl⟩
    | cons c z =>
      rw [takeWhile_cons, dropWhile_cons, (hz c rfl).1]
      exact ⟨rfl, rfl⟩
  by_cases h0 : n = 0
  · subst h0
    cases z with
    | nil => rfl
    | cons c z =>
      obtain ⟨-, hdot, hcomma⟩ := hz c rfl
      have hnano : appendNano ((0 : Nat) : Int) ++ c :: z = c :: z := rfl
      rw [hnano, readFraction, if_neg]
      exact fun hc => hc.1.elim hdot hcomma
  · have hdigits : appendInt 9 (n : Int) = lastDigits 9 n := by
      rw [appendInt_eq (by omega) (by omega), Int.toNat_natCast]
    have hpos : ∀ c ∈ (lastDigits 9 n).rdropWhile (· = '0'), isDigit c = true := trim_digits
    have hread := parseNanoseconds_trim h
    have hne := trim_ne_nil h h0
    rw [appendNano, if_neg (by omega), hdigits]
    generalize (lastDigits 9 n).rdropWhile (· = '0') = ds at *
    have htake : (ds ++ z).takeWhile isDigit = ds ++ z.takeWhile isDigit :=
      takeWhile_append_of_pos hpos
    have hdrop : (ds ++ z).dropWhile isDigit = z.dropWhile isDigit :=
      dropWhile_append_of_pos hpos
    cases ds with
    | nil => exact absurd rfl hne
    | cons d ds =>
      rw [cons_append, readFraction, if_pos, htake, hdrop, hspan.1, hspan.2, append_nil,
        hread]
      exact ⟨.inl rfl, by simpa using hpos d mem_cons_self⟩

end Fractions

section RoundTrip

variable {t : Time} {offset : Int}

theorem getnum_lastDigits {n : Nat} (h : n < 10 ^ 2) (fixed : Bool) (rest : List Char) :
    getnum fixed (lastDigits 2 n ++ rest) = some (n, rest) := by
  rw [getnum, number_eq_some_iff.mpr ⟨h, rfl⟩, Option.some_or]

theorem skip_self (c : Char) (rest : List Char) : skip c (c :: rest) = some rest := if_pos rfl

theorem clock_eq (t : Time) :
    ((t.hour * 60 + t.minute) * 60 + t.second) * 1000000000 + t.nanosecond = t % nsPerDay := by
  unfold Time.hour Time.minute Time.second Time.nanosecond nsPerDay
  omega

theorem clock_bounds (t : Time) : (0 ≤ t.hour ∧ t.hour < 24) ∧ (0 ≤ t.minute ∧ t.minute < 60) ∧
    (0 ≤ t.second ∧ t.second < 60) ∧ 0 ≤ t.nanosecond ∧ t.nanosecond < 1000000000 := by
  unfold Time.hour Time.minute Time.second Time.nanosecond nsPerDay
  omega

/-- The text of a date, a clock and a zone. -/
def stampZone (y m d hh mm ss nsec : Nat) (z : List Char) : List Char :=
  lastDigits 4 y ++ '-' :: (lastDigits 2 m ++ '-' :: (lastDigits 2 d ++ 'T' ::
    (lastDigits 2 hh ++ ':' :: (lastDigits 2 mm ++ ':' :: (lastDigits 2 ss ++
      (appendNano nsec ++ z))))))

theorem bind_some {α β : Type} {x : Option α} {f : α → Option β} {a : α} {b : β}
    (hx : x = some a) (hf : f a = some b) : (x >>= f) = some b := by
  rw [hx]
  exact hf

theorem parseNano_stampZone {y m d hh mm ss nsec : Nat} {z : List Char}
    (hy : y < 10 ^ 4) (hd : Time.Valid y m d) (hd' : d < 10 ^ 2) (hhh : hh < 24) (hmm : mm < 60)
    (hss : ss < 60) (hnsec : nsec < 10 ^ 9) (hz : ZoneStarts z)
    (hzone : readZone z = some (offset, [])) :
    parseNano (stampZone y m d hh mm ss nsec z) = some (Time.date y m d +
      (((hh * 60 + mm) * 60 + ss - offset) * 1000000000 + nsec)) := by
  obtain ⟨hm, hm', hpos, hle⟩ := hd
  have hmonths : 1 ≤ m ∧ m ≤ 12 := by omega
  have hguard : ∀ {p : Prop} [Decidable p], p → (guard p : Option Unit) = some () :=
    fun hp => if_pos hp
  refine bind_some (number_eq_some_iff.mpr ⟨hy, rfl⟩) ?_
  refine bind_some (skip_self _ _) ?_
  refine bind_some (getnum_lastDigits (by omega) true _) ?_
  refine bind_some (hguard hmonths) ?_
  refine bind_some (skip_self _ _) ?_
  refine bind_some (getnum_lastDigits hd' true _) ?_
  refine bind_some (skip_self _ _) ?_
  refine bind_some (getnum_lastDigits (by omega) false _) ?_
  refine bind_some (hguard hhh) ?_
  refine bind_some (skip_self _ _) ?_
  refine bind_some (getnum_lastDigits (by omega) true _) ?_
  refine bind_some (hguard hmm) ?_
  refine bind_some (skip_self _ _) ?_
  refine bind_some (getnum_lastDigits (by omega) true _) ?_
  refine bind_some (hguard hss) ?_
  rw [readFraction_appendNano hnsec hz]
  refine bind_some hzone ?_
  refine bind_some (hguard rfl) ?_
  exact bind_some (hguard ⟨hpos, hle⟩) rfl

/-- The text of an instant whose year in the zone has four digits. -/
theorem formatZone_eq (h : InYears (inZone offset t)) : formatZone offset t =
    stampZone (inZone offset t).year.toNat (inZone offset t).month.toNat
      (inZone offset t).day.toNat (inZone offset t).hour.toNat (inZone offset t).minute.toNat
      (inZone offset t).second.toNat (inZone offset t).nanosecond.toNat
      (appendZone offset) := by
  generalize hl : inZone offset t = l at h ⊢
  obtain ⟨hlow, hhigh⟩ := h
  have hv := l.valid_ymd
  have hm := hv.month_pos
  have hm' := hv.month_le
  have hd := hv.day_pos
  have hd' := l.day_le_31
  obtain ⟨⟨hh, hh'⟩, ⟨hmin, hmin'⟩, ⟨hs, hs'⟩, hn, -⟩ := clock_bounds l
  have htwo : ∀ {x : Int}, 0 ≤ x → x < 100 → appendInt 2 x = lastDigits 2 x.toNat :=
    fun h0 h1 => appendInt_eq h0 (by omega)
  have hyear : appendInt 4 l.year = lastDigits 4 l.year.toNat := appendInt_eq hlow (by omega)
  rw [formatZone, hl, stampZone, hyear, htwo (x := l.month) (by omega) (by omega),
    htwo (x := l.day) (by omega) (by omega), htwo hh (by omega), htwo hmin (by omega),
    htwo hs (by omega), Int.toNat_of_nonneg hn]
  simp

theorem parseNano_formatZone (h : InYears (inZone offset t)) (hz : ZoneStarts (appendZone offset))
    (hzone : readZone (appendZone offset) = some (offset, [])) :
    parseNano (formatZone offset t) = some t := by
  rw [formatZone_eq h]
  have hinv : inZone offset t - offset * 1000000000 = t := Int.add_sub_cancel t _
  generalize inZone offset t = l at h hinv
  obtain ⟨hlow, hhigh⟩ := id h
  have hv := l.valid_ymd
  have hm := hv.month_pos
  have hd := hv.day_pos
  have hd' := l.day_le_31
  obtain ⟨⟨hh, hh'⟩, ⟨hmin, hmin'⟩, ⟨hs, hs'⟩, hn, hn'⟩ := clock_bounds l
  have hyear : (l.year.toNat : Int) = l.year := Int.toNat_of_nonneg hlow
  have hmonth : (l.month.toNat : Int) = l.month := Int.toNat_of_nonneg (by omega)
  have hday : (l.day.toNat : Int) = l.day := Int.toNat_of_nonneg (by omega)
  have hdate := l.date_eq
  have hclock := clock_eq l
  have hshift : ∀ a x n : Int, a + ((x - offset) * 1000000000 + n) =
      a + (x * 1000000000 + n) - offset * 1000000000 := by
    intro a x n
    omega
  rw [parseNano_stampZone (by omega) (by rw [hyear, hmonth, hday]; exact hv) (by omega)
    (by omega) (by omega) (by omega) (by omega) hz hzone, hyear, hmonth, hday,
    Int.toNat_of_nonneg hh, Int.toNat_of_nonneg hmin, Int.toNat_of_nonneg hs,
    Int.toNat_of_nonneg hn, hdate, hshift, hclock, Int.ediv_mul_add_emod, hinv]

theorem parseNano_formatNano (h : InYears t) : parseNano (formatNano t) = some t := by
  refine parseNano_formatZone (by rwa [inZone_zero]) ?_ rfl
  intro c hc
  cases hc
  decide

theorem mem_formatNano (h : InYears t) {c : Char} (hc : c ∈ formatNano t) :
    isDigit c = true ∨ c ∈ ['-', 'T', ':', '.', 'Z'] := by
  have hdigits : ∀ {w n : Nat}, c ∈ lastDigits w n → isDigit c = true :=
    fun hc => all_eq_true.mp (all_lastDigits _ _) c hc
  have hnano : ∀ {n : Nat}, n < 10 ^ 9 → c ∈ appendNano n → isDigit c = true ∨ c = '.' := by
    intro n hn hc
    rw [appendNano, appendInt_eq (by omega) (by omega), Int.toNat_natCast] at hc
    split at hc
    · cases hc
    · rcases mem_cons.mp hc with rfl | hc
      · exact .inr rfl
      · exact .inl (trim_digits c hc)
  have hn := (clock_bounds t).2.2.2
  have hzone : appendZone 0 = ['Z'] := rfl
  rw [formatNano, formatZone_eq (by rwa [inZone_zero]), inZone_zero, stampZone, hzone] at hc
  simp only [mem_append, mem_cons, not_mem_nil, or_false] at hc ⊢
  rcases hc with hc | rfl | hc | rfl | hc | rfl | hc | rfl | hc | rfl | hc | hc | rfl
  · exact .inl (hdigits hc)
  · simp
  · exact .inl (hdigits hc)
  · simp
  · exact .inl (hdigits hc)
  · simp
  · exact .inl (hdigits hc)
  · simp
  · exact .inl (hdigits hc)
  · simp
  · exact .inl (hdigits hc)
  · rcases hnano (by omega) hc with hc | rfl
    · exact .inl hc
    · simp
  · simp

end RoundTrip

section Json

variable {t : Time} {offset : Int} {cs : List Char}

instance : Decidable (InYears t) := inferInstanceAs (Decidable (_ ∧ _))

/-- `json.Marshal` refuses what has no text of RFC 3339. -/
def marshalTime (offset : Int) (t : Time) : Except String (List Char) :=
  if ¬ InYears (inZone offset t) then .error "year outside of range [0,9999]"
  else if 24 ≤ (offset.tdiv 60).natAbs / 60 then .error "timezone hour outside of range [0,23]"
  else .ok (formatZone offset t)

/-- What `time.Parse` lets through and RFC 3339 does not: an hour of one digit, a comma before the
fraction, and zones out of range. -/
def Strict (cs : List Char) : Prop :=
  cs.getD 12 ' ' ≠ ':' ∧ cs.getD 19 ' ' ≠ ',' ∧
    (cs.getLast? = some 'Z' ∨ value ((cs.drop (cs.length - 5)).take 2) < 24 ∧
      value (cs.drop (cs.length - 2)) < 60)

instance : Decidable (Strict cs) := inferInstanceAs (Decidable (_ ∧ _ ∧ _))

/-- `json.Unmarshal` of a string to a `time.Time`. -/
def unmarshalTime (cs : List Char) : Option Time :=
  match parseNano cs with
  | none => none
  | some t => if Strict cs then some t else none

theorem appendZone_eq (h0 : offset ≠ 0) (hz : (offset.tdiv 60).natAbs < 1440) :
    appendZone offset = (if offset.tdiv 60 < 0 then '-' else '+') ::
      (lastDigits 2 ((offset.tdiv 60).natAbs / 60) ++
        ':' :: lastDigits 2 ((offset.tdiv 60).natAbs % 60)) := by
  have htwo : ∀ {n : Nat}, n < 60 → appendInt 2 (n : Int) = lastDigits 2 n := by
    intro n hn
    rw [appendInt_eq (by omega) (by omega), Int.toNat_natCast]
  rw [appendZone, if_neg h0, htwo (by omega), htwo (by omega)]

theorem zoneStarts_appendZone (offset : Int) : ZoneStarts (appendZone offset) := by
  unfold appendZone
  split_ifs <;> (intro c hc; cases hc; decide)

/-- A zone of whole minutes is read back. -/
theorem readZone_appendZone (hmin : offset % 60 = 0) (hz : (offset.tdiv 60).natAbs < 1440) :
    readZone (appendZone offset) = some (offset, []) := by
  by_cases h0 : offset = 0
  · subst h0
    rfl
  · have hval : offset = offset.tdiv 60 * 60 :=
      (Int.tdiv_mul_cancel (Int.dvd_of_emod_eq_zero hmin)).symm
    rw [appendZone_eq h0 hz]
    generalize offset.tdiv 60 = z at hz hval
    have hread (sign : Char) (hsign : sign ≠ 'Z') :
        readZone (sign :: (lastDigits 2 (z.natAbs / 60) ++ ':' :: lastDigits 2 (z.natAbs % 60))) =
          if sign = '+' then some ((z.natAbs : Int) * 60, [])
          else if sign = '-' then some (-((z.natAbs : Int) * 60), []) else none := by
      have hminute : getnum true (lastDigits 2 (z.natAbs % 60)) = some (z.natAbs % 60, []) := by
        have := getnum_lastDigits (show z.natAbs % 60 < 10 ^ 2 by omega) true []
        rwa [append_nil] at this
      have hoffset : ((((z.natAbs / 60 : Nat) : Int) * 60 + ((z.natAbs % 60 : Nat) : Int)) * 60) =
          (z.natAbs : Int) * 60 := by omega
      rw [readZone, if_neg hsign, getnum_lastDigits (show z.natAbs / 60 < 10 ^ 2 by omega)]
      simp only [Option.bind_eq_bind, Option.bind_some, skip_self, hminute]
      rw [if_neg (by omega), hoffset]
    split_ifs with hneg
    · rw [hread '-' (by decide), if_neg (by decide), if_pos rfl, hval]
      congr 2
      omega
    · rw [hread '+' (by decide), if_pos rfl, hval]
      congr 2
      omega

theorem getD_stampZone (y m d hh mm ss nsec : Nat) (z : List Char) :
    (stampZone y m d hh mm ss nsec z).getD 12 ' ' = (hh % 10).digitChar ∧
      (stampZone y m d hh mm ss nsec z).getD 19 ' ' = (appendNano nsec ++ z).getD 0 ' ' := by
  simp [stampZone, lastDigits]

theorem stampZone_split (y m d hh mm ss nsec : Nat) :
    ∃ front, ∀ z, stampZone y m d hh mm ss nsec z = front ++ z := by
  refine ⟨lastDigits 4 y ++ '-' :: (lastDigits 2 m ++ '-' :: (lastDigits 2 d ++ 'T' ::
    (lastDigits 2 hh ++ ':' :: (lastDigits 2 mm ++ ':' :: (lastDigits 2 ss ++
      appendNano nsec))))), fun z => ?_⟩
  simp [stampZone]

theorem zone_values (front : List Char) (sign : Char) {hh mm : Nat} (hhh : hh < 24)
    (hmm : mm < 60) :
    let cs := front ++ sign :: (lastDigits 2 hh ++ ':' :: lastDigits 2 mm)
    value ((cs.drop (cs.length - 5)).take 2) < 24 ∧ value (cs.drop (cs.length - 2)) < 60 := by
  intro cs
  have hhours : cs = (front ++ [sign]) ++ (lastDigits 2 hh ++ ':' :: lastDigits 2 mm) := by
    simp [cs]
  have hminutes : cs = (front ++ sign :: (lastDigits 2 hh ++ [':'])) ++ lastDigits 2 mm := by
    simp [cs]
  constructor
  · rw [hhours, drop_left' (by simp), take_left' (by simp), value_lastDigits (by omega)]
    exact hhh
  · rw [hminutes, drop_left' (by simp), value_lastDigits (by omega)]
    exact hmm

theorem strict_formatZone (h : InYears (inZone offset t)) (hz : (offset.tdiv 60).natAbs < 1440) :
    Strict (formatZone offset t) := by
  have hstarts := zoneStarts_appendZone offset
  obtain ⟨y, m, d, hh, mm, ss, nsec, heq⟩ : ∃ y m d hh mm ss nsec : Nat, formatZone offset t =
      stampZone y m d hh mm ss nsec (appendZone offset) := ⟨_, _, _, _, _, _, _, formatZone_eq h⟩
  obtain ⟨hhour, hcomma⟩ := getD_stampZone y m d hh mm ss nsec (appendZone offset)
  obtain ⟨front, hfront⟩ := stampZone_split y m d hh mm ss nsec
  rw [heq]
  refine ⟨?_, ?_, ?_⟩
  · rw [hhour]
    intro hcolon
    have hdigit := isDigit_digitChar (Nat.mod_lt hh (by decide : 0 < 10))
    rw [hcolon] at hdigit
    cases hdigit
  · rw [hcomma, appendNano]
    split_ifs with h0
    · rw [nil_append]
      cases hzone : appendZone offset with
      | nil => decide
      | cons c z =>
        rw [hzone] at hstarts
        exact (hstarts c rfl).2.2
    · exact (by decide : ('.' : Char) ≠ ',')
  · by_cases h0 : offset = 0
    · left
      rw [hfront, h0, appendZone, if_pos rfl, getLast?_append]
      rfl
    · right
      rw [hfront, appendZone_eq h0 hz]
      generalize (if offset.tdiv 60 < 0 then '-' else '+') = sign
      exact zone_values front sign (by omega) (by omega)

theorem unmarshalTime_marshalTime (hmin : offset % 60 = 0) (h : marshalTime offset t = .ok cs) :
    unmarshalTime cs = some t := by
  unfold marshalTime at h
  split_ifs at h with hyears hhours
  cases h
  have hz : (offset.tdiv 60).natAbs < 1440 := by omega
  rw [unmarshalTime, parseNano_formatZone hyears (zoneStarts_appendZone offset)
    (readZone_appendZone hmin hz)]
  exact if_pos (strict_formatZone hyears hz)

end Json

end Skit.Lib.Calendar
