import Mathlib.Algebra.Group.Int.Defs
import Mathlib.Algebra.Group.Nat.Defs
import Mathlib.Data.List.Induction

/-!
# Decimals

`padded w n` is `n` in decimal, filled up with zeros to `w` digits, and `number w` reads `w`
digits from the front of a text. Below `10 ^ w` each is the inverse of the other, so a text is
read only if it is what would have been written. `appendInt` puts a sign before the digits, and
`atoi` reads a sign and any number of them.
-/
namespace Skit.Lib
open List

def padded (w n : Nat) : List Char := (Nat.toDigits 10 n).leftpad w '0'

/-- The last `w` digits. -/
def lastDigits : Nat → Nat → List Char
  | 0, _ => []
  | w + 1, n => lastDigits w (n / 10) ++ [(n % 10).digitChar]

def isDigit (c : Char) : Bool := 48 ≤ c.toNat ∧ c.toNat ≤ 57

def value (cs : List Char) : Nat := cs.foldl (fun n c => 10 * n + (c.toNat - 48)) 0

/-- The number of the first `w` characters, if they are digits, with what follows them. -/
def number (w : Nat) (cs : List Char) : Option (Nat × List Char) :=
  if w ≤ cs.length ∧ (cs.take w).all isDigit then some (value (cs.take w), cs.drop w) else none

/-- A number with its sign before at least `w` digits. -/
def appendInt (w : Nat) (x : Int) : List Char :=
  (if x < 0 then ['-'] else []) ++ padded w x.natAbs

/-- `strconv.Atoi` where an int has 64 bits. -/
def atoi (text : String) : Option Int :=
  let (negative, digits) := match text.toList with
    | '-' :: digits => (true, digits)
    | '+' :: digits => (false, digits)
    | digits => (false, digits)
  if digits = [] ∨ !digits.all isDigit then none
  else
    let n : Int := value digits
    if negative then if n ≤ 2 ^ 63 then some (-n) else none
    else if n < 2 ^ 63 then some n else none

variable {w n : Nat} {cs rest : List Char}

theorem digitChar_toNat (h : n < 10) : n.digitChar.toNat = 48 + n :=
  Nat.toNat_digitChar_of_lt_ten h

theorem isDigit_digitChar (h : n < 10) : isDigit n.digitChar = true := by
  simp only [isDigit, digitChar_toNat h, decide_eq_true_eq]
  omega

theorem digitChar_of_isDigit {c : Char} (h : isDigit c = true) :
    (c.toNat - 48).digitChar = c ∧ c.toNat - 48 < 10 := by
  simp only [isDigit, decide_eq_true_eq] at h
  refine ⟨Char.toNat_inj.mp ?_, by omega⟩
  rw [digitChar_toNat (by omega)]
  omega

@[simp] theorem length_lastDigits (w n : Nat) : (lastDigits w n).length = w := by
  induction w generalizing n with
  | zero => rfl
  | succ w ih => simp [lastDigits, ih]

theorem all_lastDigits (w n : Nat) : (lastDigits w n).all isDigit = true := by
  induction w generalizing n with
  | zero => rfl
  | succ w ih =>
    have hdigit := isDigit_digitChar (Nat.mod_lt n (by decide : 0 < 10))
    simp only [lastDigits, all_append, all_cons, all_nil, ih, hdigit, Bool.and_self]

theorem value_append (cs : List Char) (c : Char) :
    value (cs ++ [c]) = 10 * value cs + (c.toNat - 48) := by
  simp [value]

theorem value_lastDigits (h : n < 10 ^ w) : value (lastDigits w n) = n := by
  induction w generalizing n with
  | zero =>
    have hn : n = 0 := by simpa using h
    rw [hn]
    rfl
  | succ w ih =>
    have hdiv : n / 10 < 10 ^ w := by
      rw [Nat.pow_succ] at h
      omega
    rw [lastDigits, value_append, ih hdiv, digitChar_toNat (Nat.mod_lt n (by decide))]
    omega

/-- A text of digits is read back from its value. -/
theorem lastDigits_value (h : cs.all isDigit = true) :
    lastDigits cs.length (value cs) = cs ∧ value cs < 10 ^ cs.length := by
  induction cs using List.reverseRecOn with
  | nil => exact ⟨rfl, by decide⟩
  | append_singleton cs c ih =>
    rw [all_append, Bool.and_eq_true] at h
    obtain ⟨hcs, hc⟩ := h
    obtain ⟨hchar, hlt⟩ := digitChar_of_isDigit (by simpa using hc)
    obtain ⟨ih, hbound⟩ := ih hcs
    have hdiv : (10 * value cs + (c.toNat - 48)) / 10 = value cs := by omega
    have hmod : (10 * value cs + (c.toNat - 48)) % 10 = c.toNat - 48 := by omega
    rw [value_append, length_append, length_singleton, Nat.pow_succ]
    refine ⟨?_, by omega⟩
    rw [lastDigits, hdiv, hmod, ih, hchar]

/-- A number is read exactly from its digits. -/
theorem number_eq_some_iff :
    number w cs = some (n, rest) ↔ n < 10 ^ w ∧ cs = lastDigits w n ++ rest := by
  unfold number
  refine ⟨fun h => ?_, ?_⟩
  · split_ifs at h with hif
    obtain ⟨hlen, hall⟩ := hif
    simp only [Option.some.injEq, Prod.mk.injEq] at h
    obtain ⟨rfl, rfl⟩ := h
    have hw : (cs.take w).length = w := length_take_of_le hlen
    obtain ⟨hdigits, hlt⟩ := lastDigits_value hall
    rw [hw] at hdigits hlt
    refine ⟨hlt, ?_⟩
    rw [hdigits, take_append_drop]
  · rintro ⟨hlt, rfl⟩
    have htake : (lastDigits w n ++ rest).take w = lastDigits w n :=
      take_left' (length_lastDigits w n)
    have hdrop : (lastDigits w n ++ rest).drop w = rest :=
      drop_left' (length_lastDigits w n)
    have hall : ((lastDigits w n ++ rest).take w).all isDigit = true := by
      rw [htake]
      exact all_lastDigits w n
    rw [if_pos ⟨by simp, hall⟩, htake, hdrop, value_lastDigits hlt]

theorem lastDigits_zero (w : Nat) : lastDigits w 0 = List.replicate w '0' := by
  induction w with
  | zero => rfl
  | succ w ih =>
    rw [lastDigits, Nat.zero_div, ih, replicate_succ']
    rfl

theorem leftpad_append (w : Nat) (c d : Char) (cs : List Char) :
    (cs ++ [c]).leftpad (w + 1) d = cs.leftpad w d ++ [c] := by
  simp [List.leftpad]

/-- A number that fits is filled up to the width. -/
theorem padded_eq (h : n < 10 ^ (w + 1)) : padded (w + 1) n = lastDigits (w + 1) n := by
  unfold padded
  induction w generalizing n with
  | zero =>
    have hlt : n < 10 := by simpa using h
    rw [Nat.toDigits_of_lt_base hlt, lastDigits, Nat.mod_eq_of_lt hlt]
    rfl
  | succ w ih =>
    by_cases hlt : n < 10
    · rw [Nat.toDigits_of_lt_base hlt, lastDigits, Nat.div_eq_of_lt hlt, Nat.mod_eq_of_lt hlt,
        lastDigits_zero]
      rfl
    · have hdiv : n / 10 < 10 ^ (w + 1) := by
        rw [Nat.pow_succ] at h
        omega
      rw [Nat.toDigits_of_base_le (by decide) (by omega), leftpad_append, ih hdiv]
      rfl

theorem appendInt_eq {w : Nat} {x : Int} (h : 0 ≤ x) (hlt : x.toNat < 10 ^ (w + 1)) :
    appendInt (w + 1) x = lastDigits (w + 1) x.toNat := by
  rw [appendInt, if_neg (Int.not_lt.mpr h), nil_append]
  have habs : x.natAbs = x.toNat := by omega
  rw [habs, padded_eq hlt]

end Skit.Lib
