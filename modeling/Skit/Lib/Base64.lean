import Mathlib.Data.List.Basic

/-!
# Base64

The URL alphabet of `encoding/base64`, without padding. A text is decoded four digits at a time,
line ends left out; what is left over of the last digit is dropped. The last section has the
standard alphabet, with padding and without line ends.
-/
namespace Skit.Lib.Base64
open List Option

/-- `ABCDEFGHIJKLMNOPQRSTUVWXYZabcdefghijklmnopqrstuvwxyz0123456789-_` -/
def digit (n : Nat) : UInt8 :=
  if n < 26 then UInt8.ofNat (65 + n)
  else if n < 52 then UInt8.ofNat (97 + (n - 26))
  else if n < 62 then UInt8.ofNat (48 + (n - 52))
  else if n = 62 then 45
  else 95

def digitValue (c : UInt8) : Option Nat :=
  if 65 ≤ c ∧ c ≤ 90 then some (c.toNat - 65)
  else if 97 ≤ c ∧ c ≤ 122 then some (c.toNat - 97 + 26)
  else if 48 ≤ c ∧ c ≤ 57 then some (c.toNat - 48 + 52)
  else if c = 45 then some 62
  else if c = 95 then some 63
  else none

/-- The values of the digits, six bits each. -/
def sextets : List UInt8 → List Nat
  | a :: b :: c :: rest =>
    let v := a.toNat * 65536 + b.toNat * 256 + c.toNat
    v / 262144 :: v / 4096 % 64 :: v / 64 % 64 :: v % 64 :: sextets rest
  | [a, b] =>
    let v := a.toNat * 65536 + b.toNat * 256
    [v / 262144, v / 4096 % 64, v / 64 % 64]
  | [a] =>
    let v := a.toNat * 65536
    [v / 262144, v / 4096 % 64]
  | [] => []

def octets : List Nat → Option (List UInt8)
  | a :: b :: c :: d :: rest =>
    let v := a * 262144 + b * 4096 + c * 64 + d
    (octets rest).map fun bs =>
      UInt8.ofNat (v / 65536) :: UInt8.ofNat (v / 256) :: UInt8.ofNat v :: bs
  | [a, b, c] =>
    let v := a * 262144 + b * 4096 + c * 64
    some [UInt8.ofNat (v / 65536), UInt8.ofNat (v / 256)]
  | [a, b] => some [UInt8.ofNat ((a * 262144 + b * 4096) / 65536)]
  | [_] => none
  | [] => some []

/-- `RawURLEncoding.EncodeToString`. -/
def encode (bs : List UInt8) : List UInt8 := (sextets bs).map digit

/-- `RawURLEncoding.DecodeString`. -/
def decode (cs : List UInt8) : Option (List UInt8) :=
  ((cs.filter fun c => c ≠ 10 ∧ c ≠ 13).mapM digitValue).bind octets

variable {n : Nat}

theorem digitValue_digit (h : n < 64) : digitValue (digit n) = some n := by
  have hall : ∀ m : Fin 64, digitValue (digit m) = some m.val := by decide
  exact hall ⟨n, h⟩

theorem digit_not_line (h : n < 64) : digit n ≠ 10 ∧ digit n ≠ 13 := by
  have hall : ∀ m : Fin 64, digit m ≠ 10 ∧ digit m ≠ 13 := by decide
  exact hall ⟨n, h⟩

theorem ofNat_eq {b : UInt8} (h : n % 256 = b.toNat) : UInt8.ofNat n = b := by
  refine UInt8.toNat_inj.mp ?_
  rw [UInt8.toNat_ofNat']
  exact h

theorem sextets_lt (bs : List UInt8) : ∀ n ∈ sextets bs, n < 64 := by
  induction bs using sextets.induct with
  | case1 a b c rest ih =>
    have ha := a.toNat_lt
    have hb := b.toNat_lt
    have hc := c.toNat_lt
    simp only [sextets, mem_cons]
    rintro n (rfl | rfl | rfl | rfl | hn)
    · omega
    · omega
    · omega
    · omega
    · exact ih n hn
  | case2 a b =>
    have ha := a.toNat_lt
    have hb := b.toNat_lt
    simp only [sextets, mem_cons, not_mem_nil, or_false]
    rintro n (rfl | rfl | rfl) <;> omega
  | case3 a =>
    have ha := a.toNat_lt
    simp only [sextets, mem_cons, not_mem_nil, or_false]
    rintro n (rfl | rfl) <;> omega
  | case4 => exact nofun

theorem sextets_sum (v : Nat) :
    v / 262144 * 262144 + v / 4096 % 64 * 4096 + v / 64 % 64 * 64 + v % 64 = v := by
  omega

/-- Four digits of six bits are three bytes. -/
theorem octets_group (v : Nat) (rest : List Nat) :
    octets (v / 262144 :: v / 4096 % 64 :: v / 64 % 64 :: v % 64 :: rest) =
      (octets rest).map fun bs =>
        UInt8.ofNat (v / 65536) :: UInt8.ofNat (v / 256) :: UInt8.ofNat v :: bs := by
  rw [octets, sextets_sum]

/-- Three digits are two bytes, and two digits one, when nothing is dropped. -/
theorem octets_last {v : Nat} (h : v % 64 = 0) :
    octets [v / 262144, v / 4096 % 64, v / 64 % 64] =
      some [UInt8.ofNat (v / 65536), UInt8.ofNat (v / 256)] ∧
    (v / 64 % 64 = 0 →
      octets [v / 262144, v / 4096 % 64] = some [UInt8.ofNat (v / 65536)]) := by
  have hsum := sextets_sum v
  rw [h, Nat.add_zero] at hsum
  constructor
  · rw [octets, hsum]
  · intro h'
    rw [h', Nat.zero_mul, Nat.add_zero] at hsum
    rw [octets, hsum]

theorem octets_sextets (bs : List UInt8) : octets (sextets bs) = some bs := by
  induction bs using sextets.induct with
  | case1 a b c rest ih =>
    have ha := a.toNat_lt
    have hb := b.toNat_lt
    have hc := c.toNat_lt
    rw [sextets, octets_group, ih, map_some, ofNat_eq (b := a) (by omega),
      ofNat_eq (b := b) (by omega), ofNat_eq (b := c) (by omega)]
  | case2 a b =>
    have ha := a.toNat_lt
    have hb := b.toNat_lt
    rw [sextets, (octets_last (by omega)).1, ofNat_eq (b := a) (by omega),
      ofNat_eq (b := b) (by omega)]
  | case3 a =>
    have ha := a.toNat_lt
    rw [sextets, (octets_last (by omega)).2 (by omega), ofNat_eq (b := a) (by omega)]
  | case4 => rfl

theorem mapM_value {γ : Type} {f : Nat → γ} {g : γ → Option Nat} {ns : List Nat}
    (h : ∀ n ∈ ns, g (f n) = some n) : (ns.map f).mapM g = some ns := by
  induction ns with
  | nil => rfl
  | cons n ns ih =>
    have hrest := ih fun m hm => h m (mem_cons_of_mem n hm)
    simp only [map_cons, mapM_cons, h n mem_cons_self, hrest]
    rfl

/-- What is encoded is decoded. -/
theorem decode_encode (bs : List UInt8) : decode (encode bs) = some bs := by
  have hlines : (encode bs).filter (fun c => c ≠ 10 ∧ c ≠ 13) = encode bs := by
    refine filter_eq_self.mpr fun c hc => ?_
    obtain ⟨n, hn, rfl⟩ := mem_map.mp hc
    exact decide_eq_true (digit_not_line (sextets_lt bs n hn))
  rw [decode, hlines, encode, mapM_value fun n hn => digitValue_digit (sextets_lt bs n hn),
    bind_some, octets_sextets]

theorem encode_ne_nil {bs : List UInt8} (h : bs ≠ []) : encode bs ≠ [] := by
  intro hnil
  have hback := decode_encode bs
  rw [hnil] at hback
  exact h (Option.some.inj hback).symm

section Standard

def stdDigit (n : Nat) : Char :=
  if n = 62 then '+' else if n = 63 then '/' else Char.ofNat (digit n).toNat

def stdValue (c : Char) : Option Nat :=
  if c = '+' then some 62
  else if c = '/' then some 63
  else if c = '-' ∨ c = '_' ∨ 128 ≤ c.toNat then none
  else digitValue (UInt8.ofNat c.toNat)

def padding (n : Nat) : List Char :=
  if n % 3 = 0 then [] else if n % 3 = 1 then ['=', '='] else ['=']

/-- `StdEncoding.EncodeToString`. -/
def stdEncode (bs : List UInt8) : List Char := (sextets bs).map stdDigit ++ padding bs.length

/-- A text in whole groups of four, without the padding at its end. -/
def unpadded (cs : List Char) : Option (List Char) :=
  if cs.length % 4 ≠ 0 then none
  else if cs.getLast? = some '=' then
    if cs.dropLast.getLast? = some '=' then some cs.dropLast.dropLast else some cs.dropLast
  else some cs

/-- `StdEncoding.DecodeString`, where line ends are refused. -/
def stdDecode (cs : List Char) : Option (List UInt8) :=
  (unpadded cs).bind fun ds => (ds.mapM stdValue).bind octets

theorem stdValue_stdDigit {n : Nat} (h : n < 64) : stdValue (stdDigit n) = some n := by
  have hall : ∀ m : Fin 64, stdValue (stdDigit m) = some m.val := by decide
  exact hall ⟨n, h⟩

theorem length_sextets (bs : List UInt8) : (sextets bs).length = (4 * bs.length + 2) / 3 := by
  induction bs using sextets.induct with
  | case1 a b c rest ih =>
    simp only [sextets, length_cons, ih]
    omega
  | case2 a b => simp [sextets]
  | case3 a => simp [sextets]
  | case4 => rfl

theorem unpadded_stdEncode (bs : List UInt8) :
    unpadded (stdEncode bs) = some ((sextets bs).map stdDigit) := by
  have hlast : ((sextets bs).map stdDigit).getLast? ≠ some '=' := by
    intro h
    obtain ⟨n, hn, heq⟩ := mem_map.mp (mem_of_getLast? h)
    have hvalue := stdValue_stdDigit (sextets_lt bs n hn)
    rw [heq] at hvalue
    cases hvalue
  have hlen := length_sextets bs
  rw [← length_map stdDigit] at hlen
  rw [stdEncode]
  generalize (sextets bs).map stdDigit = ds at *
  unfold padding
  split_ifs with h0 h1
  · rw [append_nil, unpadded, if_neg (by omega), if_neg hlast]
  · have hsplit : ds ++ ['=', '='] = ds ++ ['='] ++ ['='] := by simp
    rw [hsplit, unpadded, if_neg (by simp; omega)]
    simp
  · rw [unpadded, if_neg (by simp; omega)]
    simp [hlast]

theorem stdDecode_stdEncode (bs : List UInt8) : stdDecode (stdEncode bs) = some bs := by
  rw [stdDecode, unpadded_stdEncode, bind_some,
    mapM_value fun n hn => stdValue_stdDigit (sextets_lt bs n hn), bind_some,
    octets_sextets]

theorem stdEncode_eq_nil_iff {bs : List UInt8} : stdEncode bs = [] ↔ bs = [] := by
  constructor
  · intro hnil
    have hback := stdDecode_stdEncode bs
    rw [hnil] at hback
    exact (Option.some.inj hback).symm
  · rintro rfl
    rfl

end Standard

end Skit.Lib.Base64
