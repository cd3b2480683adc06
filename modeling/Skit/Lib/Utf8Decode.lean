import Skit.Lib.Utf8
import Mathlib.Data.List.GetD

/-!
# Decoding UTF-8

The decoders of Go's `unicode/utf8`. Both return a rune and its size, and for bytes that are not
the encoding of one the replacement character with size 1. `decodeLastRune` looks for the start of
the last rune in the four bytes before the end.
-/
namespace Skit.Lib.Utf8
open List

section Code

/-- `utf8.RuneError`. -/
def runeError : Nat := 0xFFFD

/-- By its first byte, the size of a rune and the range of its second byte; none for an ASCII byte
and for one that starts no rune. -/
def accept (b : Nat) : Option (Nat × Nat × Nat) :=
  if b < 0xC2 then none
  else if b ≤ 0xDF then some (2, 0x80, 0xBF)
  else if b = 0xE0 then some (3, 0xA0, 0xBF)
  else if b = 0xED then some (3, 0x80, 0x9F)
  else if b ≤ 0xEF then some (3, 0x80, 0xBF)
  else if b = 0xF0 then some (4, 0x90, 0xBF)
  else if b ≤ 0xF3 then some (4, 0x80, 0xBF)
  else if b = 0xF4 then some (4, 0x80, 0x8F)
  else none

def byteAt (s : List UInt8) (i : Nat) : Nat := (s.getD i 0).toNat

/-- `utf8.DecodeRuneInString`. -/
def decodeRune (s : List UInt8) : Nat × Nat :=
  if s = [] then (runeError, 0)
  else
    match accept (byteAt s 0) with
    | none => (if byteAt s 0 < 0x80 then byteAt s 0 else runeError, 1)
    | some (size, lo, hi) =>
      if s.length < size then (runeError, 1)
      else if byteAt s 1 < lo ∨ hi < byteAt s 1 then (runeError, 1)
      else if size ≤ 2 then ((byteAt s 0 &&& 0x1F) <<< 6 ||| byteAt s 1 &&& 0x3F, 2)
      else if byteAt s 2 < 0x80 ∨ 0xBF < byteAt s 2 then (runeError, 1)
      else if size ≤ 3 then
        ((byteAt s 0 &&& 0x0F) <<< 12 ||| (byteAt s 1 &&& 0x3F) <<< 6 ||| byteAt s 2 &&& 0x3F, 3)
      else if byteAt s 3 < 0x80 ∨ 0xBF < byteAt s 3 then (runeError, 1)
      else
        ((byteAt s 0 &&& 0x07) <<< 18 ||| (byteAt s 1 &&& 0x3F) <<< 12 |||
          (byteAt s 2 &&& 0x3F) <<< 6 ||| byteAt s 3 &&& 0x3F, 4)

instance (b : UInt8) : Decidable (Leads b) := inferInstanceAs (Decidable (_ ∨ _))

/-- The search for the start of the last rune, from the byte before `m` down to `lim`. -/
def backTo (s : List UInt8) (lim : Nat) : Nat → Nat
  | 0 => 0
  | n + 1 => if n < lim then n else if Leads (s.getD n 0) then n else backTo s lim n

/-- `utf8.DecodeLastRuneInString`. -/
def decodeLastRune (s : List UInt8) : Nat × Nat :=
  if s = [] then (runeError, 0)
  else if byteAt s (s.length - 1) < 0x80 then (byteAt s (s.length - 1), 1)
  else
    let start := backTo s (s.length - 4) (s.length - 1)
    let rune := decodeRune (s.drop start)
    if start + rune.2 ≠ s.length then (runeError, 1) else rune

example : decodeRune [0xEF, 0xBF, 0xBD, 0x21] = (runeError, 3) := by decide

example : decodeLastRune [0x61, 0xE2, 0x82] = (runeError, 1) := by decide

end Code

section Shape

theorem toNat_ofNat {n : Nat} (hn : n < 256) : (UInt8.ofNat n).toNat = n := by
  rw [UInt8.toNat_ofNat']
  exact Nat.mod_eq_of_lt hn

variable {b : Nat}

theorem accept_two (h : 194 ≤ b ∧ b ≤ 223) : accept b = some (2, 128, 191) := by
  rw [accept, if_neg (by omega), if_pos h.2]

theorem accept_three (h : 224 ≤ b ∧ b ≤ 239) : ∃ lo hi, accept b = some (3, lo, hi) ∧
    ∀ b₁, 128 ≤ b₁ → b₁ ≤ 191 → (b = 224 → 160 ≤ b₁) → (b = 237 → b₁ ≤ 159) →
      lo ≤ b₁ ∧ b₁ ≤ hi := by
  rw [accept, if_neg (by omega), if_neg (by omega)]
  split_ifs with h₁ h₂ h₃
  · exact ⟨_, _, rfl, fun b₁ _ hu h0 _ => ⟨h0 h₁, hu⟩⟩
  · exact ⟨_, _, rfl, fun b₁ hl _ _ hd => ⟨hl, hd h₂⟩⟩
  · exact ⟨_, _, rfl, fun b₁ hl hu _ _ => ⟨hl, hu⟩⟩
  all_goals omega

theorem accept_four (h : 240 ≤ b ∧ b ≤ 244) : ∃ lo hi, accept b = some (4, lo, hi) ∧
    ∀ b₁, 128 ≤ b₁ → b₁ ≤ 191 → (b = 240 → 144 ≤ b₁) → (b = 244 → b₁ ≤ 143) →
      lo ≤ b₁ ∧ b₁ ≤ hi := by
  rw [accept, if_neg (by omega), if_neg (by omega), if_neg (by omega), if_neg (by omega),
    if_neg (by omega)]
  split_ifs with h₁ h₂ h₃
  · exact ⟨_, _, rfl, fun b₁ _ hu h0 _ => ⟨h0 h₁, hu⟩⟩
  · exact ⟨_, _, rfl, fun b₁ hl hu _ _ => ⟨hl, hu⟩⟩
  · exact ⟨_, _, rfl, fun b₁ hl _ _ hd => ⟨hl, hd h₃⟩⟩
  · omega

/-- The bytes of a character that is not ASCII, as the decoder tests them. -/
structure Wide (b b₁ : UInt8) (conts : List UInt8) : Prop where
  lead : 192 ≤ b.toNat
  accepted : ∃ lo hi, accept b.toNat = some (conts.length + 2, lo, hi) ∧ lo ≤ b₁.toNat ∧
    b₁.toNat ≤ hi
  continues : ∀ x ∈ b₁ :: conts, 128 ≤ x.toNat ∧ x.toNat ≤ 191
  short : conts.length ≤ 2

/-- A character is one ASCII byte, or it is wide. -/
theorem utf8EncodeChar_shape (c : Char) :
    (∃ b, String.utf8EncodeChar c = [b] ∧ b.toNat < 128) ∨
      ∃ b b₁ conts, String.utf8EncodeChar c = b :: b₁ :: conts ∧ Wide b b₁ conts := by
  have hvalid : c.val.toNat < 0xD800 ∨ 0xDFFF < c.val.toNat ∧ c.val.toNat < 0x110000 := c.valid
  have hcont : ∀ v : Nat, 128 ≤ (UInt8.ofNat (v % 64 + 128)).toNat ∧
      (UInt8.ofNat (v % 64 + 128)).toNat ≤ 191 := by
    intro v
    rw [toNat_ofNat (by omega)]
    omega
  rw [String.utf8EncodeChar]
  generalize c.val.toNat = v at hvalid
  split_ifs with h₁ h₂ h₃
  · exact .inl ⟨_, rfl, by rw [toNat_ofNat (by omega)]; omega⟩
  · refine .inr ⟨_, _, _, rfl, ?_, ⟨128, 191, ?_, hcont v⟩, ?_, Nat.zero_le _⟩
    · rw [toNat_ofNat (by omega)]
      omega
    · rw [toNat_ofNat (by omega)]
      exact accept_two (by omega)
    · exact forall_mem_singleton.mpr (hcont v)
  · have hb : (UInt8.ofNat (v / 4096 % 16 + 224)).toNat = v / 4096 % 16 + 224 :=
      toNat_ofNat (by omega)
    have hb₁ : (UInt8.ofNat (v / 64 % 64 + 128)).toNat = v / 64 % 64 + 128 :=
      toNat_ofNat (by omega)
    obtain ⟨lo, hi, haccept, hrange⟩ := accept_three (b := v / 4096 % 16 + 224) (by omega)
    refine .inr ⟨_, _, _, rfl, ?_, ⟨lo, hi, ?_, ?_⟩, ?_, Nat.le_succ 1⟩
    · rw [hb]
      omega
    · rw [hb]
      exact haccept
    · rw [hb₁]
      exact hrange _ (by omega) (by omega) (by omega) (by omega)
    · exact forall_mem_cons.mpr ⟨hcont _, forall_mem_singleton.mpr (hcont v)⟩
  · have hb : (UInt8.ofNat (v / 262144 % 8 + 240)).toNat = v / 262144 % 8 + 240 :=
      toNat_ofNat (by omega)
    have hb₁ : (UInt8.ofNat (v / 4096 % 64 + 128)).toNat = v / 4096 % 64 + 128 :=
      toNat_ofNat (by omega)
    obtain ⟨lo, hi, haccept, hrange⟩ := accept_four (b := v / 262144 % 8 + 240) (by omega)
    refine .inr ⟨_, _, _, rfl, ?_, ⟨lo, hi, ?_, ?_⟩, ?_, Nat.le_refl 2⟩
    · rw [hb]
      omega
    · rw [hb]
      exact haccept
    · rw [hb₁]
      exact hrange _ (by omega) (by omega) (by omega) (by omega)
    · exact forall_mem_cons.mpr ⟨hcont _, forall_mem_cons.mpr
        ⟨hcont _, forall_mem_singleton.mpr (hcont v)⟩⟩

end Shape

section Decode

variable {b b₁ x : UInt8} {conts p q r s mid : List UInt8} {c : Char}

theorem Wide.leads (h : Wide b b₁ conts) : Leads b := .inr h.lead

theorem Wide.not_leads (h : Wide b b₁ conts) : ∀ x ∈ b₁ :: conts, ¬ Leads x := by
  intro x hx hleads
  have := h.continues x hx
  rw [Leads] at hleads
  omega

/-- A wide character is decoded whole. -/
theorem Wide.decodeRune_size (h : Wide b b₁ conts) (r : List UInt8) :
    (decodeRune (b :: b₁ :: conts ++ r)).2 = conts.length + 2 := by
  obtain ⟨lo, hi, haccept, hlo, hhi⟩ := h.accepted
  have hshort := h.short
  have hconts := h.continues
  have hsecond : ¬ (b₁.toNat < lo ∨ hi < b₁.toNat) := by omega
  have hbyte : ∀ x ∈ conts, ¬ (x.toNat < 0x80 ∨ 0xBF < x.toNat) := by
    intro x hx
    have := hconts x (mem_cons_of_mem b₁ hx)
    omega
  have hzero : byteAt (b :: b₁ :: conts ++ r) 0 = b.toNat := rfl
  have hone : byteAt (b :: b₁ :: conts ++ r) 1 = b₁.toNat := rfl
  have hlen : ¬ (b :: b₁ :: conts ++ r).length < conts.length + 2 := by simp
  rw [decodeRune, if_neg (by simp), hzero, haccept]
  dsimp only
  rw [if_neg hlen, hone, if_neg hsecond]
  rcases conts with _ | ⟨x, _ | ⟨y, _ | ⟨z, conts⟩⟩⟩
  · rfl
  · have htwo : byteAt (b :: b₁ :: [x] ++ r) 2 = x.toNat := rfl
    rw [htwo, if_neg (by simp), if_neg (hbyte x (by simp)), if_pos (by simp)]
    rfl
  · have htwo : byteAt (b :: b₁ :: [x, y] ++ r) 2 = x.toNat := rfl
    have hthree : byteAt (b :: b₁ :: [x, y] ++ r) 3 = y.toNat := rfl
    rw [htwo, hthree, if_neg (by simp), if_neg (hbyte x (by simp)), if_neg (by simp),
      if_neg (hbyte y (by simp))]
    rfl
  · simp at hshort

/-- The first bytes of a wide character are no rune. -/
theorem Wide.decodeRune_partial (h : Wide b b₁ conts) (hq : q.length < conts.length + 1) :
    decodeRune (b :: q) = (runeError, 1) := by
  obtain ⟨lo, hi, haccept, -⟩ := h.accepted
  have hlen : (b :: q).length < conts.length + 2 := Nat.succ_lt_succ hq
  have hzero : byteAt (b :: q) 0 = b.toNat := rfl
  rw [decodeRune, if_neg (cons_ne_nil b q), hzero, haccept]
  exact if_pos hlen

/-- The search stops at the start of a rune. -/
theorem backTo_eq {lim i m : Nat} (hi : i < m) (hlim : lim ≤ i + 1)
    (hstart : Leads (s.getD i 0)) (hconts : ∀ j, i < j → j < m → ¬ Leads (s.getD j 0)) :
    backTo s lim m = i := by
  induction m with
  | zero => cases hi
  | succ n ih =>
    rw [backTo]
    rcases Nat.eq_or_lt_of_le (Nat.le_of_lt_succ hi) with rfl | hlt
    · rw [if_pos hstart, ite_self]
    · rw [if_neg (by omega), if_neg (hconts n hlt (Nat.lt_succ_self n))]
      exact ih hlt fun j hij hj => hconts j hij (Nat.lt_succ_of_lt hj)

/-- The last rune is looked for at the byte that leads, however far it is within four bytes. -/
theorem decodeLastRune_eq (hb : Leads b) (hmid : ∀ y ∈ mid, ¬ Leads y) (hlen : mid.length ≤ 3)
    (hx : 128 ≤ x.toNat) :
    decodeLastRune (p ++ (b :: mid ++ [x])) =
      if (decodeRune (b :: mid ++ [x])).2 ≠ mid.length + 2 then (runeError, 1)
      else decodeRune (b :: mid ++ [x]) := by
  have hlength : (p ++ (b :: mid ++ [x])).length = p.length + mid.length + 2 := by
    simp
    omega
  have hlast : byteAt (p ++ (b :: mid ++ [x])) (p.length + mid.length + 1) = x.toNat := by
    rw [byteAt, getD_append_right _ _ _ _ (by omega)]
    simp [getD_eq_getElem?_getD, Nat.add_assoc]
  have hstart : backTo (p ++ (b :: mid ++ [x])) (p.length + mid.length + 2 - 4)
      (p.length + mid.length + 1) = p.length := by
    refine backTo_eq (by omega) (by omega) ?_ fun j hj hj' => ?_
    · simpa using hb
    · obtain ⟨i, rfl⟩ := Nat.exists_eq_add_of_lt hj
      have hi : i < mid.length := by omega
      have hget : (p ++ (b :: mid ++ [x])).getD (p.length + i + 1) 0 = mid[i] := by
        rw [getD_append_right _ _ _ _ (by omega)]
        simp [getD_eq_getElem?_getD, Nat.add_assoc, getElem?_append_left hi,
          getElem?_eq_getElem hi]
      rw [hget]
      exact hmid _ (getElem_mem hi)
  have hsize : ∀ size, p.length + size ≠ p.length + mid.length + 2 ↔ size ≠ mid.length + 2 := by
    intro size
    omega
  rw [decodeLastRune, if_neg (by simp), hlength, Nat.add_sub_cancel (m := 1), hlast,
    if_neg (by omega), hstart]
  simp only [drop_left, hsize]

theorem exists_concat {l : List UInt8} (h : l ≠ []) : ∃ mid x, l = mid ++ [x] :=
  ⟨l.dropLast, l.getLast h, (dropLast_append_getLast h).symm⟩

/-- After a whole character the last rune is one, be it the replacement character. -/
theorem decodeLastRune_complete (p : List UInt8) (c : Char) :
    (decodeLastRune (p ++ String.utf8EncodeChar c)).1 ≠ runeError ∨
      1 < (decodeLastRune (p ++ String.utf8EncodeChar c)).2 := by
  rcases utf8EncodeChar_shape c with ⟨b, hc, hb⟩ | ⟨b, b₁, conts, hc, hwide⟩
  · left
    have hlast : byteAt (p ++ [b]) ((p ++ [b]).length - 1) = b.toNat := by
      simp [byteAt, getD_eq_getElem?_getD]
    rw [hc, decodeLastRune, if_neg (by simp), hlast, if_pos hb, runeError]
    dsimp only
    omega
  · right
    obtain ⟨mid, x, hmid⟩ := exists_concat (cons_ne_nil b₁ conts)
    have hlen : mid.length = conts.length := by simpa using (congrArg List.length hmid).symm
    have hconts := hwide.not_leads
    have hx := hwide.continues x (by simp [hmid])
    have hsize := hwide.decodeRune_size []
    rw [append_nil, hmid, ← hlen] at hsize
    rw [hmid] at hconts
    have hlast := decodeLastRune_eq (p := p) hwide.leads
      (fun y hy => hconts y (mem_append_left [x] hy)) (by have := hwide.short; omega) hx.1
    rw [cons_append, hsize, if_neg (not_not_intro rfl)] at hlast
    rw [hc, hmid, hlast, hsize]
    omega

/-- A character at the start is decoded whole. -/
theorem decodeRune_size (c : Char) (r : List UInt8) :
    (decodeRune (String.utf8EncodeChar c ++ r)).2 = (String.utf8EncodeChar c).length := by
  rcases utf8EncodeChar_shape c with ⟨b, hc, hb⟩ | ⟨b, b₁, conts, hc, hwide⟩
  · have hnone : accept (byteAt ([b] ++ r) 0) = none := if_pos (Nat.lt_trans hb (by decide))
    rw [hc, decodeRune, if_neg (by simp), hnone]
    rfl
  · rw [hc, hwide.decodeRune_size]
    rfl

/-- A byte that leads a wide character is looked past, to the character before. -/
theorem decodeLastRune_lead (cs : List Char) (hx : 128 ≤ x.toNat)
    (hbroken : decodeRune [x] = (runeError, 1)) :
    decodeLastRune (encode cs ++ [x]) = (runeError, 1) := by
  rcases eq_nil_or_concat cs with rfl | ⟨cs, c, rfl⟩
  · have hlast : byteAt [x] 0 = x.toNat := rfl
    have hnot : ¬ byteAt [x] ([x].length - 1) < 0x80 := by
      rw [length_singleton, Nat.sub_self, hlast]
      omega
    have hstart : backTo [x] ([x].length - 4) ([x].length - 1) = 0 := rfl
    rw [encode, flatMap_nil, nil_append, decodeLastRune, if_neg (by simp), if_neg hnot,
      hstart]
    simp only [drop_zero, hbroken, ite_self]
  · obtain ⟨b, mid, hc, hb, hmid, -⟩ := utf8EncodeChar_cases c
    have hlen : mid.length + 1 ≤ 4 := by
      have hsize := c.utf8Size_le_four
      rwa [← String.length_utf8EncodeChar, hc] at hsize
    have hsize := decodeRune_size c [x]
    rw [hc, length_cons] at hsize
    have hcs : encode (cs ++ [c]) ++ [x] = encode cs ++ (b :: mid ++ [x]) := by
      rw [encode, flatMap_append, flatMap_singleton, hc, append_assoc]
      rfl
    rw [concat_eq_append, hcs, decodeLastRune_eq hb hmid (by omega) hx, hsize,
      if_pos (by omega)]

/-- After a character of which bytes are missing there is no last rune. -/
theorem decodeLastRune_partial (cs : List Char) (hq : q <+: String.utf8EncodeChar c)
    (hne : q ≠ []) (hlt : q.length < (String.utf8EncodeChar c).length) :
    decodeLastRune (encode cs ++ q) = (runeError, 1) := by
  rcases utf8EncodeChar_shape c with ⟨b, hc, hb⟩ | ⟨b, b₁, conts, hc, hwide⟩
  · rw [hc, length_singleton, Nat.lt_one_iff, length_eq_zero_iff] at hlt
    exact absurd hlt hne
  · cases q with
    | nil => exact absurd rfl hne
    | cons a q =>
      rw [hc, cons_prefix_cons] at hq
      obtain ⟨rfl, hq⟩ := hq
      have hq' : q.length < conts.length + 1 := by simpa [hc] using hlt
      have hbroken := hwide.decodeRune_partial hq'
      by_cases hnil : q = []
      · subst hnil
        exact decodeLastRune_lead cs (Nat.le_trans (by decide) hwide.lead) hbroken
      · obtain ⟨mid, x, rfl⟩ := exists_concat hnil
        have hsub : ∀ y ∈ mid ++ [x], y ∈ b₁ :: conts := fun y hy => hq.subset hy
        have hlast := decodeLastRune_eq (p := encode cs) hwide.leads
          (fun y hy => hwide.not_leads y (hsub y (mem_append_left [x] hy)))
          (by have := hwide.short; simp at hq'; omega) (hwide.continues x (hsub x (by simp))).1
        rw [cons_append, hbroken, if_pos (by simp)] at hlast
        exact hlast

end Decode

end Skit.Lib.Utf8
