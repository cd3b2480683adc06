import Mathlib.Data.List.Basic

/-!
# Cutting UTF-8

The bytes of a text in UTF-8 can be cut before every byte that does not continue a character, and
at every ASCII byte.
-/
namespace Skit.Lib.Utf8
open List

/-- The byte does not continue a character. -/
def Leads (b : UInt8) : Prop := b.toNat < 128 ∨ 192 ≤ b.toNat

def encode (cs : List Char) : List UInt8 := cs.flatMap String.utf8EncodeChar

/-- The bytes of a text. -/
def Valid (t : List UInt8) : Prop := ∃ cs, encode cs = t

variable {p r t : List UInt8} {b : UInt8}

theorem leads_ofNat {n : Nat} (hn : n < 256) : Leads (UInt8.ofNat n) ↔ n < 128 ∨ 192 ≤ n := by
  have hmod : n % 2 ^ 8 = n := Nat.mod_eq_of_lt hn
  rw [Leads, UInt8.toNat_ofNat', hmod]

/-- Only the first byte of a character leads. -/
theorem utf8EncodeChar_cases (c : Char) : ∃ b conts, String.utf8EncodeChar c = b :: conts ∧
    Leads b ∧ (∀ x ∈ conts, ¬ Leads x) ∧ (b.toNat < 128 → conts = []) := by
  have hcont : ∀ v : Nat, ¬ Leads (UInt8.ofNat (v % 64 + 128)) := by
    intro v
    rw [leads_ofNat (by omega)]
    omega
  have hfirst : ∀ n : Nat, 192 ≤ n → n < 256 →
      Leads (UInt8.ofNat n) ∧ ∀ conts : List UInt8, (UInt8.ofNat n).toNat < 128 → conts = [] := by
    intro n hn hlt
    refine ⟨(leads_ofNat hlt).mpr (.inr hn), fun conts h => ?_⟩
    have hmod : n % 2 ^ 8 = n := Nat.mod_eq_of_lt hlt
    rw [UInt8.toNat_ofNat', hmod] at h
    omega
  have hall : ∀ v₁ v₂ v₃ : Nat, ∀ x ∈ [UInt8.ofNat (v₁ % 64 + 128), UInt8.ofNat (v₂ % 64 + 128),
      UInt8.ofNat (v₃ % 64 + 128)], ¬ Leads x := by
    intro v₁ v₂ v₃ x hx
    simp only [mem_cons, not_mem_nil, or_false] at hx
    rcases hx with rfl | rfl | rfl
    · exact hcont v₁
    · exact hcont v₂
    · exact hcont v₃
  rw [String.utf8EncodeChar]
  generalize c.val.toNat = v
  split_ifs with h₁ h₂ h₃
  · exact ⟨_, _, rfl, (leads_ofNat (by omega)).mpr (by omega), nofun, fun _ => rfl⟩
  · obtain ⟨hb, hnil⟩ := hfirst (v / 64 % 32 + 192) (by omega) (by omega)
    exact ⟨_, _, rfl, hb, fun x hx => hall v v v x (by simp_all), hnil _⟩
  · obtain ⟨hb, hnil⟩ := hfirst (v / 4096 % 16 + 224) (by omega) (by omega)
    exact ⟨_, _, rfl, hb, fun x hx => hall (v / 64) v v x (by simp_all), hnil _⟩
  · obtain ⟨hb, hnil⟩ := hfirst (v / 262144 % 8 + 240) (by omega) (by omega)
    exact ⟨_, _, rfl, hb, fun x hx => hall (v / 4096) (v / 64) v x (by simp_all), hnil _⟩

theorem valid_nil : Valid [] := ⟨[], rfl⟩

theorem Valid.append (hp : Valid p) (hr : Valid r) : Valid (p ++ r) := by
  obtain ⟨cs, rfl⟩ := hp
  obtain ⟨cs', rfl⟩ := hr
  exact ⟨cs ++ cs', flatMap_append⟩

/-- A text can be cut before a byte that leads. -/
theorem Valid.split (h : Valid (p ++ b :: r)) (hb : Leads b) : Valid p ∧ Valid (b :: r) := by
  obtain ⟨cs, hcs⟩ := h
  induction cs generalizing p with
  | nil => simp [encode] at hcs
  | cons c cs ih =>
    cases p with
    | nil => exact ⟨valid_nil, c :: cs, hcs⟩
    | cons a p =>
      obtain ⟨a', conts, henc, -, hconts, -⟩ := utf8EncodeChar_cases c
      have hsplit : a' :: (conts ++ encode cs) = a :: (p ++ b :: r) := by
        rw [← cons_append, ← henc]
        exact hcs
      obtain ⟨rfl, htail⟩ := List.cons.inj hsplit
      rcases append_eq_append_iff.mp htail with ⟨p', rfl, hrest⟩ | ⟨q, hcont, hrest⟩
      · obtain ⟨hp', hr⟩ := ih hrest
        refine ⟨?_, hr⟩
        rw [← cons_append, ← henc]
        have hc : Valid (String.utf8EncodeChar c) := ⟨[c], by simp [encode]⟩
        exact hc.append hp'
      · -- the byte would be inside the character
        cases q with
        | nil =>
          obtain ⟨-, hr⟩ := ih (p := []) hrest.symm
          refine ⟨⟨[c], ?_⟩, hr⟩
          rw [encode, flatMap_singleton, henc, hcont, append_nil]
        | cons x q =>
          obtain ⟨rfl, -⟩ := List.cons.inj hrest
          exact absurd hb (hconts b (by simp [hcont]))

theorem leads_of_ascii (hb : b.toNat < 128) : Leads b := .inl hb

/-- A text can be cut at an ASCII byte. -/
theorem Valid.split_ascii (h : Valid (p ++ b :: r)) (hb : b.toNat < 128) : Valid p ∧ Valid r := by
  obtain ⟨hp, cs, hcs⟩ := h.split (leads_of_ascii hb)
  refine ⟨hp, ?_⟩
  cases cs with
  | nil => cases hcs
  | cons c cs =>
    obtain ⟨a, conts, henc, -, -, hnil⟩ := utf8EncodeChar_cases c
    have hcons : a :: (conts ++ encode cs) = b :: r := by
      rw [← cons_append, ← henc]
      exact hcs
    obtain ⟨rfl, rfl⟩ := List.cons.inj hcons
    rw [hnil hb, nil_append]
    exact ⟨cs, rfl⟩

section Cuts

variable {cs cs' cs₁ cs₂ : List Char} {c : Char} {n k : Nat}

/-- The longest beginning of a text in at most `n` bytes that splits no character. -/
structure LongestCut (cs : List Char) (n : Nat) (p : List UInt8) : Prop where
  whole : ∃ cs', cs' <+: cs ∧ encode cs' = p
  short : p.length ≤ n
  longest : ∀ cs', cs' <+: cs → (encode cs').length ≤ n → (encode cs').length ≤ p.length

theorem encode_append (cs cs' : List Char) : encode (cs ++ cs') = encode cs ++ encode cs' :=
  flatMap_append

theorem encode_cons (c : Char) (cs : List Char) :
    encode (c :: cs) = String.utf8EncodeChar c ++ encode cs :=
  flatMap_cons

theorem encode_singleton (c : Char) : encode [c] = String.utf8EncodeChar c :=
  flatMap_singleton String.utf8EncodeChar c

theorem length_encode_le (h : cs' <+: cs) : (encode cs').length ≤ (encode cs).length := by
  obtain ⟨r, rfl⟩ := h
  rw [encode_append, length_append]
  exact Nat.le_add_right _ _

/-- Every place in a text is in one of its characters. -/
theorem exists_cut (hn : n < (encode cs).length) : ∃ cs₁ c cs₂ k, cs = cs₁ ++ c :: cs₂ ∧
    k < (String.utf8EncodeChar c).length ∧ n = (encode cs₁).length + k := by
  induction cs generalizing n with
  | nil => cases hn
  | cons c cs ih =>
    rw [encode_cons, length_append] at hn
    by_cases hlt : n < (String.utf8EncodeChar c).length
    · exact ⟨[], c, cs, n, rfl, hlt, (Nat.zero_add n).symm⟩
    · obtain ⟨cs₁, d, cs₂, k, rfl, hk, heq⟩ := ih (n := n - (String.utf8EncodeChar c).length)
        (by omega)
      refine ⟨c :: cs₁, d, cs₂, k, rfl, hk, ?_⟩
      rw [encode_cons, length_append]
      omega

theorem longestCut (hk : k < (String.utf8EncodeChar c).length) :
    LongestCut (cs₁ ++ c :: cs₂) ((encode cs₁).length + k) (encode cs₁) := by
  refine ⟨⟨cs₁, prefix_append _ _, rfl⟩, Nat.le_add_right _ _, fun cs' hcs' hshort => ?_⟩
  have hwith : cs₁ ++ [c] <+: cs₁ ++ c :: cs₂ := ⟨cs₂, by simp⟩
  have hnot : ¬ cs₁ ++ [c] <+: cs' := by
    intro h
    have hle := length_encode_le h
    rw [encode_append, encode_singleton, length_append] at hle
    omega
  rcases prefix_or_prefix_of_prefix hcs' hwith with h | h
  · rcases prefix_concat_iff.mp h with rfl | h
    · exact absurd prefix_rfl hnot
    · exact length_encode_le h
  · exact absurd h hnot

end Cuts

end Skit.Lib.Utf8
