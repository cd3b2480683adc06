import Skit.Errs.Projection
import Skit.Lib.Utf8Decode

/-!
# Logged bodies

`logBody` trims a body to a number of bytes and steps back while the last rune is broken.
`truncateUTF8` of the error messages looks at the byte after the cut instead. On valid UTF-8 both
keep the longest beginning that splits no rune.
-/
namespace Skit.Httplog
open List

open Errs (Text text runeStart cutAt truncateUTF8)
open Lib.Utf8

section Code

/-- What `logBody` reads of the options. -/
structure Options where
  logBodyContentTypes : List Text
  logBodyMaxLen : Int

/-- `header.Get("Content-Type")`; the header is keyed by the canonical names. -/
def contentType (header : List (Text × List Text)) : Text :=
  ((header.lookup (text "Content-Type")).bind List.head?).getD []

/-- The loop of `logBody`, which steps back over the bytes of a partial rune. -/
def backOff (s : Text) : Nat → Nat
  | 0 => 0
  | n + 1 =>
    let (r, size) := decodeLastRune (s.take (n + 1))
    if r ≠ runeError ∨ 1 < size then n + 1 else backOff s n

def logBody (body : Text) (header : List (Text × List Text)) (o : Options) : Text :=
  if body = [] then []
  else if o.logBodyContentTypes.any (·.isPrefixOf (contentType header)) then
    if o.logBodyMaxLen ≤ 0 ∨ body.length ≤ o.logBodyMaxLen then body
    else body.take (backOff body o.logBodyMaxLen.toNat) ++ text "... [trimmed]"
  else text "[body redacted for Content-Type: " ++ contentType header ++ text "]"

end Code

section Cuts

variable {cs₁ cs₂ : List Char} {c : Char} {k : Nat}

theorem getD_encode (cs₁ cs₂ : List Char) (hk : k < (String.utf8EncodeChar c).length) :
    (encode (cs₁ ++ c :: cs₂)).getD ((encode cs₁).length + k) 0 =
      (String.utf8EncodeChar c).getD k 0 := by
  rw [encode_append, encode_cons, getD_append_right _ _ _ _ (Nat.le_add_right _ _),
    Nat.add_sub_cancel_left, getD_append _ _ _ _ hk]

theorem cutAt_encode (hk : k < (String.utf8EncodeChar c).length) :
    cutAt (encode (cs₁ ++ c :: cs₂)) ((encode cs₁).length + k) = (encode cs₁).length := by
  obtain ⟨b, conts, hc, hb, hconts, -⟩ := utf8EncodeChar_cases c
  have hstart : runeStart ((encode (cs₁ ++ c :: cs₂)).getD (encode cs₁).length 0) = true := by
    have hget := getD_encode cs₁ cs₂ (Nat.zero_lt_of_lt hk)
    rw [Nat.add_zero, hc, getD_cons_zero] at hget
    rw [hget, Errs.runeStart_iff]
    exact hb
  refine Nat.le_antisymm ?_ (Errs.le_cutAt (Nat.le_add_right _ _) hstart)
  by_contra hlt
  -- the cut would be at a byte that continues the character
  obtain ⟨i, hi⟩ := Nat.exists_eq_add_of_lt (not_le.mp hlt)
  have hle := Errs.cutAt_le (encode (cs₁ ++ c :: cs₂)) ((encode cs₁).length + k)
  rcases Errs.runeStart_cutAt (encode (cs₁ ++ c :: cs₂)) ((encode cs₁).length + k) with h0 | hrune
  · omega
  · have hik : i + 1 < (String.utf8EncodeChar c).length := by omega
    rw [hi, Nat.add_assoc, getD_encode cs₁ cs₂ hik, Errs.runeStart_iff, hc,
      getD_cons_succ] at hrune
    have hlen : i < conts.length := by simpa [hc] using hik
    rw [getD_eq_getElem _ _ hlen] at hrune
    exact hconts _ (getElem_mem hlen) hrune

theorem take_encode (cs₁ : List Char) (c : Char) (cs₂ : List Char) (k : Nat) :
    (encode (cs₁ ++ c :: cs₂)).take ((encode cs₁).length + k) =
      encode cs₁ ++ (String.utf8EncodeChar c ++ encode cs₂).take k := by
  rw [encode_append, encode_cons, take_append]
  simp

theorem backOff_encode (hk : k < (String.utf8EncodeChar c).length) :
    backOff (encode (cs₁ ++ c :: cs₂)) ((encode cs₁).length + k) = (encode cs₁).length := by
  induction k with
  | zero =>
    have htake := take_encode cs₁ c cs₂ 0
    rw [take_zero, append_nil] at htake
    rw [Nat.add_zero] at htake ⊢
    rcases eq_nil_or_concat cs₁ with rfl | ⟨cs, d, rfl⟩
    · rfl
    · rw [concat_eq_append] at htake ⊢
      have hcomplete := decodeLastRune_complete (encode cs) d
      rw [← encode_singleton, ← encode_append, ← htake] at hcomplete
      cases hn : (encode (cs ++ [d])).length with
      | zero => rfl
      | succ n =>
        rw [hn] at hcomplete
        rw [backOff]
        exact if_pos hcomplete
  | succ k ih =>
    have htake := take_encode cs₁ c cs₂ (k + 1)
    rw [take_append_of_le_length hk.le] at htake
    have hlen : ((String.utf8EncodeChar c).take (k + 1)).length = k + 1 :=
      length_take_of_le hk.le
    have hpartial := decodeLastRune_partial cs₁ ( take_prefix (k + 1) (String.utf8EncodeChar c))
      (ne_nil_of_length_eq_add_one hlen) (by rwa [hlen])
    rw [← Nat.add_assoc] at htake ⊢
    rw [backOff, htake, hpartial]
    simp only [ne_eq, not_true_eq_false, lt_self_iff_false, or_self, if_false]
    exact ih (Nat.lt_of_succ_lt hk)

end Cuts

section Bodies

variable {body : Text} {header : List (Text × List Text)} {o : Options} {n : Nat}

theorem text_eq_encode (str : String) : text str = encode str.toList := by
  rw [← Errs.text_ofList, String.ofList_toList]

/-- Both cuts of a text are the longest one. -/
theorem cuts_agree (str : String) (hlt : n < (text str).length) :
    (text str).take (backOff (text str) n) = truncateUTF8 (text str) n ∧
      LongestCut str.toList n (truncateUTF8 (text str) n) := by
  have hcut : truncateUTF8 (text str) n = (text str).take (cutAt (text str) n) :=
    if_neg (not_le.mpr hlt)
  rw [hcut]
  rw [text_eq_encode] at hlt ⊢
  obtain ⟨cs₁, c, cs₂, k, hcs, hk, rfl⟩ := exists_cut hlt
  have htake := take_encode cs₁ c cs₂ 0
  rw [Nat.add_zero, take_zero, append_nil] at htake
  rw [hcs, backOff_encode hk, cutAt_encode hk, htake]
  exact ⟨rfl, longestCut hk⟩

theorem logBody_trims (hlisted : ∃ w ∈ o.logBodyContentTypes, w <+: contentType header)
    (hn : 0 < n) (hlt : n < body.length) (ho : o.logBodyMaxLen = n) :
    logBody body header o = body.take (backOff body n) ++ text "... [trimmed]" := by
  have hne : body ≠ [] := ne_nil_of_length_pos (Nat.zero_lt_of_lt hlt)
  have hany : (o.logBodyContentTypes.any (·.isPrefixOf (contentType header))) = true := by
    obtain ⟨w, hw, hprefix⟩ := hlisted
    exact any_eq_true.mpr ⟨w, hw, isPrefixOf_iff_prefix.mpr hprefix⟩
  have hlong : ¬ (o.logBodyMaxLen ≤ 0 ∨ (body.length : Int) ≤ o.logBodyMaxLen) := by omega
  rw [logBody, if_neg hne, if_pos hany, if_neg hlong, ho, Int.toNat_natCast]

/-- `logBody` and `truncateUTF8` keep the same part of a text: the longest one that fits and ends
between two runes. -/
theorem logBody_truncates (str : String) (hn : 0 < n) (hlt : n < (text str).length)
    (ho : o.logBodyMaxLen = n)
    (hlisted : ∃ w ∈ o.logBodyContentTypes, w <+: contentType header) :
    logBody (text str) header o = truncateUTF8 (text str) n ++ text "... [trimmed]" ∧
      LongestCut str.toList n (truncateUTF8 (text str) n) := by
  obtain ⟨hsame, hlongest⟩ := cuts_agree str hlt
  rw [logBody_trims hlisted hn hlt ho, hsame]
  exact ⟨rfl, hlongest⟩

/-- A body with a literal replacement character, cut within the rune after it. -/
theorem replacement_truncates :
    logBody (text "a\uFFFDé") [] ⟨[text ""], 5⟩ = text "a\uFFFD" ++ text "... [trimmed]" := by
  have hlt : 5 < (text "a\uFFFDé").length := by decide +kernel
  have hkept : truncateUTF8 (text "a\uFFFDé") 5 = text "a\uFFFD" := by decide +kernel
  rw [← hkept]
  exact (logBody_truncates "a\uFFFDé" (by decide) hlt rfl
    ⟨text "", mem_singleton_self _, nil_prefix⟩).1

end Bodies

end Skit.Httplog
