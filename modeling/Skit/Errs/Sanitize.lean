import Mathlib.Data.List.TakeWhile

/-!
# Redaction of messages

A Go string is a list of bytes. `sanitize` replaces the values of secret keys, in `key=value` and
in JSON form, and cuts the result to 1024 bytes at the start of a rune.

The two regular expressions are matched without backtracking: no key is a prefix of another one,
and a run of `\S`, `\s` or `[^"]` ends at the byte that the rest of the expression asks for. Bytes
do as well as runes: the classes tell ASCII bytes only, and a letter that is not one (the long s,
the Kelvin sign) is known by its bytes.
-/
namespace Skit.Errs
open List

/-- The bytes of a Go string. -/
abbrev Text := List UInt8

def text (s : String) : Text := s.toByteArray.data.toList

/-- The string of bytes that are valid UTF-8. -/
def utf8 (t : Text) : Option String := String.fromUTF8? ⟨t.toArray⟩

theorem utf8_text (s : String) : utf8 (text s) = some s := by
  have hbytes : (⟨(text s).toArray⟩ : ByteArray) = s.toByteArray := rfl
  rw [utf8, hbytes, String.fromUTF8?, dif_pos s.isValidUTF8]
  rfl

section Patterns

def isWord (b : UInt8) : Bool :=
  (48 ≤ b && b ≤ 57) || (65 ≤ b && b ≤ 90) || b == 95 || (97 ≤ b && b ≤ 122)

/-- `\s`. -/
def isSpace (b : UInt8) : Bool := b == 9 || b == 10 || b == 12 || b == 13 || b == 32

/-- `\b` between the byte before and the text. -/
def boundary (before : Option UInt8) (s : Text) : Bool :=
  before.any isWord != s.head?.any isWord

/-- The spellings of a letter under `(?i)`. -/
def foldings (c : UInt8) : List Text :=
  if 97 ≤ c && c ≤ 122 then
    [[c], [c - 32]] ++
      (if c = 115 then [[0xC5, 0xBF]] else if c = 107 then [[0xE2, 0x84, 0xAA]] else [])
  else [[c]]

/-- A word at the start of the text: its spelling and what follows. -/
def matchWord : Text → Text → Option (Text × Text)
  | [], s => some ([], s)
  | c :: word, s =>
    match (foldings c).find? (·.isPrefixOf s) with
    | none => none
    | some a => (matchWord word (s.drop a.length)).map fun m => (a ++ m.1, m.2)

/-- `password|passwd|pwd|token|secret|authorization|api[-_]?key`. -/
def secretKeys : List String :=
  ["password", "passwd", "pwd", "token", "secret", "authorization", "api-key", "api_key", "apikey"]

def matchKey (s : Text) : Option (Text × Text) :=
  secretKeys.findSome? fun key => matchWord (text key) s

/-- A match: what is put in its place, its last byte and what follows it. -/
structure Match where
  replacement : Text
  last : UInt8
  rest : Text

/-- `secretKVRE`, with `$1=***`. -/
def secretKV (before : Option UInt8) (s : Text) : Option Match :=
  if boundary before s then
    match matchKey s with
    | some (key, 61 :: s) =>
      (s.takeWhile (!isSpace ·)).getLast?.map fun last =>
        ⟨key ++ text "=***", last, s.dropWhile (!isSpace ·)⟩
    | _ => none
  else none

/-- `secretJSONRE`, with `"$1":"***"`. -/
def secretJSON (_ : Option UInt8) (s : Text) : Option Match :=
  match s with
  | 34 :: s =>
    match matchKey s with
    | some (key, 34 :: s) =>
      match s.dropWhile isSpace with
      | 58 :: s =>
        match s.dropWhile isSpace with
        | 34 :: s =>
          match s.dropWhile (· != 34) with
          | 34 :: s => some ⟨34 :: key ++ text "\":\"***\"", 34, s⟩
          | _ => none
        | _ => none
      | _ => none
    | _ => none
  | _ => none

/-- `ReplaceAllString`: the matches from left to right. The number bounds the bytes to go. -/
def replaceAll (find : Option UInt8 → Text → Option Match) :
    Nat → Option UInt8 → Text → Text
  | 0, _, s => s
  | _, _, [] => []
  | n + 1, before, b :: s =>
    match find before (b :: s) with
    | some m => m.replacement ++ replaceAll find n (some m.last) m.rest
    | none => b :: replaceAll find n (some b) s

end Patterns

section Truncation

def maxMessageLen : Nat := 1024

/-- `utf8.RuneStart`. -/
def runeStart (b : UInt8) : Bool := b &&& 0xC0 != 0x80

/-- The loop of `truncateUTF8`. -/
def cutAt (s : Text) : Nat → Nat
  | 0 => 0
  | n + 1 => if runeStart (s.getD (n + 1) 0) then n + 1 else cutAt s n

def truncateUTF8 (s : Text) (maxLen : Nat) : Text :=
  if s.length ≤ maxLen then s else s.take (cutAt s maxLen)

end Truncation

def sanitize (msg : Text) : Text :=
  let msg := replaceAll secretKV msg.length none msg
  let msg := replaceAll secretJSON msg.length none msg
  if maxMessageLen < msg.length then truncateUTF8 msg maxMessageLen else msg

example : sanitize (text "connect failed token=abcdef123 host=db") =
    text "connect failed token=*** host=db" := by decide +kernel

section Plain

variable {m : Text × Text}

theorem matchWord_eq {word s : Text} (h : matchWord word s = some m) : s = m.1 ++ m.2 := by
  induction word generalizing s m with
  | nil =>
    cases h
    rfl
  | cons c word ih =>
    rw [matchWord] at h
    split at h
    · cases h
    · next a ha =>
      obtain ⟨m', hm', rfl⟩ := Option.map_eq_some_iff.mp h
      have hpre : a.isPrefixOf s = true := by simpa using find?_some ha
      obtain ⟨r, rfl⟩ := isPrefixOf_iff_prefix.mp hpre
      rw [append_assoc, ← ih hm', drop_left]

theorem matchKey_eq {s : Text} (h : matchKey s = some m) : s = m.1 ++ m.2 := by
  obtain ⟨key, -, hm⟩ := exists_of_findSome?_eq_some h
  exact matchWord_eq hm

theorem secretKV_none (before : Option UInt8) (s : Text) (h : 61 ∉ s) :
    secretKV before s = none := by
  unfold secretKV
  split
  · split
    · next key r hkey =>
      have hs := matchKey_eq hkey
      exact absurd (hs ▸ mem_append_right key mem_cons_self) h
    · rfl
  · rfl

theorem secretJSON_none (before : Option UInt8) (s : Text) (h : 34 ∉ s) :
    secretJSON before s = none := by
  unfold secretJSON
  split
  · exact absurd mem_cons_self h
  · rfl

theorem replaceAll_none {find : Option UInt8 → Text → Option Match} {b : UInt8}
    (hfind : ∀ before s, b ∉ s → find before s = none) {s : Text} (h : b ∉ s) (n : Nat)
    (before : Option UInt8) : replaceAll find n before s = s := by
  induction n generalizing before s with
  | zero => rw [replaceAll]
  | succ n ih =>
    cases s with
    | nil => rw [replaceAll]; exact Nat.succ_ne_zero n
    | cons a s =>
      rw [replaceAll, hfind before _ h]
      exact congrArg (a :: ·) (ih (fun hs => h (mem_cons_of_mem a hs)) (some a))

theorem sanitize_plain {t : Text} (heq : 61 ∉ t) (hquote : 34 ∉ t)
    (hlen : t.length ≤ maxMessageLen) : sanitize t = t := by
  have hkv := replaceAll_none secretKV_none heq t.length none
  have hjson := replaceAll_none secretJSON_none hquote t.length none
  simp only [sanitize, hkv, hjson, if_neg (Nat.not_lt.mpr hlen)]

end Plain

end Skit.Errs
