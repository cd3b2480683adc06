import Skit.Lib.Json
import Mathlib.Data.List.TakeWhile

/-!
# JSON texts

The texts of JSON trees as `encoding/json/jsontext` writes and reads them. A tree is written
without blanks. What is read may have blanks and any escapes; its names are distinct in each
object and it is nested to a given depth at most. A number is the literal it is written as.

What is read can be written, and what is written is read back as the same tree.
-/
namespace Skit.Lib.JsonText
open List

/-- A tree with the literals of its numbers. -/
abbrev Tree := Json (List Char)

section Strings

/-- A character in a string: quotes, backslashes and control characters are escaped. -/
def escape (c : Char) : List Char :=
  if c = '"' then ['\\', '"']
  else if c = '\\' then ['\\', '\\']
  else if c = '\x08' then ['\\', 'b']
  else if c = '\x0c' then ['\\', 'f']
  else if c = '\n' then ['\\', 'n']
  else if c = '\r' then ['\\', 'r']
  else if c = '\t' then ['\\', 't']
  else if c.toNat < 32 then
    ['\\', 'u', '0', '0', Nat.digitChar (c.toNat / 16), Nat.digitChar (c.toNat % 16)]
  else [c]

def quote (s : String) : List Char := '"' :: (s.toList.flatMap escape ++ ['"'])

def hexValue (c : Char) : Option Nat :=
  if '0' ≤ c ∧ c ≤ '9' then some (c.toNat - 48)
  else if 'a' ≤ c ∧ c ≤ 'f' then some (c.toNat - 87)
  else if 'A' ≤ c ∧ c ≤ 'F' then some (c.toNat - 55)
  else none

/-- Four hexadecimal digits. -/
def hex4 : List Char → Option Nat
  | a :: b :: c :: d :: _ => do
    let a ← hexValue a
    let b ← hexValue b
    let c ← hexValue c
    let d ← hexValue d
    some (((a * 16 + b) * 16 + c) * 16 + d)
  | _ => none

/-- What follows `\u`: the character and how much of the text it takes. A high surrogate needs a
low one after it. -/
def readUnicode (cs : List Char) : Option (Char × Nat) :=
  match hex4 cs with
  | none => none
  | some n =>
    if 0xD800 ≤ n ∧ n < 0xDC00 then
      if (cs.drop 4).take 2 = ['\\', 'u'] then
        match hex4 (cs.drop 6) with
        | none => none
        | some m =>
          if 0xDC00 ≤ m ∧ m < 0xE000 then
            some (Char.ofNat (0x10000 + (n - 0xD800) * 1024 + (m - 0xDC00)), 10)
          else none
      else none
    else if 0xDC00 ≤ n ∧ n < 0xE000 then none
    else some (Char.ofNat n, 4)

/-- What follows a backslash. -/
def readEscape : List Char → Option (Char × Nat)
  | [] => none
  | e :: rest =>
    if e = 'u' then (readUnicode rest).map fun r => (r.1, r.2 + 1)
    else if e = '"' ∨ e = '\\' ∨ e = '/' then some (e, 1)
    else if e = 'b' then some ('\x08', 1)
    else if e = 'f' then some ('\x0c', 1)
    else if e = 'n' then some ('\n', 1)
    else if e = 'r' then some ('\r', 1)
    else if e = 't' then some ('\t', 1)
    else none

/-- The characters of a string up to its closing quote, after the next `k` of the text. -/
def readFrom : Nat → List Char → Option (List Char × List Char)
  | _, [] => none
  | k + 1, _ :: rest => readFrom k rest
  | 0, c :: rest =>
    if c = '"' then some ([], rest)
    else if c = '\\' then
      match readEscape rest with
      | none => none
      | some (c, k) => (readFrom k rest).map fun r => (c :: r.1, r.2)
    else if c.toNat < 32 then none
    else (readFrom 0 rest).map fun r => (c :: r.1, r.2)

/-- A string after its opening quote. -/
def readString (cs : List Char) : Option (String × List Char) :=
  (readFrom 0 cs).map fun r => (String.ofList r.1, r.2)

theorem readFrom_drop (e rest : List Char) : readFrom e.length (e ++ rest) = readFrom 0 rest := by
  induction e with
  | nil => rfl
  | cons c e ih => exact ih

theorem readFrom_escaped {e rest : List Char} {c : Char}
    (h : readEscape (e ++ rest) = some (c, e.length)) :
    readFrom 0 ('\\' :: (e ++ rest)) = (readFrom 0 rest).map fun r => (c :: r.1, r.2) := by
  rw [readFrom, if_neg (by decide), if_pos rfl, h]
  dsimp only
  rw [readFrom_drop]

theorem hexValue_digitChar {n : Nat} (h : n < 16) : hexValue (Nat.digitChar n) = some n := by
  have hall : ∀ m : Fin 16, hexValue (Nat.digitChar m) = some m.val := by decide
  exact hall ⟨n, h⟩

/-- A control character is read back from its code. -/
theorem readEscape_control {c : Char} (h : c.toNat < 32) (rest : List Char) :
    readEscape ('u' :: '0' :: '0' :: Nat.digitChar (c.toNat / 16) ::
      Nat.digitChar (c.toNat % 16) :: rest) = some (c, 5) := by
  have hhex : hex4 ('0' :: '0' :: Nat.digitChar (c.toNat / 16) ::
      Nat.digitChar (c.toNat % 16) :: rest) = some c.toNat := by
    have h0 : hexValue '0' = some 0 := by decide
    have hval : ((0 * 16 + 0) * 16 + c.toNat / 16) * 16 + c.toNat % 16 = c.toNat := by omega
    simp only [hex4, h0, hexValue_digitChar (show c.toNat / 16 < 16 by omega),
      hexValue_digitChar (show c.toNat % 16 < 16 by omega), Option.bind_eq_bind,
      Option.bind_some, hval]
  rw [readEscape, if_pos rfl, readUnicode, hhex]
  dsimp only
  rw [if_neg (by omega), if_neg (by omega), Char.ofNat_toNat]
  rfl

theorem readFrom_escape (c : Char) (rest : List Char) :
    readFrom 0 (escape c ++ rest) = (readFrom 0 rest).map fun r => (c :: r.1, r.2) := by
  unfold escape
  split_ifs with h1 h2 h3 h4 h5 h6 h7 h8
  · subst h1
    exact readFrom_escaped (e := ['"']) rfl
  · subst h2
    exact readFrom_escaped (e := ['\\']) rfl
  · subst h3
    exact readFrom_escaped (e := ['b']) rfl
  · subst h4
    exact readFrom_escaped (e := ['f']) rfl
  · subst h5
    exact readFrom_escaped (e := ['n']) rfl
  · subst h6
    exact readFrom_escaped (e := ['r']) rfl
  · subst h7
    exact readFrom_escaped (e := ['t']) rfl
  · exact readFrom_escaped (e := ['u', '0', '0', _, _]) (readEscape_control h8 rest)
  · rw [singleton_append, readFrom, if_neg h1, if_neg h2, if_neg h8]

theorem readString_quote (s : String) (rest : List Char) :
    readString (s.toList.flatMap escape ++ '"' :: rest) = some (s, rest) := by
  have hread (cs : List Char) :
      readFrom 0 (cs.flatMap escape ++ '"' :: rest) = some (cs, rest) := by
    induction cs with
    | nil => rw [flatMap_nil, nil_append, readFrom, if_pos rfl]
    | cons c cs ih => rw [flatMap_cons, append_assoc, readFrom_escape, ih]; rfl
  rw [readString, hread, Option.map_some, String.ofList_toList]

end Strings

section Numbers

/-- One or more digits. -/
def readDigits : List Char → Option (List Char)
  | [] => none
  | c :: rest => if c.isDigit then some (rest.dropWhile Char.isDigit) else none

/-- A zero, or digits that do not start with one. -/
def readInteger : List Char → Option (List Char)
  | [] => none
  | c :: rest => if c = '0' then some rest else readDigits (c :: rest)

def readFraction : List Char → Option (List Char)
  | [] => some []
  | c :: rest => if c = '.' then readDigits rest else some (c :: rest)

def readExponent : List Char → Option (List Char)
  | [] => some []
  | c :: rest =>
    if c = 'e' ∨ c = 'E' then
      if rest.head? = some '+' ∨ rest.head? = some '-' then readDigits rest.tail
      else readDigits rest
    else some (c :: rest)

def isNumber (cs : List Char) : Bool :=
  let cs := if cs.head? = some '-' then cs.tail else cs
  ((readInteger cs).bind readFraction).bind readExponent == some []

def numberChar (c : Char) : Bool :=
  c.isDigit || c == '-' || c == '+' || c == '.' || c == 'e' || c == 'E'

/-- A literal as it is read: nothing that may follow a value is part of it. -/
structure Literal (n : List Char) : Prop where
  number : isNumber n = true
  chars : ∀ c ∈ n, numberChar c = true

theorem Literal.head {n : List Char} (h : Literal n) :
    ∃ c rest, n = c :: rest ∧ (c = '-' ∨ c.isDigit = true) := by
  cases n with
  | nil => cases h.number
  | cons c rest =>
    refine ⟨c, rest, rfl, ?_⟩
    by_cases hc : c = '-'
    · exact .inl hc
    · have hint : readInteger (c :: rest) ≠ none := by
        intro hnone
        have hnum := h.number
        rw [isNumber, head?_cons, if_neg (by simpa using hc), hnone] at hnum
        cases hnum
      rw [readInteger] at hint
      split_ifs at hint with h0
      · exact .inr (h0 ▸ rfl)
      · rw [readDigits] at hint
        split_ifs at hint with hd
        · exact .inr hd
        · exact absurd rfl hint

end Numbers

section Values

mutual

def print : Tree → List Char
  | .null => ['n', 'u', 'l', 'l']
  | .bool true => ['t', 'r', 'u', 'e']
  | .bool false => ['f', 'a', 'l', 's', 'e']
  | .num n => n
  | .str s => quote s
  | .arr items => '[' :: (printItems items ++ [']'])
  | .obj members => '{' :: (printMembers members ++ ['}'])

def printItems : List Tree → List Char
  | [] => []
  | [t] => print t
  | t :: u :: ts => print t ++ ',' :: printItems (u :: ts)

def printMembers : List (String × Tree) → List Char
  | [] => []
  | [(name, t)] => quote name ++ ':' :: print t
  | (name, t) :: m :: ms => quote name ++ ':' :: (print t ++ ',' :: printMembers (m :: ms))

end

def isBlank (c : Char) : Bool := c == ' ' || c == '\t' || c == '\n' || c == '\r'

def skipBlank (cs : List Char) : List Char := cs.dropWhile isBlank

def readWord (word : List Char) (t : Tree) (cs : List Char) : Option (Tree × List Char) :=
  if word.isPrefixOf cs then some (t, cs.drop word.length) else none

def readNumber (cs : List Char) : Option (Tree × List Char) :=
  if isNumber (cs.takeWhile numberChar) then
    some (.num (cs.takeWhile numberChar), cs.dropWhile numberChar)
  else none

def readScalar : List Char → Option (Tree × List Char)
  | [] => none
  | c :: rest =>
    if c = '"' then (readString rest).map fun r => (.str r.1, r.2)
    else if c = 'n' then readWord ['n', 'u', 'l', 'l'] .null (c :: rest)
    else if c = 't' then readWord ['t', 'r', 'u', 'e'] (.bool true) (c :: rest)
    else if c = 'f' then readWord ['f', 'a', 'l', 's', 'e'] (.bool false) (c :: rest)
    else readNumber (c :: rest)

variable {α : Type}

/-- One or more items with commas between them, up to `close`. The number bounds the items. -/
def readItems (item : List Char → Option (α × List Char)) (close : Char) :
    Nat → List Char → Option (List α × List Char)
  | 0, _ => none
  | n + 1, cs =>
    match item (skipBlank cs) with
    | none => none
    | some (a, cs) =>
      match skipBlank cs with
      | [] => none
      | c :: cs =>
        if c = ',' then (readItems item close n cs).map fun r => (a :: r.1, r.2)
        else if c = close then some ([a], cs)
        else none

/-- What follows an opening bracket. -/
def readEnclosed (item : List Char → Option (α × List Char)) (close : Char) (cs : List Char) :
    Option (List α × List Char) :=
  if (skipBlank cs).head? = some close then some ([], (skipBlank cs).tail)
  else readItems item close cs.length cs

/-- A name, a colon and a value. -/
def readMember (value : List Char → Option (α × List Char)) :
    List Char → Option ((String × α) × List Char)
  | [] => none
  | c :: cs =>
    if c = '"' then
      match readString cs with
      | none => none
      | some (name, cs) =>
        match skipBlank cs with
        | [] => none
        | c :: cs =>
          if c = ':' then (value (skipBlank cs)).map fun r => ((name, r.1), r.2) else none
    else none

/-- The members of an object, with distinct names. -/
def readObject (value : List Char → Option (α × List Char)) (cs : List Char) :
    Option (List (String × α) × List Char) :=
  match readEnclosed (readMember value) '}' cs with
  | none => none
  | some (members, cs) => if (members.map Prod.fst).Nodup then some (members, cs) else none

/-- A value, nested at most to the given depth. -/
def readValue : Nat → List Char → Option (Tree × List Char)
  | 0, cs => readScalar cs
  | depth + 1, cs =>
    if cs.head? = some '[' then
      (readEnclosed (readValue depth) ']' cs.tail).map fun r => (.arr r.1, r.2)
    else if cs.head? = some '{' then
      (readObject (readValue depth) cs.tail).map fun r => (.obj r.1, r.2)
    else readScalar cs

/-- A text with one value in it. -/
def parse (depth : Nat) (cs : List Char) : Option Tree :=
  match readValue depth (skipBlank cs) with
  | none => none
  | some (t, rest) => if skipBlank rest = [] then some t else none

end Values

section Sequences

variable {α : Type} {item : List Char → Option (α × List Char)} {render : α → List Char}
  {close : Char} {rest : List Char} {a : α} {as : List α}

/-- No number goes on into what follows. -/
def Stops (rest : List Char) : Prop := ∀ c ∈ rest.head?, numberChar c = false

/-- A closing bracket. -/
structure Closes (close : Char) : Prop where
  blank : isBlank close = false
  comma : close ≠ ','
  number : numberChar close = false

theorem closes_array : Closes ']' := ⟨by decide, by decide, by decide⟩

theorem closes_object : Closes '}' := ⟨by decide, by decide, by decide⟩

/-- What is rendered of `a` is read back. -/
structure ReadsBack (item : List Char → Option (α × List Char)) (render : α → List Char)
    (close : Char) (a : α) : Prop where
  starts : ∃ c cs, render a = c :: cs ∧ isBlank c = false ∧ c ≠ close
  back : ∀ rest, Stops rest → item (render a ++ rest) = some (a, rest)

def commas (render : α → List Char) : List α → List Char
  | [] => []
  | [a] => render a
  | a :: b :: as => render a ++ ',' :: commas render (b :: as)

theorem skipBlank_cons {c : Char} (hc : isBlank c = false) : skipBlank (c :: rest) = c :: rest := by
  rw [skipBlank, dropWhile_cons, hc]
  rfl

theorem stops_cons {c : Char} (hc : numberChar c = false) : Stops (c :: rest) := by
  intro d hd
  cases hd
  exact hc

theorem ReadsBack.skipBlank (h : ReadsBack item render close a) :
    skipBlank (render a ++ rest) = render a ++ rest := by
  obtain ⟨c, cs, heq, hblank, -⟩ := h.starts
  rw [heq]
  exact skipBlank_cons hblank

theorem readItems_commas (hclose : Closes close)
    (h : ∀ a ∈ as, ReadsBack item render close a) (hne : as ≠ []) {n : Nat} (hn : as.length ≤ n) :
    readItems item close n (commas render as ++ close :: rest) = some (as, rest) := by
  induction as generalizing n with
  | nil => exact absurd rfl hne
  | cons a as ih =>
    obtain ⟨ha, has⟩ := forall_mem_cons.mp h
    cases n with
    | zero => cases hn
    | succ n =>
      cases as with
      | nil =>
        rw [commas, readItems, ha.skipBlank, ha.back _ (stops_cons hclose.number)]
        dsimp only
        rw [skipBlank_cons hclose.blank]
        dsimp only
        rw [if_neg hclose.comma, if_pos rfl]
      | cons b as =>
        have hcomma : numberChar ',' = false := by decide
        rw [commas, readItems, append_assoc, cons_append, ha.skipBlank,
          ha.back _ (stops_cons hcomma)]
        dsimp only
        rw [skipBlank_cons (by decide)]
        dsimp only
        rw [if_pos rfl, ih has (cons_ne_nil b as) (Nat.le_of_succ_le_succ hn)]
        rfl

theorem length_le_commas (h : ∀ a ∈ as, ReadsBack item render close a) :
    as.length ≤ (commas render as).length := by
  induction as with
  | nil => exact Nat.zero_le _
  | cons a as ih =>
    obtain ⟨ha, has⟩ := forall_mem_cons.mp h
    obtain ⟨c, cs, heq, -, -⟩ := ha.starts
    cases as with
    | nil => simp [commas, heq]
    | cons b as =>
      have hle := ih has
      rw [commas, length_append, heq]
      simp only [length_cons] at hle ⊢
      omega

theorem readEnclosed_commas (hclose : Closes close)
    (h : ∀ a ∈ as, ReadsBack item render close a) :
    readEnclosed item close (commas render as ++ close :: rest) = some (as, rest) := by
  cases as with
  | nil =>
    rw [commas, nil_append, readEnclosed, skipBlank_cons hclose.blank,
      head?_cons, if_pos rfl]
    rfl
  | cons a as =>
    have hhead : ∃ c cs, commas render (a :: as) ++ close :: rest = c :: cs ∧ isBlank c = false ∧
        c ≠ close := by
      obtain ⟨c, cs, heq, hblank, hne⟩ := (h a mem_cons_self).starts
      cases as with
      | nil => exact ⟨c, cs ++ close :: rest, by rw [commas, heq]; rfl, hblank, hne⟩
      | cons b as => exact ⟨c, _, by rw [commas, heq]; rfl, hblank, hne⟩
    have hlen : (a :: as).length ≤ (commas render (a :: as) ++ close :: rest).length := by
      have hle := length_le_commas h
      rw [length_append]
      omega
    have hread : readItems item close _ (commas render (a :: as) ++ close :: rest) =
        some (a :: as, rest) := readItems_commas hclose h (cons_ne_nil a as) hlen
    obtain ⟨c, cs, heq, hblank, hne⟩ := hhead
    rw [readEnclosed, hread, heq, skipBlank_cons hblank, if_neg]
    simpa using hne

end Sequences

section Written

variable {t : Tree} {rest n : List Char} {depth : Nat}

/-- A tree that can be written. -/
structure Printable (t : Tree) : Prop where
  literals : ∀ n ∈ t.numbers, Literal n
  distinct : t.distinct = true

def printMember (m : String × Tree) : List Char := quote m.1 ++ ':' :: print m.2

theorem printItems_eq (items : List Tree) : printItems items = commas print items := by
  induction items with
  | nil => rfl
  | cons t items ih =>
    cases items with
    | nil => rfl
    | cons u items => rw [printItems, commas, ih]

theorem printMembers_eq (members : List (String × Tree)) :
    printMembers members = commas printMember members := by
  induction members with
  | nil => rfl
  | cons m members ih =>
    cases members with
    | nil => rfl
    | cons m' members =>
      rw [printMembers, commas, ih, printMember]
      simp

theorem Printable.items {items : List Tree} (h : Printable (.arr items)) :
    ∀ t ∈ items, Printable t := by
  intro t ht
  refine ⟨fun n hn => h.literals n (Json.mem_numbersItems.mpr ⟨t, ht, hn⟩), ?_⟩
  have hdistinct : Json.distinctItems items = true := h.distinct
  exact Json.distinctItems_iff.mp hdistinct t ht

theorem Printable.names {members : List (String × Tree)} (h : Printable (.obj members)) :
    (members.map Prod.fst).Nodup := (Json.distinct_obj_iff.mp h.distinct).1

theorem Printable.members {members : List (String × Tree)} (h : Printable (.obj members)) :
    ∀ m ∈ members, Printable m.2 := by
  intro m hm
  refine ⟨fun n hn => h.literals n (Json.mem_numbersMembers.mpr ⟨m, hm, hn⟩), ?_⟩
  exact (Json.distinct_obj_iff.mp h.distinct).2 m hm

theorem printable_obj {members : List (String × Tree)} (hnames : (members.map Prod.fst).Nodup)
    (h : ∀ m ∈ members, Printable m.2) : Printable (.obj members) := by
  refine ⟨fun n hn => ?_, Json.distinct_obj_iff.mpr ⟨hnames, fun m hm => (h m hm).distinct⟩⟩
  obtain ⟨m, hm, hmem⟩ := Json.mem_numbersMembers.mp hn
  exact (h m hm).literals n hmem

theorem ne_of_start {c d : Char} (hc : c = '-' ∨ c.isDigit = true) (hd : d ≠ '-')
    (hdigit : d.isDigit = false) : c ≠ d := by
  rintro rfl
  rcases hc with hc | hc
  · exact hd hc
  · rw [hdigit] at hc
    cases hc

/-- A value starts with a character that is no blank and closes nothing. -/
theorem Printable.starts (h : Printable t) :
    ∃ c cs, print t = c :: cs ∧ isBlank c = false ∧ c ≠ ']' := by
  cases t with
  | null => exact ⟨'n', _, rfl, by decide, by decide⟩
  | bool b => cases b <;> exact ⟨_, _, rfl, by decide, by decide⟩
  | num n =>
    have hn : Literal n := h.literals n (by simp [Json.numbers])
    obtain ⟨c, cs, rfl, hc⟩ := hn.head
    refine ⟨c, cs, rfl, ?_, ne_of_start hc (by decide) (by decide)⟩
    have hne (d : Char) (hd : d ≠ '-') (hdigit : d.isDigit = false) : (c == d) = false := by
      simpa using ne_of_start hc hd hdigit
    rw [isBlank, hne ' ' (by decide) (by decide), hne '\t' (by decide) (by decide),
      hne '\n' (by decide) (by decide), hne '\r' (by decide) (by decide)]
    rfl
  | str s => exact ⟨'"', _, rfl, by decide, by decide⟩
  | arr items => exact ⟨'[', _, rfl, by decide, by decide⟩
  | obj members => exact ⟨'{', _, rfl, by decide, by decide⟩

theorem Printable.text (h : Printable t) : ∃ c cs, print t = c :: cs ∧ isBlank c = false := by
  obtain ⟨c, cs, heq, hblank, -⟩ := h.starts
  exact ⟨c, cs, heq, hblank⟩

theorem Literal.readNumber (h : Literal n) (hrest : Stops rest) :
    readNumber (n ++ rest) = some (.num n, rest) := by
  have htake : rest.takeWhile numberChar = [] ∧ rest.dropWhile numberChar = rest := by
    cases rest with
    | nil => exact ⟨rfl, rfl⟩
    | cons c rest =>
      rw [takeWhile_cons, dropWhile_cons, hrest c rfl]
      exact ⟨rfl, rfl⟩
  rw [JsonText.readNumber, takeWhile_append_of_pos h.chars,
    dropWhile_append_of_pos h.chars, htake.1, htake.2, append_nil, if_pos h.number]

theorem Literal.readScalar (h : Literal n) (hrest : Stops rest) :
    readScalar (n ++ rest) = some (.num n, rest) := by
  have hread := h.readNumber hrest
  obtain ⟨c, cs, rfl, hc⟩ := h.head
  rw [cons_append] at hread ⊢
  rw [JsonText.readScalar, if_neg (ne_of_start hc (by decide) (by decide)),
    if_neg (ne_of_start hc (by decide) (by decide)),
    if_neg (ne_of_start hc (by decide) (by decide)),
    if_neg (ne_of_start hc (by decide) (by decide)), hread]

/-- Away from brackets a value is a scalar. -/
theorem readValue_scalar {c : Char} (hc : c ≠ '[') (hc' : c ≠ '{') :
    readValue depth (c :: rest) = readScalar (c :: rest) := by
  cases depth with
  | zero => rw [readValue]
  | succ depth =>
    rw [readValue, head?_cons, if_neg (by simpa using hc), if_neg (by simpa using hc')]

theorem readMember_quote {α : Type} {value : List Char → Option (α × List Char)} {name : String}
    {body : List Char} {a : α} (hstarts : ∃ c cs, body = c :: cs ∧ isBlank c = false)
    (hvalue : value (body ++ rest) = some (a, rest)) :
    readMember value (quote name ++ ':' :: body ++ rest) = some ((name, a), rest) := by
  have htext : quote name ++ ':' :: body ++ rest =
      '"' :: (name.toList.flatMap escape ++ '"' :: ':' :: (body ++ rest)) := by
    simp [quote]
  have hskip : skipBlank (body ++ rest) = body ++ rest := by
    obtain ⟨c, cs, rfl, hblank⟩ := hstarts
    exact skipBlank_cons hblank
  rw [htext, readMember, if_pos rfl, readString_quote]
  dsimp only
  rw [skipBlank_cons (by decide)]
  dsimp only
  rw [if_pos rfl, hskip, hvalue]
  rfl

/-- What is written is read back. -/
theorem readValue_print (h : Printable t) (hd : t.depth ≤ depth) (hrest : Stops rest) :
    readValue depth (print t ++ rest) = some (t, rest) := by
  induction t using Json.ind generalizing depth rest with
  | null => exact readValue_scalar (by decide) (by decide)
  | bool b =>
    cases b
    · exact readValue_scalar (by decide) (by decide)
    · exact readValue_scalar (by decide) (by decide)
  | num n =>
    have hn : Literal n := h.literals n (by simp [Json.numbers])
    have hread := hn.readScalar hrest
    obtain ⟨c, cs, rfl, hc⟩ := hn.head
    rw [print, cons_append, readValue_scalar (ne_of_start hc (by decide) (by decide))
      (ne_of_start hc (by decide) (by decide))]
    exact hread
  | str s =>
    have htext : print (.str s) ++ rest = '"' :: (s.toList.flatMap escape ++ '"' :: rest) := by
      simp [print, quote]
    rw [htext, readValue_scalar (by decide) (by decide), readScalar, if_pos rfl, readString_quote]
    rfl
  | arr items ih =>
    cases depth with
    | zero => cases hd
    | succ depth =>
      have hitems := Json.depthItems_le_iff.mp (Nat.le_of_succ_le_succ hd)
      have hread : readEnclosed (readValue depth) ']' (commas print items ++ ']' :: rest) =
          some (items, rest) :=
        readEnclosed_commas closes_array fun t ht =>
          ⟨(h.items t ht).starts, fun rest hrest => ih t ht (h.items t ht) (hitems t ht) hrest⟩
      rw [print, printItems_eq, cons_append, readValue, head?_cons, if_pos rfl,
        tail_cons, append_assoc, singleton_append, hread]
      rfl
  | obj members ih =>
    cases depth with
    | zero => cases hd
    | succ depth =>
      have hmembers := Json.depthMembers_le_iff.mp (Nat.le_of_succ_le_succ hd)
      have hread : readEnclosed (readMember (readValue depth)) '}'
          (commas printMember members ++ '}' :: rest) = some (members, rest) :=
        readEnclosed_commas closes_object fun m hm =>
          ⟨⟨'"', _, rfl, by decide, by decide⟩, fun rest hrest =>
            readMember_quote (h.members m hm).text
              (ih m hm (h.members m hm) (hmembers m hm) hrest)⟩
      rw [print, printMembers_eq, cons_append, readValue, head?_cons,
        if_neg (by decide), if_pos rfl, tail_cons, append_assoc, singleton_append,
        readObject, hread]
      dsimp only
      rw [if_pos h.names]
      rfl

theorem parse_print (h : Printable t) (hd : t.depth ≤ depth) :
    parse depth (print t) = some t := by
  obtain ⟨c, cs, heq, hblank, -⟩ := h.starts
  have hread : readValue depth (print t ++ []) = some (t, []) := readValue_print h hd nofun
  rw [append_nil] at hread
  have hskip : skipBlank (print t) = print t := by
    rw [heq]
    exact skipBlank_cons hblank
  rw [parse, hskip, hread]
  rfl

/-- A value with its text. -/
def readRaw (depth : Nat) (cs : List Char) : Option ((Tree × List Char) × List Char) :=
  (readValue depth cs).map fun r => ((r.1, cs.take (cs.length - r.2.length)), r.2)

/-- The members of a text with one object in it, with their texts. -/
def parseObject (depth : Nat) (cs : List Char) : Option (List (String × (Tree × List Char))) :=
  match skipBlank cs with
  | [] => none
  | c :: cs =>
    if c = '{' then
      match readObject (readRaw depth) cs with
      | none => none
      | some (members, rest) => if skipBlank rest = [] then some members else none
    else none

theorem readRaw_print (h : Printable t) (hd : t.depth ≤ depth) (hrest : Stops rest) :
    readRaw depth (print t ++ rest) = some ((t, print t), rest) := by
  rw [readRaw, readValue_print h hd hrest, Option.map_some, length_append,
    Nat.add_sub_cancel, take_left]

theorem parseObject_print {members : List (String × Tree)} (h : Printable (.obj members))
    (hd : ∀ m ∈ members, m.2.depth ≤ depth) :
    parseObject depth (print (.obj members)) =
      some (members.map fun m => (m.1, (m.2, print m.2))) := by
  have hnames : ((members.map fun m => (m.1, (m.2, print m.2))).map Prod.fst).Nodup := by
    rw [map_map]
    exact h.names
  have hcommas : printMembers members = commas (fun m => quote m.1 ++ ':' :: m.2.2)
      (members.map fun m => (m.1, (m.2, print m.2))) := by
    rw [printMembers_eq]
    clear h hd hnames
    induction members with
    | nil => rfl
    | cons m members ih =>
      cases members with
      | nil => rfl
      | cons m' members =>
        rw [commas, ih]
        rfl
  have hread : readEnclosed (readMember (readRaw depth)) '}' (commas (fun m => quote m.1 ++
      ':' :: m.2.2) (members.map fun m => (m.1, (m.2, print m.2))) ++ ['}']) =
      some (members.map fun m => (m.1, (m.2, print m.2)), []) := by
    refine readEnclosed_commas closes_object fun m hm => ?_
    obtain ⟨m, hmem, rfl⟩ := mem_map.mp hm
    refine ⟨⟨'"', _, rfl, by decide, by decide⟩, fun rest hrest => ?_⟩
    exact readMember_quote (h.members m hmem).text
      (readRaw_print (h.members m hmem) (hd m hmem) hrest)
  rw [parseObject, print, skipBlank_cons (by decide)]
  dsimp only
  rw [if_pos rfl, readObject, hcommas, hread]
  dsimp only
  rw [if_pos hnames]
  rfl

end Written

section Read

variable {α : Type} {item value : List Char → Option (α × List Char)} {close : Char} {P : α → Prop}
  {cs rest : List Char} {as : List α} {t : Tree}

theorem readItems_forall (hitem : ∀ cs a rest, item cs = some (a, rest) → P a) {n : Nat}
    (h : readItems item close n cs = some (as, rest)) : ∀ a ∈ as, P a := by
  induction n generalizing cs as rest with
  | zero => cases h
  | succ n ih =>
    rw [readItems] at h
    split at h
    · cases h
    · next a cs₁ ha =>
      have hP := hitem _ _ _ ha
      split at h
      · cases h
      · split_ifs at h
        · obtain ⟨⟨as', rest'⟩, hrest, heq⟩ := Option.map_eq_some_iff.mp h
          cases heq
          exact forall_mem_cons.mpr ⟨hP, ih hrest⟩
        · cases h
          simpa using hP

theorem readEnclosed_forall (hitem : ∀ cs a rest, item cs = some (a, rest) → P a)
    (h : readEnclosed item close cs = some (as, rest)) : ∀ a ∈ as, P a := by
  rw [readEnclosed] at h
  split_ifs at h
  · cases h
    exact nofun
  · exact readItems_forall hitem h

theorem readMember_value {m : String × α} (h : readMember value cs = some (m, rest)) :
    ∃ cs', value cs' = some (m.2, rest) := by
  cases cs with
  | nil => cases h
  | cons c cs =>
    rw [readMember] at h
    split_ifs at h
    split at h
    · cases h
    · split at h
      · cases h
      · split_ifs at h
        obtain ⟨⟨a, rest'⟩, hvalue, heq⟩ := Option.map_eq_some_iff.mp h
        cases heq
        exact ⟨_, hvalue⟩

theorem readObject_forall {members : List (String × α)}
    (hvalue : ∀ cs a rest, value cs = some (a, rest) → P a)
    (h : readObject value cs = some (members, rest)) :
    (members.map Prod.fst).Nodup ∧ ∀ m ∈ members, P m.2 := by
  rw [readObject] at h
  split at h
  · cases h
  · next members' rest' hmembers =>
    split_ifs at h with hnames
    cases h
    refine ⟨hnames, readEnclosed_forall (P := fun m => P m.2) (fun cs m rest hm => ?_) hmembers⟩
    obtain ⟨cs', hcs'⟩ := readMember_value hm
    exact hvalue _ _ _ hcs'

theorem readScalar_printable (h : readScalar cs = some (t, rest)) : Printable t ∧ t.depth = 0 := by
  have hword {word : List Char} {u : Tree} {cs : List Char} (hu : Printable u ∧ u.depth = 0)
      (h : readWord word u cs = some (t, rest)) : Printable t ∧ t.depth = 0 := by
    rw [readWord] at h
    split_ifs at h
    cases h
    exact hu
  cases cs with
  | nil => cases h
  | cons c cs =>
    rw [readScalar] at h
    split_ifs at h
    · obtain ⟨⟨s, rest'⟩, -, heq⟩ := Option.map_eq_some_iff.mp h
      cases heq
      exact ⟨⟨nofun, rfl⟩, rfl⟩
    · exact hword (u := .null) ⟨⟨nofun, rfl⟩, rfl⟩ h
    · exact hword (u := .bool true) ⟨⟨nofun, rfl⟩, rfl⟩ h
    · exact hword (u := .bool false) ⟨⟨nofun, rfl⟩, rfl⟩ h
    · rw [readNumber] at h
      split_ifs at h with hnum
      cases h
      refine ⟨⟨fun n hn => ?_, rfl⟩, rfl⟩
      obtain rfl : n = _ := mem_singleton.mp hn
      exact ⟨hnum, fun c hc => mem_takeWhile_imp hc⟩

/-- What is read can be written. -/
theorem readValue_printable {depth : Nat} (h : readValue depth cs = some (t, rest)) :
    Printable t ∧ t.depth ≤ depth := by
  induction depth generalizing cs t rest with
  | zero =>
    rw [readValue] at h
    obtain ⟨ht, hd⟩ := readScalar_printable h
    exact ⟨ht, hd.le⟩
  | succ depth ih =>
    rw [readValue] at h
    split_ifs at h
    · obtain ⟨⟨items, rest'⟩, hitems, heq⟩ := Option.map_eq_some_iff.mp h
      cases heq
      have hall := readEnclosed_forall (fun _ _ _ => ih) hitems
      refine ⟨⟨fun n hn => ?_, Json.distinctItems_iff.mpr fun t ht => (hall t ht).1.distinct⟩,
        Nat.succ_le_succ (Json.depthItems_le_iff.mpr fun t ht => (hall t ht).2)⟩
      obtain ⟨t, ht, hmem⟩ := Json.mem_numbersItems.mp hn
      exact (hall t ht).1.literals n hmem
    · obtain ⟨⟨members, rest'⟩, hmembers, heq⟩ := Option.map_eq_some_iff.mp h
      cases heq
      obtain ⟨hnames, hall⟩ := readObject_forall (fun _ _ _ => ih) hmembers
      exact ⟨printable_obj hnames fun m hm => (hall m hm).1,
        Nat.succ_le_succ (Json.depthMembers_le_iff.mpr fun m hm => (hall m hm).2)⟩
    · obtain ⟨ht, hd⟩ := readScalar_printable h
      exact ⟨ht, hd ▸ Nat.zero_le _⟩

theorem parse_printable {depth : Nat} (h : parse depth cs = some t) :
    Printable t ∧ t.depth ≤ depth := by
  rw [parse] at h
  split at h
  · cases h
  · next t' rest hread =>
    split_ifs at h
    cases h
    exact readValue_printable hread

end Read

end Skit.Lib.JsonText
