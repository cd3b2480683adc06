import Skit.Scaffold.Names

/-!
# Spellings of a name

A name may be spelled in kebab, snake, camel or Pascal case. `splitWords` cuts it at separators and
before a capital that follows a small letter or a digit, so all four give the same words.
-/
namespace Skit.Scaffold
open List

section Spec

/-- A word of two or more small letters and digits that starts with a letter. -/
structure Plain (w : List Char) : Prop where
  two : 2 ≤ w.length
  first : ∀ c ∈ w.head?, c.isLower = true
  chars : ∀ c ∈ w, c.isLower = true ∨ c.isDigit = true

theorem plain_iff {w : List Char} : Plain w ↔ (decide (2 ≤ w.length) &&
    w.head?.all Char.isLower && w.all fun c => c.isLower || c.isDigit) = true := by
  simp only [Bool.and_eq_true, decide_eq_true_eq, Option.all_eq_true, all_eq_true,
    Bool.or_eq_true]
  exact ⟨fun h => ⟨⟨h.two, h.first⟩, h.chars⟩, fun h => ⟨h.1.1, h.1.2, h.2⟩⟩

instance (w : List Char) : Decidable (Plain w) := decidable_of_iff _ plain_iff.symm

/-- The word with a capital. -/
def title : List Char → List Char
  | [] => []
  | c :: w => c.toUpper :: w

inductive Spelling
  | kebab
  | snake
  | camel
  | pascal

def Spelling.spell : Spelling → List (List Char) → List Char
  | .kebab, words => List.intercalate ['-'] words
  | .snake, words => List.intercalate ['_'] words
  | .camel, [] => []
  | .camel, w :: words => w ++ words.flatMap title
  | .pascal, words => words.flatMap title

def lowered (words : List (List Char)) : List (List Char) := words.map (·.map Char.toLower)

/-- The words are the same up to the case of their letters. -/
def SameWords (words words' : List (List Char)) : Prop := lowered words = lowered words'

end Spec

section Steps

variable {prev : Option Char} {cur s w : List Char} {p r : Char}

theorem splitFrom_append (hsep : ∀ c ∈ w, isSeparator c = false)
    (hup : ∀ c ∈ w, c.isUpper = false) :
    splitFrom prev cur (w ++ s) = splitFrom (w.getLast?.or prev) (cur ++ w) s := by
  induction w generalizing prev cur with
  | nil => simp
  | cons r w ih =>
    obtain ⟨hr, hsep⟩ := forall_mem_cons.mp hsep
    obtain ⟨hr', hup⟩ := forall_mem_cons.mp hup
    have hlast : (r :: w).getLast?.or prev = w.getLast?.or (some r) := by
      rw [getLast?_cons]
      cases w.getLast? <;> rfl
    rw [cons_append, splitFrom, hr, hr', if_neg Bool.false_ne_true, Bool.false_and,
      if_neg Bool.false_ne_true, ih hsep hup, hlast, append_assoc, singleton_append]

theorem splitFrom_separator (hr : isSeparator r = true) (hcur : cur ≠ []) :
    splitFrom prev cur (r :: s) = cur :: splitFrom (some r) [] s := by
  rw [splitFrom, if_pos hr, flush, if_neg hcur]

theorem splitFrom_capital (hsep : isSeparator r = false) (hup : r.isUpper = true)
    (hp : p.isLower = true ∨ p.isDigit = true) (hcur : cur ≠ []) :
    splitFrom (some p) cur (r :: s) = cur :: splitFrom (some r) [r] s := by
  have hcut : (r.isUpper && (some p).any fun p => p.isLower || p.isDigit) = true := by
    simpa [hup] using hp
  rw [splitFrom, hsep, if_neg Bool.false_ne_true, if_pos hcut, flush, if_neg hcur]

end Steps

section Plain

variable {w : List Char} {c : Char}

theorem capital (h : c.isLower = true) : isSeparator c.toUpper = false ∧
    c.toUpper.isUpper = true ∧ c.toUpper.toLower = c ∧ c.toUpper.isAlphanum = true := by
  have hall : ∀ n < 128, let c := Char.ofNat n
      c.isLower = true → isSeparator c.toUpper = false ∧ c.toUpper.isUpper = true ∧
        c.toUpper.toLower = c ∧ c.toUpper.isAlphanum = true := by
    decide
  have hlt := isAlphanum_lt (isAlphanum_of_quiet (.inl h))
  exact Char.ofNat_toNat c ▸ hall c.toNat hlt (by rwa [Char.ofNat_toNat])

theorem Plain.exists_cons (h : Plain w) : ∃ c v, w = c :: v ∧ v ≠ [] ∧ c.isLower = true ∧
    ∀ d ∈ v, d.isLower = true ∨ d.isDigit = true := by
  obtain ⟨htwo, hfirst, hchars⟩ := h
  cases w with
  | nil => cases htwo
  | cons c v =>
    refine ⟨c, v, rfl, ?_, hfirst c rfl, fun d hd => hchars d (mem_cons_of_mem c hd)⟩
    rintro rfl
    exact absurd htwo (by simp)

theorem Plain.ne_nil (h : Plain w) : w ≠ [] := by
  obtain ⟨c, v, rfl, -⟩ := h.exists_cons
  exact cons_ne_nil c v

theorem map_toLower_of_quiet (h : ∀ c ∈ w, c.isLower = true ∨ c.isDigit = true) :
    w.map Char.toLower = w :=
  (map_congr_left fun c hc => (quiet (h c hc)).2.2).trans (map_id w)

theorem Plain.lowered_title (h : Plain w) : (title w).map Char.toLower = w := by
  obtain ⟨c, v, rfl, -, hc, hv⟩ := h.exists_cons
  rw [title, map_cons, (capital hc).2.2.1, map_toLower_of_quiet hv]

theorem Plain.isAlphanum (h : Plain w) : ∀ c ∈ w, c.isAlphanum = true :=
  fun c hc => isAlphanum_of_quiet (h.chars c hc)

theorem Plain.isAlphanum_title (h : Plain w) : ∀ c ∈ title w, c.isAlphanum = true := by
  obtain ⟨c, v, rfl, -, hc, hv⟩ := h.exists_cons
  exact forall_mem_cons.mpr ⟨(capital hc).2.2.2, fun d hd => isAlphanum_of_quiet (hv d hd)⟩

end Plain

/-- The words that `splitWords` finds in a spelling. -/
def Spelling.found : Spelling → List (List Char) → List (List Char)
  | .kebab, words => words
  | .snake, words => words
  | .camel, [] => []
  | .camel, w :: words => w :: words.map title
  | .pascal, words => words.map title

section Splits

variable {words : List (List Char)} {prev : Option Char} {cur s w : List Char} {p c : Char}

theorem splitFrom_quiet (prev : Option Char) (cur s : List Char) (hne : w ≠ [])
    (h : ∀ c ∈ w, c.isLower = true ∨ c.isDigit = true) :
    ∃ p, (p.isLower = true ∨ p.isDigit = true) ∧
      splitFrom prev cur (w ++ s) = splitFrom (some p) (cur ++ w) s := by
  refine ⟨w.getLast hne, h _ (getLast_mem hne), ?_⟩
  rw [splitFrom_append (fun c hc => (quiet (h c hc)).1) (fun c hc => (quiet (h c hc)).2.1),
    getLast?_eq_getLast_of_ne_nil hne, Option.some_or]

theorem splitFrom_intercalate {r : Char} (hr : isSeparator r = true)
    (h : ∀ w ∈ words, Plain w) : splitFrom prev [] (List.intercalate [r] words) = words := by
  induction words generalizing prev with
  | nil => rfl
  | cons w words ih =>
    obtain ⟨hw, hrest⟩ := forall_mem_cons.mp h
    cases words with
    | nil =>
      obtain ⟨p, -, heq⟩ := splitFrom_quiet prev [] [] hw.ne_nil hw.chars
      rw [append_nil, nil_append] at heq
      rw [intercalate_singleton, heq, splitFrom, flush, if_neg hw.ne_nil]
    | cons v words =>
      obtain ⟨p, -, heq⟩ := splitFrom_quiet prev [] (r :: List.intercalate [r] (v :: words))
        hw.ne_nil hw.chars
      rw [intercalate_cons_cons, append_assoc, singleton_append, heq,
        nil_append, splitFrom_separator hr hw.ne_nil, ih hrest]

theorem splitFrom_titles (hp : p.isLower = true ∨ p.isDigit = true) (hcur : cur ≠ [])
    (h : ∀ w ∈ words, Plain w) :
    splitFrom (some p) cur (words.flatMap title) = cur :: words.map title := by
  induction words generalizing p cur with
  | nil => rw [flatMap_nil, splitFrom, flush, if_neg hcur, map_nil]
  | cons w words ih =>
    obtain ⟨hw, hrest⟩ := forall_mem_cons.mp h
    obtain ⟨c, v, rfl, hv, hc, hchars⟩ := hw.exists_cons
    obtain ⟨hsep, hup, -⟩ := capital hc
    obtain ⟨q, hq, heq⟩ := splitFrom_quiet (some c.toUpper) [c.toUpper]
      (words.flatMap title) hv hchars
    rw [flatMap_cons, title, cons_append, splitFrom_capital hsep hup hp hcur, heq,
      singleton_append, ih hq (cons_ne_nil _ _) hrest]
    rfl

theorem splitWords_spell (s : Spelling) (h : ∀ w ∈ words, Plain w) :
    splitWords (s.spell words) = s.found words := by
  unfold splitWords
  cases s with
  | kebab => exact splitFrom_intercalate rfl h
  | snake => exact splitFrom_intercalate rfl h
  | camel =>
    cases words with
    | nil => rfl
    | cons w words =>
      obtain ⟨hw, hrest⟩ := forall_mem_cons.mp h
      obtain ⟨p, hp, heq⟩ := splitFrom_quiet none [] (words.flatMap title) hw.ne_nil
        hw.chars
      rw [Spelling.spell, heq, nil_append, splitFrom_titles hp hw.ne_nil hrest]
      rfl
  | pascal =>
    cases words with
    | nil => rfl
    | cons w words =>
      obtain ⟨hw, hrest⟩ := forall_mem_cons.mp h
      obtain ⟨c, v, rfl, hv, hc, hchars⟩ := hw.exists_cons
      obtain ⟨hsep, hup, -⟩ := capital hc
      obtain ⟨q, hq, heq⟩ := splitFrom_quiet (some c.toUpper) [c.toUpper]
        (words.flatMap title) hv hchars
      -- nothing is before the first capital
      have hfirst : splitFrom none [] (c.toUpper :: (v ++ words.flatMap title)) =
          splitFrom (some c.toUpper) [c.toUpper] (v ++ words.flatMap title) := by
        simp [splitFrom, hsep]
      rw [Spelling.spell, flatMap_cons, title, cons_append, hfirst, heq,
        singleton_append, splitFrom_titles hq (cons_ne_nil _ _) hrest]
      rfl

theorem Spelling.mem_found {s : Spelling} (hw : w ∈ s.found words) :
    ∃ v ∈ words, w = v ∨ w = title v := by
  cases s with
  | kebab => exact ⟨w, hw, .inl rfl⟩
  | snake => exact ⟨w, hw, .inl rfl⟩
  | camel =>
    cases words with
    | nil => cases hw
    | cons v words =>
      rcases mem_cons.mp hw with rfl | hw
      · exact ⟨w, mem_cons_self, .inl rfl⟩
      · obtain ⟨u, hu, rfl⟩ := mem_map.mp hw
        exact ⟨u, mem_cons_of_mem v hu, .inr rfl⟩
  | pascal =>
    obtain ⟨v, hv, rfl⟩ := mem_map.mp hw
    exact ⟨v, hv, .inr rfl⟩

end Splits

section Names

variable {words : List (List Char)}

theorem lowered_plain (h : ∀ w ∈ words, Plain w) : lowered words = words :=
  (map_congr_left fun w hw => map_toLower_of_quiet (h w hw).chars).trans (map_id words)

theorem lowered_titles (h : ∀ w ∈ words, Plain w) : lowered (words.map title) = words := by
  rw [lowered, map_map]
  exact (map_congr_left fun w hw => (h w hw).lowered_title).trans (map_id words)

theorem lowered_found (s : Spelling) (h : ∀ w ∈ words, Plain w) :
    lowered (s.found words) = words := by
  cases s with
  | kebab => exact lowered_plain h
  | snake => exact lowered_plain h
  | camel =>
    cases words with
    | nil => rfl
    | cons w words =>
      obtain ⟨hw, hrest⟩ := forall_mem_cons.mp h
      exact congrArg₂ List.cons (map_toLower_of_quiet hw.chars) (lowered_titles hrest)
  | pascal => exact lowered_titles h

theorem toLower_toLower {c : Char} (h : c.isAlphanum = true) : c.toLower.toLower = c.toLower := by
  have hcased := cased_of_isAlphanum h
  have hlower : c.toLower.isAlphanum = true := by
    rwa [Char.isAlphanum, hcased.alpha, hcased.digit, ← Char.isAlphanum]
  exact (cased_of_isAlphanum hlower).lowered hcased.upper

theorem capitalized_map_toLower {w : List Char} (h : ∀ c ∈ w, c.isAlphanum = true) :
    capitalized (w.map Char.toLower) = capitalized w := by
  cases w with
  | nil => rfl
  | cons c w =>
    obtain ⟨hc, hw⟩ := forall_mem_cons.mp h
    rw [map_cons, capitalized, capitalized, (cased_of_isAlphanum hc).raised, map_map]
    exact congrArg _ (map_congr_left fun d hd => toLower_toLower (hw d hd))

theorem map_intercalate_toLower (words : List (List Char)) :
    (List.intercalate ['_'] words).map Char.toLower = List.intercalate ['_'] (lowered words) := by
  induction words with
  | nil => rfl
  | cons w words ih =>
    cases words with
    | nil => simp [lowered]
    | cons v words =>
      rw [intercalate_cons_cons, map_append, map_append, ih]
      exact intercalate_cons_cons.symm

/-- The names depend on the words up to case only. -/
theorem grpcData_lowered {name : List Char}
    (h : ∀ w ∈ splitWords name, ∀ c ∈ w, c.isAlphanum = true) (plural : List Char) :
    (grpcData name plural).pkg = (lowered (splitWords name)).flatten ∧
      (grpcData name plural).type = pascal (lowered (splitWords name)) ∧
      (grpcData name plural).snake = List.intercalate ['_'] (lowered (splitWords name)) := by
  refine ⟨map_flatten, ?_, map_intercalate_toLower _⟩
  rw [pascal, lowered, flatMap_map]
  exact (flatMap_congr fun w hw => capitalized_map_toLower (h w hw)).symm

theorem pascal_plain (h : ∀ w ∈ words, Plain w) : pascal words = Spelling.pascal.spell words := by
  refine flatMap_congr fun w hw => ?_
  obtain ⟨c, v, rfl, -, -, hv⟩ := (h w hw).exists_cons
  rw [capitalized, title, map_toLower_of_quiet hv]

/-- Every spelling of plain words gives their names. -/
theorem grpcData_spell (s : Spelling) (h : ∀ w ∈ words, Plain w) (plural : List Char) :
    (grpcData (s.spell words) plural).pkg = words.flatten ∧
      (grpcData (s.spell words) plural).type = Spelling.pascal.spell words ∧
      (grpcData (s.spell words) plural).snake = Spelling.snake.spell words := by
  have halnum : ∀ w ∈ splitWords (s.spell words), ∀ c ∈ w, c.isAlphanum = true := by
    intro w hw
    rw [splitWords_spell s h] at hw
    obtain ⟨v, hv, rfl | rfl⟩ := Spelling.mem_found hw
    · exact (h w hv).isAlphanum
    · exact (h v hv).isAlphanum_title
  have hnames := grpcData_lowered halnum plural
  rw [splitWords_spell s h, lowered_found s h, pascal_plain h] at hnames
  exact hnames

theorem sameWords_spell (s : Spelling) (h : ∀ w ∈ words, Plain w) :
    SameWords (splitWords (s.spell words)) words := by
  rw [SameWords, splitWords_spell s h, lowered_found s h, lowered_plain h]

/-- The spellings of a name are split into its words and give the same names, and these are split
into the same words again. -/
theorem spellings_agree (h : ∀ w ∈ words, Plain w) (s t : Spelling) (plural : List Char) :
    SameWords (splitWords (s.spell words)) words ∧
      ((grpcData (s.spell words) plural).pkg = (grpcData (t.spell words) plural).pkg ∧
        (grpcData (s.spell words) plural).type = (grpcData (t.spell words) plural).type ∧
        (grpcData (s.spell words) plural).snake = (grpcData (t.spell words) plural).snake) ∧
      SameWords (splitWords (grpcData (s.spell words) plural).snake) words ∧
      SameWords (splitWords (grpcData (s.spell words) plural).type) words := by
  obtain ⟨hpkg, htype, hsnake⟩ := grpcData_spell s h plural
  obtain ⟨hpkg', htype', hsnake'⟩ := grpcData_spell t h plural
  refine ⟨sameWords_spell s h, ⟨hpkg.trans hpkg'.symm, htype.trans htype'.symm,
    hsnake.trans hsnake'.symm⟩, ?_, ?_⟩
  · rw [hsnake]
    exact sameWords_spell .snake h
  · rw [htype]
    exact sameWords_spell .pascal h

theorem orderLine_agree :
    Spelling.camel.spell ["order".toList, "line2".toList] = "orderLine2".toList ∧
      Spelling.kebab.spell ["order".toList, "line2".toList] = "order-line2".toList ∧
      SameWords (splitWords "orderLine2".toList) ["order".toList, "line2".toList] ∧
      (grpcData "orderLine2".toList []).type = (grpcData "order-line2".toList []).type := by
  have hplain : ∀ w ∈ ["order".toList, "line2".toList], Plain w := by decide +kernel
  have hcamel : Spelling.camel.spell ["order".toList, "line2".toList] = "orderLine2".toList := by
    decide +kernel
  have hkebab : Spelling.kebab.spell ["order".toList, "line2".toList] = "order-line2".toList := by
    decide +kernel
  have hagree := spellings_agree hplain .camel .kebab []
  rw [hcamel, hkebab] at hagree
  exact ⟨hcamel, hkebab, hagree.1, hagree.2.1.2.1⟩

end Names

end Skit.Scaffold
