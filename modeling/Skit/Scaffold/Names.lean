import Skit.Basic
import Mathlib.Data.List.Basic

/-!
# Names of a generated gRPC module

`skit add grpc` splits the name of an entity into words and spells them for the templates of the
proto file and of the handler. `protoc-gen-go` spells the names of the proto file once more, and
the handler compiles only if it comes out where `pascal` does. The names are ASCII, so a rune is a
byte.
-/
namespace Skit.Scaffold
open List

section Code

def isSeparator (r : Char) : Bool := r == '-' || r == '_' || r == ' ' || r == '.'

/-- A word that is empty is not kept. -/
def flush (cur : List Char) (words : List (List Char)) : List (List Char) :=
  if cur = [] then words else cur :: words

/-- The loop of `splitWords` from the rune after `prev` on. -/
def splitFrom (prev : Option Char) (cur : List Char) : List Char → List (List Char)
  | [] => flush cur []
  | r :: s =>
    if isSeparator r then flush cur (splitFrom (some r) [] s)
    else if r.isUpper && prev.any fun p => p.isLower || p.isDigit then
      flush cur (splitFrom (some r) [r] s)
    else splitFrom (some r) (cur ++ [r]) s

def splitWords (s : List Char) : List (List Char) := splitFrom none [] s

/-- A word with its first letter in upper case and the others in lower case. -/
def capitalized : List Char → List Char
  | [] => []
  | c :: w => c.toUpper :: w.map Char.toLower

def pascal (words : List (List Char)) : List Char := words.flatMap capitalized

/-- `nameRE`. -/
def nameMatches : List Char → Bool
  | [] => false
  | c :: s => c.isAlpha && s.all fun c => c.isAlphanum || c == '_' || c == '-'

/-- `token.IsKeyword`. -/
def keywords : List String :=
  ["break", "case", "chan", "const", "continue", "default", "defer", "else", "fallthrough", "for",
    "func", "go", "goto", "if", "import", "interface", "map", "package", "range", "return",
    "select", "struct", "switch", "type", "var"]

def goPackageNames : List (String × String) :=
  [("main", "a main package is a program and cannot be imported"),
    ("init", "init cannot be a package name")]

def entityNames : List (String × String) :=
  [("store", "the core already declares a Store interface"),
    ("core", "the core already declares a Core type"),
    ("mocks", "the core keeps its mocks in core/<name>/mocks"),
    ("harness", "the REST tests share tests/harness_test.go"),
    ("uuid", "go generate (moq) fails on a package named like the uuid import")]

def pkgOf (name : List Char) : List Char := (splitWords name).flatten.map Char.toLower

-- the verb `%q` of a name
variable (quoted : List Char → String)

def checkName (name : List Char) (reserved : List (String × String)) : Except Err Unit :=
  let invalid why := Except.error (.text ("invalid name " ++ quoted name ++ ": " ++ why))
  if !nameMatches name then
    invalid "must start with a letter and contain only letters, digits, '-' or '_'"
  else
    let pkg := String.ofList (pkgOf name)
    if keywords.contains pkg then invalid (pkg ++ " is a Go keyword")
    else
      match goPackageNames.lookup pkg with
      | some why => invalid why
      | none =>
        match reserved.lookup pkg with
        | some why => invalid (why ++ "; pick another name")
        | none => .ok ()

structure GrpcData where
  pkg : List Char
  type : List Char
  snake : List Char
  plural : List Char
  pluralType : List Char
  deriving DecidableEq

/-- The names that `addGRPC` fills into the templates. -/
def grpcData (name plural : List Char) : GrpcData :=
  let words := splitWords name
  let pkg := words.flatten.map Char.toLower
  let plural := if plural = [] then pkg ++ ['s'] else plural
  { pkg := pkg
    type := pascal words
    snake := (List.intercalate ['_'] words).map Char.toLower
    plural := plural
    pluralType := pascal (splitWords plural) }

def addGRPC (name plural : List Char) : Except Err GrpcData := do
  checkName quoted name entityNames
  return grpcData name plural

end Code

section Protoc

/-- How `protoc-gen-go` goes on after a digit, an underscore or the start (`up`), or after a
letter. -/
def camelFrom (up : Bool) : List Char → List Char
  | [] => []
  | c :: s =>
    if c == '_' && s.head?.any Char.isLower then camelFrom true s
    else (if up then c.toUpper else c) :: camelFrom (c.isDigit || c == '_') s

/-- The Go identifier of a name of the proto file. -/
def goCamelCase (s : List Char) : List Char := camelFrom true s

/-- The handler uses the identifiers that are generated. -/
structure Compiles (d : GrpcData) : Prop where
  type : goCamelCase d.type = d.type
  field : goCamelCase d.snake = d.type
  list : goCamelCase d.plural = d.pluralType

end Protoc

section Letters

variable {c : Char}

/-- What the two cases of an ASCII character have to do with each other. -/
structure Cased (c : Char) : Prop where
  digit : c.toLower.isDigit = c.isDigit
  upper : c.toLower.isUpper = false
  lower : c.toLower.isLower = c.isAlpha
  alpha : c.toLower.isAlpha = c.isAlpha
  lowered : c.isUpper = false → c.toLower = c
  raised : c.toLower.toUpper = c.toUpper
  again : c.toUpper.toUpper = c.toUpper
  changed : c.isLower = true → c.toUpper ≠ c
  letter : c.isAlpha = true → c.isDigit = false ∧ c ≠ '_'
  capital : c.toUpper.isAlpha = c.isAlpha

theorem cased (h : c.toNat < 128) : Cased c := by
  have hall : ∀ n < 128, let c := Char.ofNat n
      c.toLower.isDigit = c.isDigit ∧ c.toLower.isUpper = false ∧
      c.toLower.isLower = c.isAlpha ∧ c.toLower.isAlpha = c.isAlpha ∧
      (c.isUpper = false → c.toLower = c) ∧ c.toLower.toUpper = c.toUpper ∧
      c.toUpper.toUpper = c.toUpper ∧ (c.isLower = true → c.toUpper ≠ c) ∧
      (c.isAlpha = true → c.isDigit = false ∧ c ≠ '_') ∧ c.toUpper.isAlpha = c.isAlpha := by
    decide
  obtain ⟨h₁, h₂, h₃, h₄, h₅, h₆, h₇, h₈, h₉, h₀⟩ := Char.ofNat_toNat c ▸ hall c.toNat h
  exact ⟨h₁, h₂, h₃, h₄, h₅, h₆, h₇, h₈, h₉, h₀⟩

theorem isAlpha_eq (c : Char) : c.isAlpha = (c.isUpper || c.isLower) := rfl

theorem isAlphanum_lt (h : c.isAlphanum = true) : c.toNat < 128 := by
  have hupper : c.isUpper = decide ('A'.val ≤ c.val ∧ c.val ≤ 'Z'.val) := rfl
  have hlower : c.isLower = (decide ('a'.val ≤ c.val) && decide (c.val ≤ 'z'.val)) := rfl
  simp only [Char.isAlphanum, isAlpha_eq, hupper, hlower, Char.isDigit, Bool.or_eq_true,
    Bool.and_eq_true, decide_eq_true_eq, ge_iff_le, UInt32.le_iff_toNat_le] at h
  have hval : c.toNat = c.val.toNat := rfl
  have hbounds : 'Z'.val.toNat = 90 ∧ 'z'.val.toNat = 122 ∧ '9'.val.toNat = 57 := ⟨rfl, rfl, rfl⟩
  omega

theorem cased_of_isAlphanum (h : c.isAlphanum = true) : Cased c := cased (isAlphanum_lt h)

theorem cased_of_isAlpha (h : c.isAlpha = true) : Cased c :=
  cased_of_isAlphanum (by rw [Char.isAlphanum, h, Bool.true_or])

end Letters

section Words

variable {prev : Option Char} {cur s : List Char}

theorem flatten_flush (cur : List Char) (words : List (List Char)) :
    (flush cur words).flatten = cur ++ words.flatten := by
  unfold flush
  split_ifs with h
  · rw [h, nil_append]
  · rfl

theorem flush_ne_nil {words : List (List Char)} (h : ∀ w ∈ words, w ≠ []) :
    ∀ w ∈ flush cur words, w ≠ [] := by
  unfold flush
  split_ifs with hcur
  · exact h
  · exact forall_mem_cons.mpr ⟨hcur, h⟩

theorem flatten_splitFrom : (splitFrom prev cur s).flatten = cur ++ s.filter (!isSeparator ·) := by
  induction s generalizing prev cur with
  | nil => simp [splitFrom, flatten_flush]
  | cons r s ih =>
    rw [splitFrom]
    split_ifs with hsep hup
    · simp [flatten_flush, ih, hsep]
    · simp [flatten_flush, ih, hsep]
    · simp [ih, hsep]

theorem splitFrom_ne_nil : ∀ w ∈ splitFrom prev cur s, w ≠ [] := by
  induction s generalizing prev cur with
  | nil => exact flush_ne_nil (by simp)
  | cons r s ih =>
    rw [splitFrom]
    split_ifs
    · exact flush_ne_nil ih
    · exact flush_ne_nil ih
    · exact ih

theorem splitFrom_eq_flush (hsep : ∀ c ∈ s, isSeparator c = false)
    (hup : ∀ c ∈ s, c.isUpper = false) : splitFrom prev cur s = flush (cur ++ s) [] := by
  induction s generalizing prev cur with
  | nil => rw [splitFrom, append_nil]
  | cons r s ih =>
    obtain ⟨hr, hs⟩ := forall_mem_cons.mp hsep
    obtain ⟨hr', hs'⟩ := forall_mem_cons.mp hup
    rw [splitFrom, hr, hr', if_neg Bool.false_ne_true, Bool.false_and, if_neg Bool.false_ne_true,
      ih hs hs', append_assoc, singleton_append]

end Words

section Camel

variable {s r w : List Char} {words : List (List Char)} {c : Char}

theorem camelFrom_append (hw : ∀ c ∈ w, c.isAlpha = true) :
    camelFrom false (w ++ r) = w ++ camelFrom false r := by
  induction w with
  | nil => rfl
  | cons c w ih =>
    obtain ⟨hc, hw⟩ := forall_mem_cons.mp hw
    obtain ⟨hdigit, hne⟩ := (cased_of_isAlpha hc).letter hc
    have hbar : (c == '_') = false := beq_eq_false_iff_ne.mpr hne
    simp only [cons_append, camelFrom, hbar, hdigit, Bool.false_and, Bool.false_or,
      Bool.false_eq_true, if_false, ih hw]

theorem camelFrom_true_append (hc : c.isAlpha = true) (hw : ∀ c ∈ w, c.isAlpha = true) :
    camelFrom true (c :: w ++ r) = c.toUpper :: w ++ camelFrom false r := by
  obtain ⟨hdigit, hne⟩ := (cased_of_isAlpha hc).letter hc
  have hbar : (c == '_') = false := beq_eq_false_iff_ne.mpr hne
  simp only [cons_append, camelFrom, hbar, hdigit, Bool.false_and, Bool.false_or,
    Bool.false_eq_true, if_false, if_true, camelFrom_append hw]

theorem capitalized_eq (hc : c.isAlpha = true) (hw : ∀ c ∈ w, c.isAlpha = true) :
    camelFrom true ((c :: w).map Char.toLower ++ r) =
      capitalized (c :: w) ++ camelFrom false r := by
  have hlower : ∀ d ∈ w.map Char.toLower, d.isAlpha = true := by
    intro d hd
    obtain ⟨e, he, rfl⟩ := mem_map.mp hd
    rw [(cased_of_isAlpha (hw e he)).alpha, hw e he]
  rw [map_cons, camelFrom_true_append ((cased_of_isAlpha hc).alpha.trans hc) hlower,
    (cased_of_isAlpha hc).raised, capitalized]

theorem goCamelCase_snake (hne : ∀ w ∈ words, w ≠ [])
    (hletters : ∀ w ∈ words, ∀ c ∈ w, c.isAlpha = true) :
    goCamelCase ((List.intercalate ['_'] words).map Char.toLower) = pascal words := by
  unfold goCamelCase
  induction words with
  | nil => rfl
  | cons w words ih =>
    obtain ⟨hw, hne'⟩ := forall_mem_cons.mp hne
    obtain ⟨hlw, hletters'⟩ := forall_mem_cons.mp hletters
    cases w with
    | nil => exact absurd rfl hw
    | cons c w =>
      obtain ⟨hc, hlw⟩ := forall_mem_cons.mp hlw
      cases words with
      | nil =>
        have hone := capitalized_eq (r := []) hc hlw
        simpa [pascal, List.intercalate, camelFrom] using hone
      | cons w' words =>
        have hhead : (((List.intercalate ['_'] (w' :: words)).map Char.toLower).head?.any
            Char.isLower) = true := by
          cases w' with
          | nil => exact absurd rfl (hne' [] mem_cons_self)
          | cons d w' =>
            have hd := hletters' (d :: w') mem_cons_self d mem_cons_self
            have hcons : ∃ r, List.intercalate ['_'] ((d :: w') :: words) = d :: r := by
              cases words <;> simp [List.intercalate]
            obtain ⟨r, hr⟩ := hcons
            simp [hr, (cased_of_isAlpha hd).lower, hd]
        have hsplit : (List.intercalate ['_'] ((c :: w) :: w' :: words)).map Char.toLower =
            (c :: w).map Char.toLower ++
              '_' :: (List.intercalate ['_'] (w' :: words)).map Char.toLower := by
          simp [List.intercalate]
        rw [hsplit, capitalized_eq hc hlw, camelFrom, hhead]
        simpa [pascal] using ih hne' hletters'

theorem camelFrom_cons {up : Bool} (hc : c.isLower = true ∨ c.isDigit = true) :
    camelFrom up (c :: s) = (if up then c.toUpper else c) :: camelFrom c.isDigit s := by
  have hbar : (c == '_') = false := by
    rw [beq_eq_false_iff_ne]
    rintro rfl
    revert hc
    decide
  rw [camelFrom, hbar, Bool.false_and, if_neg Bool.false_ne_true, Bool.or_false]

theorem cased_of_isLower (hc : c.isLower = true) : Cased c :=
  cased_of_isAlpha (by rw [isAlpha_eq, hc, Bool.or_true])

theorem camelFrom_true_ne (hs : ∀ c ∈ s, c.isLower = true ∨ c.isDigit = true)
    (hc : c.isLower = true) : camelFrom true (s ++ [c]) ≠ s ++ [c] := by
  induction s with
  | nil =>
    intro heq
    rw [nil_append, camelFrom_cons (.inl hc)] at heq
    exact (cased_of_isLower hc).changed hc (head_eq_of_cons_eq heq)
  | cons d s ih =>
    obtain ⟨hd, hs⟩ := forall_mem_cons.mp hs
    intro heq
    rw [cons_append, camelFrom_cons hd] at heq
    obtain ⟨hhead, htail⟩ := List.cons.inj heq
    rcases hd with hd | hd
    · exact (cased_of_isLower hd).changed hd hhead
    · rw [hd] at htail
      exact ih hs htail

theorem camelFrom_ne_of_digit (hs : ∀ c ∈ s, c.isLower = true ∨ c.isDigit = true)
    (hc : c.isLower = true) (hd : ∃ d ∈ s, d.isDigit = true) (up : Bool) :
    (camelFrom up (s ++ [c])).tail ≠ (s ++ [c]).tail := by
  induction s generalizing up with
  | nil =>
    obtain ⟨d, hd, -⟩ := hd
    cases hd
  | cons a s ih =>
    obtain ⟨ha, hs⟩ := forall_mem_cons.mp hs
    intro heq
    rw [cons_append, camelFrom_cons ha, tail_cons, tail_cons] at heq
    cases hdigit : a.isDigit with
    | true =>
      rw [hdigit] at heq
      exact camelFrom_true_ne hs hc heq
    | false =>
      obtain ⟨d, hmem, hd⟩ := hd
      rcases mem_cons.mp hmem with rfl | hmem
      · rw [hdigit] at hd
        cases hd
      · exact ih hs ⟨d, hmem, hd⟩ _ (congrArg List.tail heq)

theorem goCamelCase_word (hs : ∀ c ∈ s, c.isAlpha = true) (htail : (capitalized s).tail = s.tail) :
    goCamelCase s = capitalized s := by
  cases s with
  | nil => rfl
  | cons c s =>
    obtain ⟨hc, hs⟩ := forall_mem_cons.mp hs
    have hcamel := camelFrom_true_append (r := []) hc hs
    rw [append_nil, camelFrom, append_nil] at hcamel
    rw [goCamelCase, hcamel, capitalized]
    exact congrArg (c.toUpper :: ·) htail.symm

theorem goCamelCase_pascal (hletters : ∀ w ∈ words, ∀ c ∈ w, c.isAlpha = true) :
    goCamelCase (pascal words) = pascal words := by
  have hcap : ∀ {w : List Char}, (∀ c ∈ w, c.isAlpha = true) →
      ∀ c ∈ capitalized w, c.isAlpha = true := by
    intro w hw c hc
    cases w with
    | nil => cases hc
    | cons d w =>
      obtain ⟨hd, hw⟩ := forall_mem_cons.mp hw
      rcases mem_cons.mp hc with rfl | hc
      · rw [(cased_of_isAlpha hd).capital, hd]
      · obtain ⟨e, he, rfl⟩ := mem_map.mp hc
        rw [(cased_of_isAlpha (hw e he)).alpha, hw e he]
  have hall : ∀ c ∈ pascal words, c.isAlpha = true := by
    intro c hc
    obtain ⟨w, hw, hc⟩ := mem_flatMap.mp hc
    exact hcap (hletters w hw) c hc
  have hhead : ∀ c ∈ (pascal words).head?, c.toUpper = c := by
    clear hall
    induction words with
    | nil => nofun
    | cons w words ih =>
      obtain ⟨hw, hrest⟩ := forall_mem_cons.mp hletters
      cases w with
      | nil => exact ih hrest
      | cons d w =>
        rintro c hc
        obtain rfl : d.toUpper = c := by simpa [pascal, capitalized] using hc
        exact (cased_of_isAlpha (hw d mem_cons_self)).again
  cases hp : pascal words with
  | nil => rfl
  | cons c r =>
    rw [hp] at hall hhead
    obtain ⟨hc, hr⟩ := forall_mem_cons.mp hall
    have hcamel := camelFrom_true_append (r := []) hc hr
    rw [append_nil, camelFrom, append_nil, hhead c rfl] at hcamel
    exact hcamel

end Camel

section Generated

variable {name : List Char} {c : Char} {quoted : List Char → String}

theorem isAlphanum_of_quiet (h : c.isLower = true ∨ c.isDigit = true) : c.isAlphanum = true := by
  simp only [Char.isAlphanum, isAlpha_eq, Bool.or_eq_true]
  exact h.imp_left .inr

theorem quiet (h : c.isLower = true ∨ c.isDigit = true) :
    isSeparator c = false ∧ c.isUpper = false ∧ c.toLower = c := by
  have hall : ∀ n < 128, let c := Char.ofNat n
      c.isLower = true ∨ c.isDigit = true →
        isSeparator c = false ∧ c.isUpper = false ∧ c.toLower = c := by
    decide
  have hlt := isAlphanum_lt (isAlphanum_of_quiet h)
  exact Char.ofNat_toNat c ▸ hall c.toNat hlt (by rwa [Char.ofNat_toNat])

theorem pascal_splitWords {plural : List Char} (hne : plural ≠ [])
    (h : ∀ c ∈ plural, c.isLower = true ∨ c.isDigit = true) :
    pascal (splitWords plural) = capitalized plural ∧
      (capitalized plural).tail = plural.tail := by
  have hquiet : ∀ c ∈ plural, isSeparator c = false ∧ c.isUpper = false ∧ c.toLower = c :=
    fun c hc => quiet (h c hc)
  refine ⟨?_, ?_⟩
  · rw [splitWords, splitFrom_eq_flush (fun c hc => (hquiet c hc).1)
      (fun c hc => (hquiet c hc).2.1), nil_append, flush, if_neg hne]
    simp [pascal]
  · cases plural with
    | nil => rfl
    | cons c s =>
      obtain ⟨-, hs⟩ := forall_mem_cons.mp hquiet
      exact (map_congr_left fun c hc => (hs c hc).2.2).trans (map_id s)

theorem nameMatches_of_checkName {quoted : List Char → String}
    {reserved : List (String × String)} (h : checkName quoted name reserved = .ok ()) :
    nameMatches name = true := by
  unfold checkName at h
  dsimp only at h
  split at h
  · cases h
  · next hm => simpa using hm

/-- The words of an accepted name are of letters and digits, and have all of its digits. -/
theorem words_spec (h : nameMatches name = true) :
    (∀ w ∈ splitWords name, w ≠ [] ∧ ∀ c ∈ w, c.isAlphanum = true) ∧
      ∀ c, c.isDigit = true → (c ∈ (splitWords name).flatten ↔ c ∈ name) := by
  have hflat : (splitWords name).flatten = name.filter (!isSeparator ·) := by
    rw [splitWords, flatten_splitFrom, nil_append]
  have hchars : ∀ c ∈ name, isSeparator c = false → c.isAlphanum = true := by
    intro c hc hsep
    cases name with
    | nil => cases hc
    | cons a s =>
      simp only [nameMatches, Bool.and_eq_true, all_eq_true, Bool.or_eq_true, beq_iff_eq] at h
      rcases mem_cons.mp hc with rfl | hc
      · rw [Char.isAlphanum, h.1, Bool.true_or]
      · obtain (halnum | rfl) | rfl := h.2 c hc
        · exact halnum
        · cases hsep
        · cases hsep
  refine ⟨fun w hw => ⟨splitFrom_ne_nil w hw, fun c hc => ?_⟩, fun c hc => ?_⟩
  · have hmem : c ∈ name.filter (!isSeparator ·) := hflat ▸ mem_flatten_of_mem hw hc
    rw [mem_filter, Bool.not_eq_true'] at hmem
    exact hchars c hmem.1 hmem.2
  · have hsep : isSeparator c = false := by
      cases hs : isSeparator c with
      | false => rfl
      | true =>
        simp only [isSeparator, Bool.or_eq_true, beq_iff_eq] at hs
        rcases hs with ((rfl | rfl) | rfl) | rfl <;> cases hc
    rw [hflat, mem_filter, hsep]
    exact and_iff_left rfl

theorem mem_pkgOf (hc : c ∈ pkgOf name) : ∃ w ∈ splitWords name, ∃ d ∈ w, d.toLower = c := by
  obtain ⟨d, hd, rfl⟩ := mem_map.mp hc
  obtain ⟨w, hw, hd⟩ := mem_flatten.mp hd
  exact ⟨w, hw, d, hd, rfl⟩

/-- The generated code fits the generated proto file just for the names without digits. -/
theorem grpcData_compiles_iff (h : checkName quoted name entityNames = .ok ()) :
    Compiles (grpcData name []) ↔ ∀ c ∈ name, c.isDigit = false := by
  obtain ⟨hwords, hdigits⟩ := words_spec (nameMatches_of_checkName h)
  have hpkg : ∀ c ∈ pkgOf name, c.isLower = true ∨ c.isDigit = true := by
    intro c hc
    obtain ⟨w, hw, d, hd, rfl⟩ := mem_pkgOf hc
    have halnum := (hwords w hw).2 d hd
    rw [(cased_of_isAlphanum halnum).lower, (cased_of_isAlphanum halnum).digit]
    simpa [Char.isAlphanum] using halnum
  have hplural : ∀ c ∈ pkgOf name ++ ['s'], c.isLower = true ∨ c.isDigit = true :=
    forall_mem_append.mpr ⟨hpkg, forall_mem_singleton.mpr (.inl rfl)⟩
  obtain ⟨htype, htail⟩ := pascal_splitWords (by simp) hplural
  constructor
  · intro hok c hc
    rw [← Bool.not_eq_true]
    intro hdigit
    have hlist : goCamelCase (pkgOf name ++ ['s']) = pascal (splitWords (pkgOf name ++ ['s'])) :=
      hok.list
    refine camelFrom_ne_of_digit hpkg (c := 's') rfl ?_ true ?_
    · obtain ⟨w, hw, hcw⟩ := mem_flatten.mp ((hdigits c hdigit).mpr hc)
      refine ⟨c.toLower, mem_map.mpr ⟨c, (hdigits c hdigit).mpr hc, rfl⟩, ?_⟩
      rw [(cased_of_isAlphanum ((hwords w hw).2 c hcw)).digit, hdigit]
    · exact (congrArg List.tail (hlist.trans htype)).trans htail
  · intro hnone
    have hletters : ∀ w ∈ splitWords name, ∀ c ∈ w, c.isAlpha = true := by
      intro w hw c hc
      have halnum := (hwords w hw).2 c hc
      cases hdigit : c.isDigit with
      | false => simpa [Char.isAlphanum, hdigit] using halnum
      | true =>
        have hmem := (hdigits c hdigit).mp (mem_flatten_of_mem hw hc)
        rw [hnone c hmem] at hdigit
        cases hdigit
    have hpkgLetters : ∀ c ∈ pkgOf name, c.isAlpha = true := by
      intro c hc
      obtain ⟨w, hw, d, hd, rfl⟩ := mem_pkgOf hc
      rw [(cased_of_isAlpha (hletters w hw d hd)).alpha, hletters w hw d hd]
    have hpluralLetters : ∀ c ∈ pkgOf name ++ ['s'], c.isAlpha = true :=
      forall_mem_append.mpr ⟨hpkgLetters, forall_mem_singleton.mpr rfl⟩
    refine ⟨goCamelCase_pascal hletters, goCamelCase_snake (fun w hw => (hwords w hw).1) hletters,
      Eq.trans ?_ htype.symm⟩
    exact goCamelCase_word hpluralLetters htail

/-- A name with a digit, and one in which a letter follows the digit. -/
theorem grpcData_mismatch :
    checkName (fun s => String.ofList s) "oauth2".toList entityNames = .ok () ∧
    checkName (fun s => String.ofList s) "user2fa".toList entityNames = .ok () ∧
    goCamelCase (grpcData "oauth2".toList []).plural = "Oauth2S".toList ∧
    (grpcData "oauth2".toList []).pluralType = "Oauth2s".toList ∧
    goCamelCase (grpcData "user2fa".toList []).type = "User2Fa".toList ∧
    (grpcData "user2fa".toList []).type = "User2fa".toList ∧
    ¬ Compiles (grpcData "oauth2".toList []) ∧ ¬ Compiles (grpcData "user2fa".toList []) := by
  have hlist : goCamelCase (grpcData "oauth2".toList []).plural ≠
      (grpcData "oauth2".toList []).pluralType := by decide +kernel
  have htype : goCamelCase (grpcData "user2fa".toList []).type ≠
      (grpcData "user2fa".toList []).type := by decide +kernel
  exact ⟨by decide +kernel, by decide +kernel, by decide +kernel, by decide +kernel,
    by decide +kernel, by decide +kernel, fun h => hlist h.list, fun h => htype h.type⟩

theorem grpcData_compiles_orderLine :
    checkName (fun s => String.ofList s) "order-line".toList entityNames = .ok () ∧
      Compiles (grpcData "order-line".toList []) := by
  have hok : checkName (fun s => String.ofList s) "order-line".toList entityNames = .ok () := by
    decide +kernel
  have hall : ("order-line".toList.all fun c => c.isDigit == false) = true := by decide +kernel
  refine ⟨hok, (grpcData_compiles_iff hok).mpr fun c hc => ?_⟩
  exact beq_iff_eq.mp (all_eq_true.mp hall c hc)

end Generated

end Skit.Scaffold
