import Mathlib.Data.List.Basic

/-!
# Words of a shell command

The token rules of the POSIX shell for the text of one command: blanks separate words, quotes and
backslashes make characters literal, `#` begins a comment where a word could begin. A text is read
to its words only if all of them are literal: an unquoted operator, newline, expansion or pattern
has no reading here, and neither has an open quote.

The characters are of any type and are known by their class.
-/
namespace Skit.Lib.Shell
open List Option

/-- What a character means outside quotes. -/
inductive Class
  | blank
  | newline
  | operator
  | expansion
  | pattern
  | quote
  | doubleQuote
  | backslash
  | hash
  | tilde
  | ordinary
  deriving DecidableEq

inductive Mode (α : Type)
  | plain
  | comment
  | single
  | double
  | escape
  /-- After the given backslash in double quotes. -/
  | doubleEscape (b : α)

/-- The reader: the words that are complete, and the characters of the one that has begun. -/
structure State (α : Type) where
  mode : Mode α
  word : Option (List α)
  done : List (List α)

section Reader

variable {α : Type} (cls : α → Class)

namespace State

def start : State α := ⟨.plain, none, []⟩

/-- The word goes on with these characters. -/
def push (st : State α) (m : Mode α) (cs : List α) : State α :=
  { st with mode := m, word := some (st.word.getD [] ++ cs) }

def finish (st : State α) : Option (List (List α)) :=
  match st.mode with
  | .plain | .comment => some (st.done ++ st.word.toList)
  | _ => none

end State

def step (st : State α) (c : α) : Option (State α) :=
  match st.mode with
  | .plain =>
    match cls c with
    | .blank => some ⟨.plain, none, st.done ++ st.word.toList⟩
    | .newline | .operator | .expansion | .pattern => none
    | .quote => some (st.push .single [])
    | .doubleQuote => some (st.push .double [])
    | .backslash => some { st with mode := .escape }
    | .hash =>
      if st.word.isNone then some { st with mode := .comment } else some (st.push .plain [c])
    -- at the start of a word it stands for a home directory
    | .tilde => if st.word.isNone then none else some (st.push .plain [c])
    | .ordinary => some (st.push .plain [c])
  | .comment => if cls c = .newline then none else some st
  | .single =>
    if cls c = .quote then some { st with mode := .plain } else some (st.push .single [c])
  | .double =>
    match cls c with
    | .doubleQuote => some { st with mode := .plain }
    | .expansion => none
    | .backslash => some { st with mode := .doubleEscape c }
    | _ => some (st.push .double [c])
  | .escape =>
    if cls c = .newline then some { st with mode := .plain } else some (st.push .plain [c])
  | .doubleEscape b =>
    match cls c with
    | .newline => some { st with mode := .double }
    | .expansion | .doubleQuote | .backslash => some (st.push .double [c])
    | _ => some (st.push .double [b, c])

/-- The words of a command, if all of them are literal. -/
def words (s : List α) : Option (List (List α)) :=
  (s.foldlM (step cls) State.start).bind State.finish

end Reader

section Literal

variable {α : Type} {cls : α → Class} {w s : List α} {d : List (List α)}

/-- A character that is literal inside a word. -/
def Literal (cls : α → Class) (c : α) : Prop :=
  cls c = .ordinary ∨ cls c = .hash ∨ cls c = .tilde

theorem foldlM_literal (hs : ∀ c ∈ s, Literal cls c) :
    s.foldlM (step cls) ⟨.plain, some w, d⟩ = some ⟨.plain, some (w ++ s), d⟩ := by
  induction s generalizing w with
  | nil => simp
  | cons c s ih =>
    rw [forall_mem_cons] at hs
    have hstep : step cls ⟨.plain, some w, d⟩ c = some ⟨.plain, some (w ++ [c]), d⟩ := by
      rcases hs.1 with h | h | h <;> simp [step, h, State.push]
    rw [foldlM_cons, hstep, bind_eq_bind, bind_some, ih hs.2]
    simp

/-- A text of literal characters that is read as one word. -/
structure Inert (cls : α → Class) (s : List α) : Prop where
  head : ∃ c ∈ s.head?, cls c = .ordinary
  literal : ∀ c ∈ s, Literal cls c

/-- A text that is read as one word, whatever is before it. -/
def Word (cls : α → Class) (s w : List α) : Prop :=
  ∀ d, s.foldlM (step cls) ⟨.plain, none, d⟩ = some ⟨.plain, some w, d⟩

theorem Inert.word (hs : Inert cls s) : Word cls s s := by
  intro d
  obtain ⟨⟨c, hc, hord⟩, hlit⟩ := hs
  cases s with
  | nil => cases hc
  | cons a s =>
    obtain rfl : a = c := by simpa using hc
    have hstep : step cls ⟨.plain, none, d⟩ a = some ⟨.plain, some [a], d⟩ := by
      simp [step, hord, State.push]
    rw [foldlM_cons, hstep, bind_eq_bind, bind_some]
    exact foldlM_literal (forall_mem_cons.mp hlit).2

/-- What stands in quotes is literal up to the next quote. -/
theorem foldlM_single (hs : ∀ c ∈ s, cls c ≠ .quote) :
    s.foldlM (step cls) ⟨.single, some w, d⟩ = some ⟨.single, some (w ++ s), d⟩ := by
  induction s generalizing w with
  | nil => simp
  | cons c s ih =>
    rw [forall_mem_cons] at hs
    have hstep : step cls ⟨.single, some w, d⟩ c = some ⟨.single, some (w ++ [c]), d⟩ := by
      simp [step, hs.1, State.push]
    rw [foldlM_cons, hstep, bind_eq_bind, bind_some, ih hs.2]
    simp

end Literal

section Lines

variable {α : Type} {cls : α → Class} {w t : List α} {d ts ws : List (List α)} {b : α}

/-- Words with a blank before each of them. -/
theorem foldlM_line (hb : cls b = .blank) (hts : List.Forall₂ (Word cls) ts ws) :
    ∃ st, (ts.flatMap (b :: ·)).foldlM (step cls) ⟨.plain, some w, d⟩ = some st ∧
      st.finish = some (d ++ w :: ws) := by
  induction hts generalizing w d with
  | nil => exact ⟨_, rfl, rfl⟩
  | @cons t v ts ws ht _ ih =>
    obtain ⟨st, hread, hfinish⟩ := ih (w := v) (d := d ++ [w])
    refine ⟨st, ?_, by simpa using hfinish⟩
    have hblank : step cls ⟨.plain, some w, d⟩ b = some ⟨.plain, none, d ++ [w]⟩ := by
      simp [step, hb]
    rw [flatMap_cons, cons_append, foldlM_cons, hblank, bind_eq_bind,
      bind_some, foldlM_append, ht, bind_eq_bind, bind_some]
    exact hread

theorem words_line (hb : cls b = .blank) (ht : Word cls t w)
    (hts : List.Forall₂ (Word cls) ts ws) :
    words cls (t ++ ts.flatMap (b :: ·)) = some (w :: ws) := by
  obtain ⟨st, hread, hfinish⟩ := foldlM_line (w := w) (d := []) hb hts
  rw [words, foldlM_append, State.start, ht, bind_eq_bind, bind_some, hread,
    bind_some]
  exact hfinish

end Lines

section Words

variable {α : Type} {cls : α → Class} {w s rest : List α} {d ws : List (List α)} {b c : α}
  {st st' : State α}

/-- A character adds to the word that has begun, or completes it. -/
theorem step_cases (h : step cls st c = some st') :
    (st'.done = st.done ∧ (st'.word = st.word ∨ ∃ cs, st'.word = some (st.word.getD [] ++ cs))) ∨
      (st'.done = st.done ++ st.word.toList ∧ st'.word = none) := by
  obtain ⟨mode, word, done⟩ := st
  unfold step at h
  cases mode <;> dsimp only at h
  case plain =>
    cases hc : cls c <;> simp only [hc, reduceCtorEq, Option.some.injEq] at h
    case blank =>
      subst h
      exact .inr ⟨rfl, rfl⟩
    case backslash =>
      subst h
      exact .inl ⟨rfl, .inl rfl⟩
    case hash | tilde =>
      split_ifs at h <;> cases h
      all_goals first | exact .inl ⟨rfl, .inl rfl⟩ | exact .inl ⟨rfl, .inr ⟨_, rfl⟩⟩
    all_goals
      subst h
      exact .inl ⟨rfl, .inr ⟨_, rfl⟩⟩
  case double | doubleEscape =>
    cases hc : cls c <;> simp only [hc, reduceCtorEq, Option.some.injEq] at h
    all_goals
      subst h
      first | exact .inl ⟨rfl, .inl rfl⟩ | exact .inl ⟨rfl, .inr ⟨_, rfl⟩⟩
  all_goals
    split_ifs at h <;> cases h
    all_goals first | exact .inl ⟨rfl, .inl rfl⟩ | exact .inl ⟨rfl, .inr ⟨_, rfl⟩⟩

/-- After the words `d`, a word that begins with `w` has been read or is being read. -/
def Reading (d : List (List α)) (w : List α) (st : State α) : Prop :=
  (st.done = d ∧ ∃ x, st.word = some x ∧ w <+: x) ∨ ∃ x, w <+: x ∧ d ++ [x] <+: st.done

theorem Reading.step (hr : Reading d w st) (h : step cls st c = some st') : Reading d w st' := by
  rcases hr with ⟨hdone, x, hword, hx⟩ | ⟨x, hx, hdone⟩
  · rcases step_cases h with ⟨hdone', hword' | ⟨cs, hword'⟩⟩ | ⟨hdone', -⟩
    · exact .inl ⟨hdone'.trans hdone, x, hword'.trans hword, hx⟩
    · refine .inl ⟨hdone'.trans hdone, x ++ cs, ?_, hx.trans (prefix_append x cs)⟩
      rw [hword', hword, getD_some]
    · refine .inr ⟨x, hx, ?_⟩
      rw [hdone', hdone, hword]
      exact prefix_rfl
  · rcases step_cases h with ⟨hdone', -⟩ | ⟨hdone', -⟩
    · exact .inr ⟨x, hx, hdone' ▸ hdone⟩
    · exact .inr ⟨x, hx, hdone' ▸ hdone.trans (prefix_append _ _)⟩

theorem Reading.foldlM (hr : Reading d w st) (h : s.foldlM (Shell.step cls) st = some st') :
    Reading d w st' := by
  induction s generalizing st with
  | nil =>
    cases h
    exact hr
  | cons c s ih =>
    rw [foldlM_cons] at h
    obtain ⟨st₁, hstep, h⟩ := bind_eq_some_iff.mp h
    exact ih (hr.step hstep) h

theorem State.finish_eq (h : st.finish = some ws) : ws = st.done ++ st.word.toList := by
  unfold State.finish at h
  split at h <;> cases h <;> rfl

theorem Reading.finish (hr : Reading d w st) (h : st.finish = some ws) :
    ∃ x xs, ws = d ++ x :: xs ∧ w <+: x := by
  have hws := State.finish_eq h
  rcases hr with ⟨rfl, x, hword, hx⟩ | ⟨x, hx, xs, hdone⟩
  · exact ⟨x, [], by rw [hws, hword]; rfl, hx⟩
  · exact ⟨x, xs ++ st.word.toList, by rw [hws, ← hdone]; simp, hx⟩

/-- Words that are complete stay. -/
theorem done_grows (h : s.foldlM (step cls) st = some st') : st.done <+: st'.done := by
  induction s generalizing st with
  | nil =>
    cases h
    exact prefix_rfl
  | cons c s ih =>
    rw [foldlM_cons] at h
    obtain ⟨st₁, hstep, h⟩ := bind_eq_some_iff.mp h
    refine List.IsPrefix.trans ?_ (ih h)
    rcases step_cases hstep with ⟨hdone, -⟩ | ⟨hdone, -⟩
    · exact hdone ▸ prefix_rfl
    · exact hdone ▸ prefix_append _ _

/-- A comment goes on to the end of the line. -/
theorem foldlM_comment (hm : st.mode = .comment) (h : s.foldlM (step cls) st = some st') :
    st' = st := by
  induction s with
  | nil =>
    cases h
    rfl
  | cons c s ih =>
    rw [foldlM_cons] at h
    obtain ⟨st₁, hstep, h⟩ := bind_eq_some_iff.mp h
    unfold step at hstep
    rw [hm] at hstep
    dsimp only at hstep
    split_ifs at hstep
    cases hstep
    exact ih h

end Words

section Bare

variable {α : Type} {cls : α → Class} {w s rest : List α} {d xs : List (List α)} {b c : α}
  {st : State α} {m : Mode α}

/-- A character that neither separates words nor, but for the quote, makes others literal. -/
structure Bare (cls : α → Class) (c : α) : Prop where
  blank : cls c ≠ .blank
  newline : cls c ≠ .newline
  backslash : cls c ≠ .backslash
  doubleQuote : cls c ≠ .doubleQuote

/-- Outside quotes a bare character that has a reading is literal or a quote. -/
theorem Bare.step_plain (hc : Bare cls c) (h : step cls ⟨.plain, some w, d⟩ c = some st) :
    (cls c = .quote ∧ st = ⟨.single, some w, d⟩) ∨
      (Literal cls c ∧ cls c ≠ .quote ∧ st = ⟨.plain, some (w ++ [c]), d⟩) := by
  obtain ⟨hblank, hnewline, hbackslash, hdouble⟩ := hc
  unfold step at h
  cases hcls : cls c <;> simp_all [State.push, Literal]

/-- A word with the characters of a text but its quotes, at the end of the text. -/
def Unquoted (cls : α → Class) (w s : List α) (d : List (List α)) (st : State α) : Prop :=
  st = ⟨.plain, some (w ++ s.filter fun c => cls c ≠ .quote), d⟩ ∨
    st = ⟨.single, some (w ++ s.filter fun c => cls c ≠ .quote), d⟩

/-- Quotes vanish from a word of bare characters, and nothing else does. -/
theorem foldlM_bare (hs : ∀ c ∈ s, Bare cls c) (hm : m = .plain ∨ m = .single)
    (h : s.foldlM (step cls) ⟨m, some w, d⟩ = some st) : Unquoted cls w s d st := by
  induction s generalizing w m with
  | nil =>
    cases h
    rcases hm with rfl | rfl
    · exact .inl (by simp)
    · exact .inr (by simp)
  | cons c s ih =>
    rw [forall_mem_cons] at hs
    rw [foldlM_cons] at h
    obtain ⟨st₁, hstep, h⟩ := bind_eq_some_iff.mp h
    have hkeep : cls c ≠ .quote → Unquoted cls (w ++ [c]) s d st →
        Unquoted cls w (c :: s) d st := by
      intro hquote hst
      simpa [Unquoted, hquote] using hst
    have hdrop : cls c = .quote → Unquoted cls w s d st → Unquoted cls w (c :: s) d st := by
      intro hquote hst
      simpa [Unquoted, hquote] using hst
    rcases hm with rfl | rfl
    · rcases hs.1.step_plain hstep with ⟨hquote, rfl⟩ | ⟨-, hquote, rfl⟩
      · exact hdrop hquote (ih hs.2 (.inr rfl) h)
      · exact hkeep hquote (ih hs.2 (.inl rfl) h)
    · unfold step at hstep
      dsimp only at hstep
      split_ifs at hstep with hquote
      · cases hstep
        exact hdrop hquote (ih hs.2 (.inl rfl) h)
      · cases hstep
        exact hkeep hquote (ih hs.2 (.inr rfl) h)

/-- Without quotes a word of bare characters that has a reading is one of literal characters. -/
theorem literal_of_foldlM (hs : ∀ c ∈ s, Bare cls c) (hquote : ∀ c ∈ s, cls c ≠ .quote)
    (h : s.foldlM (step cls) ⟨.plain, some w, d⟩ = some st) : ∀ c ∈ s, Literal cls c := by
  induction s generalizing w with
  | nil => nofun
  | cons c s ih =>
    rw [forall_mem_cons] at hs hquote ⊢
    rw [foldlM_cons] at h
    obtain ⟨st₁, hstep, h⟩ := bind_eq_some_iff.mp h
    rcases hs.1.step_plain hstep with ⟨hq, -⟩ | ⟨hlit, -, rfl⟩
    · exact absurd hq hquote.1
    · exact ⟨hlit, ih hs.2 hquote.2 h⟩

/-- A text of bare characters that begins a word and is read as itself has no quote. -/
theorem literal_of_words (hs : ∀ c ∈ s, Bare cls c) (hb : cls b = .blank)
    (h : ((s ++ b :: rest).foldlM (step cls) ⟨.plain, some [], d⟩).bind State.finish =
      some (d ++ s :: xs)) : ∀ c ∈ s, Literal cls c := by
  obtain ⟨st, hread, hfinish⟩ := bind_eq_some_iff.mp h
  rw [foldlM_append] at hread
  obtain ⟨st₁, hword, hafter⟩ := bind_eq_some_iff.mp hread
  rw [foldlM_cons] at hafter
  obtain ⟨st₂, hblank, hrest⟩ := bind_eq_some_iff.mp hafter
  rcases foldlM_bare hs (.inl rfl) hword with rfl | rfl
  · -- the word ends at the blank without its quotes
    have hdone : d ++ [s.filter fun c => cls c ≠ .quote] <+: d ++ s :: xs := by
      have hst₂ : st₂.done = d ++ [s.filter fun c => cls c ≠ .quote] := by
        simp only [step, hb, Option.some.injEq] at hblank
        rw [← hblank]
        simp
      rw [State.finish_eq hfinish, ← hst₂]
      exact (done_grows hrest).trans (prefix_append _ _)
    rw [prefix_append_right_inj, cons_prefix_cons] at hdone
    refine literal_of_foldlM hs (fun c hc => ?_) hword
    rw [← hdone.1, mem_filter] at hc
    exact of_decide_eq_true hc.2
  · -- the blank is quoted, but it is not in the text
    have hreading : Reading d (([] ++ s.filter fun c => cls c ≠ .quote) ++ [b]) st₂ := by
      simp only [step, hb, reduceCtorEq, if_false, Option.some.injEq] at hblank
      exact .inl ⟨by rw [← hblank]; rfl, _, by rw [← hblank]; rfl, prefix_rfl⟩
    obtain ⟨x, xs', heq, hx⟩ := (hreading.foldlM hrest).finish hfinish
    obtain ⟨rfl, -⟩ := List.cons.inj (append_cancel_left heq)
    have hmem : b ∈ s := hx.subset (by simp)
    exact absurd hb (hs b hmem).blank

/-- Where a word could begin, a bare character begins one or a comment. -/
theorem Bare.step_first (hc : Bare cls c) (h : step cls ⟨.plain, none, d⟩ c = some st) :
    st = ⟨.comment, none, d⟩ ∨
      ((cls c = .ordinary ∨ cls c = .quote) ∧ step cls ⟨.plain, some [], d⟩ c = some st) := by
  obtain ⟨hblank, hnewline, hbackslash, hdouble⟩ := hc
  unfold step at h ⊢
  cases hcls : cls c <;> simp_all [State.push]

/-- A text of bare characters before a blank is read as itself only if it is inert. -/
theorem inert_of_words (hne : s ≠ []) (hs : ∀ c ∈ s, Bare cls c) (hb : cls b = .blank)
    (h : ((s ++ b :: rest).foldlM (step cls) ⟨.plain, none, d⟩).bind State.finish =
      some (d ++ s :: xs)) : Inert cls s := by
  obtain ⟨c, s, rfl⟩ := exists_cons_of_ne_nil hne
  obtain ⟨st, hread, hfinish⟩ := bind_eq_some_iff.mp h
  rw [cons_append, foldlM_cons] at hread
  obtain ⟨st₁, hstep, hread⟩ := bind_eq_some_iff.mp hread
  rcases (hs c mem_cons_self).step_first hstep with rfl | ⟨hcls, hstep'⟩
  · have hst := foldlM_comment rfl hread
    rw [hst] at hfinish
    simpa using State.finish_eq hfinish
  · have hwords : ((c :: s ++ b :: rest).foldlM (step cls) ⟨.plain, some [], d⟩).bind
        State.finish = some (d ++ (c :: s) :: xs) := by
      rw [cons_append, foldlM_cons, hstep']
      exact bind_eq_some_iff.mpr ⟨st, hread, hfinish⟩
    have hlit := literal_of_words hs hb hwords
    refine ⟨⟨c, rfl, ?_⟩, hlit⟩
    rcases hcls with hord | hquote
    · exact hord
    · have := hlit c mem_cons_self
      simp [Literal, hquote] at this

end Bare

def Class.ofByte (c : UInt8) : Class :=
  if c = 0x20 ∨ c = 0x09 then .blank
  else if c = 0x0a then .newline
  -- | & ; < > ( )
  else if c ∈ [0x7c, 0x26, 0x3b, 0x3c, 0x3e, 0x28, 0x29] then .operator
  -- $ and the backquote
  else if c ∈ [0x24, 0x60] then .expansion
  -- * ? [
  else if c ∈ [0x2a, 0x3f, 0x5b] then .pattern
  else if c = 0x27 then .quote
  else if c = 0x22 then .doubleQuote
  else if c = 0x5c then .backslash
  else if c = 0x23 then .hash
  else if c = 0x7e then .tilde
  else .ordinary

end Skit.Lib.Shell
