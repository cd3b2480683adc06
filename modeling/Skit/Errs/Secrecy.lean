import Skit.Lib.Suffix
import Skit.Errs.Sanitize

/-!
# Secrets and sanitized messages

Two texts that differ only in secrets are sanitized to one text. In `key=value` form this is so for
all texts. A JSON text is read by a regular expression, not by its grammar: the name of a secret
member must be written without escapes, its string must have no escaped quote, and no run of the
first pass that begins before the end of the last secret may go on over a quote.

Both passes are followed through a JSON text piece by piece: `Reads` says what a pass makes of a
piece, whatever stands around it.
-/
namespace Skit.Errs
open List Option

section Keys

/-- A byte that no spelling of a key has. -/
def Foreign (x : UInt8) : Prop :=
  ∀ key ∈ secretKeys, ∀ c ∈ text key, ∀ a ∈ foldings c, x ∉ a

theorem foreign_iff (x : UInt8) :
    (secretKeys.all fun key => (text key).all fun c => (foldings c).all fun a => !a.elem x) = true ↔
      Foreign x := by
  simp [Foreign]

instance (x : UInt8) : Decidable (Foreign x) :=
  decidable_of_iff _ (foreign_iff x)

/-- A spelling of a secret key. -/
def Spells (key : Text) : Prop := matchKey key = some (key, [])

variable {x : UInt8} {p r key s : Text}

theorem isPrefixOf_append_cons {a : Text} (hx : x ∉ a) :
    a.isPrefixOf (p ++ x :: r) = a.isPrefixOf p := by
  induction p generalizing a with
  | nil =>
    cases a with
    | nil => rfl
    | cons b a =>
      have hb : b ≠ x := fun hb => hx (hb ▸ mem_cons_self)
      simp [List.isPrefixOf, hb]
  | cons c p ih =>
    cases a with
    | nil => rfl
    | cons b a => simp [List.isPrefixOf, ih fun hmem => hx (mem_cons_of_mem b hmem)]

theorem matchWord_append_cons {word : Text} (hx : ∀ c ∈ word, ∀ a ∈ foldings c, x ∉ a) :
    matchWord word (p ++ x :: r) = (matchWord word p).map fun m => (m.1, m.2 ++ x :: r) := by
  induction word generalizing p with
  | nil => rfl
  | cons c word ih =>
    obtain ⟨hc, hword⟩ := forall_mem_cons.mp hx
    have hfind : (foldings c).find? (·.isPrefixOf (p ++ x :: r)) =
        (foldings c).find? (·.isPrefixOf p) := by
      rw [← head?_filter, ← head?_filter,
        filter_congr fun a ha => isPrefixOf_append_cons (hc a ha)]
    rw [matchWord, matchWord, hfind]
    cases ha : (foldings c).find? (·.isPrefixOf p) with
    | none => rfl
    | some a =>
      have hpre : a <+: p := isPrefixOf_iff_prefix.mp (by simpa using find?_some ha)
      obtain ⟨t, rfl⟩ := hpre
      dsimp only
      rw [append_assoc, drop_left, drop_left, ih hword, Option.map_map,
        Option.map_map]
      rfl

theorem matchKey_append_cons (hx : Foreign x) :
    matchKey (p ++ x :: r) = (matchKey p).map fun m => (m.1, m.2 ++ x :: r) := by
  unfold matchKey
  rw [map_findSome?, ← head?_filterMap, ← head?_filterMap,
    filterMap_congr fun key hkey => matchWord_append_cons (hx key hkey)]
  rfl

theorem Spells.matchKey (hk : Spells key) (hx : Foreign x) :
    matchKey (key ++ x :: r) = some (key, x :: r) := by
  rw [matchKey_append_cons hx, hk]
  rfl

theorem spells_of_matchKey (hx : Foreign x) (h : matchKey s = some (key, x :: r)) :
    Spells key ∧ s = key ++ x :: r := by
  have hs : s = key ++ x :: r := matchKey_eq h
  rw [hs, matchKey_append_cons hx] at h
  obtain ⟨⟨k, t⟩, hm, heq⟩ := map_eq_some_iff.mp h
  simp only [Prod.mk.injEq] at heq
  obtain ⟨rfl, ht⟩ := heq
  have hnil : t = [] := by simpa using congrArg List.length ht
  rw [hnil] at hm
  exact ⟨hm, hs⟩

theorem not_mem_of_matchWord {word : Text} {m : Text × Text}
    (hx : ∀ c ∈ word, ∀ a ∈ foldings c, x ∉ a) (h : matchWord word s = some m) : x ∉ m.1 := by
  induction word generalizing s m with
  | nil =>
    cases h
    exact not_mem_nil
  | cons c word ih =>
    obtain ⟨hc, hword⟩ := forall_mem_cons.mp hx
    rw [matchWord] at h
    split at h
    · cases h
    · next a ha =>
      obtain ⟨m', hm', rfl⟩ := map_eq_some_iff.mp h
      rw [mem_append, not_or]
      exact ⟨hc a (mem_of_find?_eq_some ha), ih hword hm'⟩

theorem Spells.not_mem (hk : Spells key) (hx : Foreign x) : x ∉ key := by
  obtain ⟨word, hword, hm⟩ := exists_of_findSome?_eq_some hk
  exact not_mem_of_matchWord (hx word hword) hm

theorem spells_ne_nil (hk : Spells key) : key ≠ [] := by
  rintro rfl
  exact absurd hk (by unfold Spells; decide +kernel)

theorem foreign_equals : Foreign 61 := by decide +kernel

theorem foreign_quote : Foreign 34 := by decide +kernel

theorem foreign_backslash : Foreign 92 := by decide +kernel

theorem foreign_of_isSpace (hx : isSpace x = true) : Foreign x := by
  simp only [isSpace, Bool.or_eq_true, beq_iff_eq] at hx
  rcases hx with (((rfl | rfl) | rfl) | rfl) | rfl <;> decide +kernel

end Keys

section Replacement

variable {find : Option UInt8 → Text → Option Match} {before : Option UInt8} {s : Text}

/-- A pass over a whole text. -/
def replaced (find : Option UInt8 → Text → Option Match) (before : Option UInt8) (s : Text) :
    Text := replaceAll find s.length before s

/-- A match goes on after its start. -/
def Advances (find : Option UInt8 → Text → Option Match) : Prop :=
  ∀ before s m, find before s = some m → m.rest.length < s.length

theorem replaceAll_eq (hfind : Advances find) {n : Nat} (hn : s.length ≤ n) :
    replaceAll find n before s = replaced find before s := by
  have henough (n : Nat) : ∀ n' before s, s.length ≤ n → s.length ≤ n' →
      replaceAll find n before s = replaceAll find n' before s := by
    induction n with
    | zero =>
      intro n' before s hs _
      obtain rfl : s = [] := eq_nil_of_length_eq_zero (Nat.le_zero.mp hs)
      cases n' <;> rfl
    | succ n ih =>
      intro n' before s hs hs'
      cases s with
      | nil => cases n' <;> rfl
      | cons b s =>
        cases n' with
        | zero => cases hs'
        | succ n' =>
          rw [length_cons, Nat.add_le_add_iff_right] at hs hs'
          rw [replaceAll, replaceAll]
          split
          · next m hm =>
            have hlt := hfind before _ m hm
            rw [length_cons] at hlt
            rw [ih n' (some m.last) m.rest (by omega) (by omega)]
          · rw [ih n' (some b) s hs hs']
  exact henough n s.length before s hn le_rfl

theorem replaced_nil : replaced find before [] = [] := rfl

theorem replaced_of_some (hfind : Advances find) {m : Match} (h : find before s = some m) :
    replaced find before s = m.replacement ++ replaced find (some m.last) m.rest := by
  have hlt := hfind before s m h
  cases s with
  | nil => cases hlt
  | cons b s =>
    rw [replaced, length_cons, replaceAll, h]
    dsimp only
    rw [replaceAll_eq hfind (Nat.le_of_lt_succ hlt)]

theorem replaced_of_none {b : UInt8} (h : find before (b :: s) = none) :
    replaced find before (b :: s) = b :: replaced find (some b) s := by
  rw [replaced, length_cons, replaceAll, h]
  rfl

end Replacement

section KeyValue

variable {before before' : Option UInt8} {s s' r r' key : Text}

/-- The end of a run of `\S`. -/
def RunEnds (s : Text) : Prop := s.head?.all isSpace = true

/-- A run of `\S+`. -/
structure IsRun (run : Text) : Prop where
  ne_nil : run ≠ []
  all : ∀ b ∈ run, isSpace b = false

theorem IsRun.takeWhile {run : Text} (hrun : IsRun run) (hs : RunEnds s) :
    (run ++ s).takeWhile (!isSpace ·) = run := by
  have hnil : s.takeWhile (!isSpace ·) = [] := by
    cases s with
    | nil => rfl
    | cons b s =>
      have hb : isSpace b = true := hs
      rw [takeWhile_cons, hb]
      rfl
  rw [takeWhile_append_of_pos fun b hb => by simp [hrun.all b hb], hnil, append_nil]

theorem IsRun.dropWhile {run : Text} (hrun : IsRun run) (hs : RunEnds s) :
    (run ++ s).dropWhile (!isSpace ·) = s := by
  have hself : s.dropWhile (!isSpace ·) = s := by
    cases s with
    | nil => rfl
    | cons b s =>
      have hb : isSpace b = true := hs
      rw [dropWhile_cons, hb]
      rfl
  rw [dropWhile_append_of_pos fun b hb => by simp [hrun.all b hb], hself]

/-- A match is a key at a word boundary, an equals sign and a run. -/
theorem secretKV_eq_some {m : Match} (h : secretKV before s = some m) :
    ∃ key r, Spells key ∧ boundary before s = true ∧ s = key ++ 61 :: r ∧
      r.takeWhile (!isSpace ·) ≠ [] ∧ m.replacement = key ++ text "=***" ∧
      m.rest = r.dropWhile (!isSpace ·) := by
  unfold secretKV at h
  split_ifs at h with hb
  split at h
  · next key r hkey =>
    obtain ⟨hspells, hs⟩ := spells_of_matchKey foreign_equals hkey
    obtain ⟨last, hlast, rfl⟩ := map_eq_some_iff.mp h
    refine ⟨key, r, hspells, hb, hs, fun hnil => ?_, rfl, rfl⟩
    rw [hnil] at hlast
    cases hlast
  · cases h

theorem boundary_key (key r r' : Text) :
    boundary before (key ++ 61 :: r) = boundary before (key ++ 61 :: r') := by
  cases key <;> rfl

theorem secretKV_spelled (hk : Spells key) (hb : boundary before (key ++ 61 :: r) = true)
    (hr : r.takeWhile (!isSpace ·) ≠ []) : ∃ last, secretKV before (key ++ 61 :: r) =
      some ⟨key ++ text "=***", last, r.dropWhile (!isSpace ·)⟩ := by
  refine ⟨(r.takeWhile (!isSpace ·)).getLast hr, ?_⟩
  simp only [secretKV, if_pos hb, hk.matchKey foreign_equals, getLast?_eq_some_getLast hr,
    map_some]

theorem secretKV_advances : Advances secretKV := by
  intro before s m h
  obtain ⟨key, r, -, -, rfl, -, -, hrest⟩ := secretKV_eq_some h
  have hle := (r.dropWhile_sublist (!isSpace ·)).length_le
  rw [hrest, length_append, length_cons]
  omega

/-- The texts differ only in runs that follow a secret key and an equals sign. -/
inductive SameRuns : Option UInt8 → Text → Text → Prop
  | nil {before : Option UInt8} : SameRuns before [] []
  | cons {before : Option UInt8} {s s' : Text} (b : UInt8) :
      SameRuns (some b) s s' → SameRuns before (b :: s) (b :: s')
  | run {before : Option UInt8} {key run run' s s' : Text} : Spells key →
      boundary before (key ++ [61]) = true → IsRun run → IsRun run' → RunEnds s → RunEnds s' →
      SameRuns none s s' →
      SameRuns before (key ++ 61 :: (run ++ s)) (key ++ 61 :: (run' ++ s'))

theorem SameRuns.symm (h : SameRuns before s s') : SameRuns before s' s := by
  induction h with
  | nil => exact .nil
  | cons b _ ih => exact .cons b ih
  | run hk hb hrun hrun' hs hs' _ ih => exact .run hk hb hrun' hrun hs' hs ih

theorem SameRuns.dropRun (h : SameRuns before s s') :
    SameRuns none (s.dropWhile (!isSpace ·)) (s'.dropWhile (!isSpace ·)) ∧
      (s.takeWhile (!isSpace ·) = [] ↔ s'.takeWhile (!isSpace ·) = []) := by
  induction h with
  | nil => exact ⟨.nil, Iff.rfl⟩
  | cons b hs ih =>
    rw [dropWhile_cons, dropWhile_cons, takeWhile_cons, takeWhile_cons]
    cases hb : isSpace b with
    | true => exact ⟨.cons b hs, by simp⟩
    | false => exact ⟨ih.1, by simp⟩
  | @run before key run run' s s' hk _ hrun hrun' hs hs' hrest _ =>
    have hwhole {run : Text} (hrun : IsRun run) : IsRun (key ++ 61 :: run) := by
      refine ⟨by simp, fun b hb => ?_⟩
      rcases mem_append.mp hb with hb | hb
      · cases hspace : isSpace b with
        | false => rfl
        | true => exact absurd hb (hk.not_mem (foreign_of_isSpace hspace))
      · rcases mem_cons.mp hb with rfl | hb
        · rfl
        · exact hrun.all b hb
    rw [← cons_append, ← cons_append, ← append_assoc, ← append_assoc,
      (hwhole hrun).dropWhile hs, (hwhole hrun').dropWhile hs', (hwhole hrun).takeWhile hs,
      (hwhole hrun').takeWhile hs']
    exact ⟨hrest, by simp⟩

theorem SameRuns.at_equals {p : Text} (h : SameRuns before (p ++ 61 :: r) s') (hp : 61 ∉ p) :
    ∃ r', s' = p ++ 61 :: r' ∧
      SameRuns none (r.dropWhile (!isSpace ·)) (r'.dropWhile (!isSpace ·)) ∧
      (r.takeWhile (!isSpace ·) = [] ↔ r'.takeWhile (!isSpace ·) = []) := by
  generalize hs : p ++ 61 :: r = s at h
  induction h generalizing p with
  | nil => simp at hs
  | cons b hrest ih =>
    cases p with
    | nil =>
      obtain ⟨rfl, rfl⟩ := List.cons.inj hs
      exact ⟨_, rfl, hrest.dropRun⟩
    | cons a p =>
      obtain ⟨rfl, htail⟩ := List.cons.inj hs
      obtain ⟨r', rfl, hdrop⟩ := ih (fun hmem => hp (mem_cons_of_mem a hmem)) htail
      exact ⟨r', rfl, hdrop⟩
  | @run before key run run' t t' hk _ hrun hrun' ht ht' hrest _ =>
    obtain ⟨rfl, rfl⟩ := Lib.append_cons_inj hp (hk.not_mem foreign_equals) hs
    refine ⟨run' ++ t', rfl, ?_, ?_⟩
    · rw [hrun.dropWhile ht, hrun'.dropWhile ht']
      exact hrest
    · rw [hrun.takeWhile ht, hrun'.takeWhile ht']
      exact iff_of_false hrun.ne_nil hrun'.ne_nil

theorem SameRuns.matched {m : Match} (h : SameRuns before s s') (hm : secretKV before s = some m) :
    ∃ m', secretKV before s' = some m' ∧ m'.replacement = m.replacement ∧
      SameRuns none m.rest m'.rest := by
  obtain ⟨key, r, hk, hb, rfl, hne, hreplacement, hrest⟩ := secretKV_eq_some hm
  obtain ⟨r', rfl, hdrop, htake⟩ := h.at_equals (hk.not_mem foreign_equals)
  obtain ⟨last, hm'⟩ := secretKV_spelled hk (boundary_key key r r' ▸ hb) (htake.not.mp hne)
  exact ⟨_, hm', hreplacement.symm, hrest ▸ hdrop⟩

theorem secretKV_foreign {b : UInt8} (hb : Foreign b) : secretKV before (b :: s) = none := by
  cases hm : secretKV before (b :: s) with
  | none => rfl
  | some m =>
    obtain ⟨key, r, hk, -, heq, -⟩ := secretKV_eq_some hm
    cases key with
    | nil => exact absurd rfl (spells_ne_nil hk)
    | cons a key =>
      obtain ⟨rfl, -⟩ := List.cons.inj heq
      exact absurd mem_cons_self (hk.not_mem hb)

theorem replaced_of_runEnds (hs : RunEnds s) (before before' : Option UInt8) :
    replaced secretKV before s = replaced secretKV before' s := by
  cases s with
  | nil => rfl
  | cons b s =>
    have hb : Foreign b := foreign_of_isSpace hs
    rw [replaced_of_none (secretKV_foreign hb), replaced_of_none (secretKV_foreign hb)]

theorem runEnds_dropWhile (s : Text) : RunEnds (s.dropWhile (!isSpace ·)) := by
  unfold RunEnds
  cases hd : s.dropWhile (!isSpace ·) with
  | nil => rfl
  | cons b t =>
    have hb := head?_dropWhile_not (!isSpace ·) s
    rw [hd] at hb
    simpa using hb

theorem SameRuns.replaced_eq (h : SameRuns before s s') :
    replaced secretKV before s = replaced secretKV before s' := by
  induction hn : s.length using Nat.strong_induction_on generalizing before s s' with
  | _ n ih =>
    subst hn
    cases hm : secretKV before s with
    | some m =>
      obtain ⟨m', hm', hreplacement, hrest⟩ := h.matched hm
      have hends {before : Option UInt8} {s : Text} {m : Match}
          (hm : secretKV before s = some m) : RunEnds m.rest := by
        obtain ⟨key, r, -, -, -, -, -, heq⟩ := secretKV_eq_some hm
        rw [heq]
        exact runEnds_dropWhile r
      rw [replaced_of_some secretKV_advances hm, replaced_of_some secretKV_advances hm',
        hreplacement, replaced_of_runEnds (hends hm) _ none, replaced_of_runEnds (hends hm') _ none,
        ih m.rest.length (secretKV_advances _ _ _ hm) hrest rfl]
    | none =>
      have hm' : secretKV before s' = none := by
        cases hm' : secretKV before s' with
        | none => rfl
        | some m' =>
          obtain ⟨m, hsome, -⟩ := h.symm.matched hm'
          rw [hm] at hsome
          cases hsome
      cases h with
      | nil => rfl
      | cons b hrest =>
        rw [replaced_of_none hm, replaced_of_none hm',
          ih _ (Nat.lt_succ_self _) hrest rfl]
      | @run _ key run run' t t' hk hb hrun _ ht _ _ =>
        obtain ⟨last, hsome⟩ := secretKV_spelled hk (boundary_key key [] (run ++ t) ▸ hb) (by
          rw [hrun.takeWhile ht]
          exact hrun.ne_nil)
        rw [hm] at hsome
        cases hsome

end KeyValue

section Json

variable {before : Option UInt8} {s r c k w w' v key rest t : Text} {b : UInt8}

def Blank (w : Text) : Prop := ∀ b ∈ w, isSpace b = true

/-- What stands between the quotes of a string: a quote or a backslash is escaped. -/
inductive Content : Text → Prop
  | nil : Content []
  | plain {b : UInt8} {c : Text} : b ≠ 34 → b ≠ 92 → Content c → Content (b :: c)
  | escape {b : UInt8} {c : Text} : Content c → Content (92 :: b :: c)

def quoted (c : Text) : Text := 34 :: (c ++ [34])

/-- A member with a string as its value, from the quote that opens a name. -/
def member (k w w' v : Text) : Text := 34 :: (k ++ 34 :: (w ++ 58 :: (w' ++ 34 :: (v ++ [34]))))

theorem dropWhile_blank (hw : Blank w) (hb : isSpace b = false) :
    (w ++ b :: r).dropWhile isSpace = b :: r := by
  rw [dropWhile_append_of_pos hw, dropWhile_cons, hb]
  rfl

theorem dropWhile_quote (hv : 34 ∉ v) : (v ++ 34 :: r).dropWhile (· != 34) = 34 :: r := by
  rw [dropWhile_append_of_pos]
  · rfl
  · intro b hb
    have hne : b ≠ 34 := fun heq => hv (heq ▸ hb)
    simpa using hne

theorem quoted_append (c r : Text) : quoted c ++ r = 34 :: (c ++ 34 :: r) := by simp [quoted]

theorem member_eq : member k w w' v = quoted k ++ (w ++ 58 :: (w' ++ quoted v)) := by
  simp [member, quoted]

theorem secretJSON_member (hk : Spells key) (hw : Blank w) (hw' : Blank w') (hv : 34 ∉ v) :
    secretJSON before (member key w w' v ++ rest) =
      some ⟨34 :: key ++ text "\":\"***\"", 34, rest⟩ := by
  have hmember : member key w w' v ++ rest =
      34 :: (key ++ 34 :: (w ++ 58 :: (w' ++ 34 :: (v ++ 34 :: rest)))) := by
    simp [member]
  rw [hmember]
  simp only [secretJSON, hk.matchKey foreign_quote, dropWhile_blank hw (b := 58) rfl,
    dropWhile_blank hw' (b := 34) rfl, dropWhile_quote hv]

theorem exists_blank (s : Text) : ∃ w, Blank w ∧ s = w ++ s.dropWhile isSpace :=
  ⟨s.takeWhile isSpace, fun _ => mem_takeWhile_imp, (takeWhile_append_dropWhile).symm⟩

theorem secretJSON_eq_some {m : Match} (h : secretJSON before s = some m) :
    ∃ key w w' v, Spells key ∧ Blank w ∧ Blank w' ∧ 34 ∉ v ∧ s = member key w w' v ++ m.rest := by
  unfold secretJSON at h
  split at h
  · next s =>
    split at h
    · next key s₁ hkey =>
      obtain ⟨hk, rfl⟩ := spells_of_matchKey foreign_quote hkey
      obtain ⟨w, hw, hs₁⟩ := exists_blank s₁
      split at h
      · next s₂ hcolon =>
        obtain ⟨w', hw', hs₂⟩ := exists_blank s₂
        split at h
        · next s₃ hopen =>
          split at h
          · next s₄ hclose =>
            cases h
            refine ⟨key, w, w', s₃.takeWhile (· != 34), hk, hw, hw', fun hmem => ?_, ?_⟩
            · simpa using mem_takeWhile_imp hmem
            · have hs₃ : s₃ = s₃.takeWhile (· != 34) ++ 34 :: s₄ := by
                rw [← hclose, takeWhile_append_dropWhile]
              rw [hcolon] at hs₁
              rw [hopen] at hs₂
              simp [member, hs₁, hs₂, ← hs₃]
          · cases h
        · cases h
      · cases h
    · cases h
  · cases h

theorem secretJSON_advances : Advances secretJSON := by
  intro before s m h
  obtain ⟨key, w, w', v, -, -, -, -, rfl⟩ := secretJSON_eq_some h
  simp [member]
  omega

theorem Content.drop {p : Text} (h : Content (p ++ b :: r)) : Content (b :: r) ∨ Content r := by
  generalize hc : p ++ b :: r = c at h
  induction h generalizing p with
  | nil => simp at hc
  | plain hquote hslash hrest ih =>
    cases p with
    | nil =>
      rw [nil_append] at hc
      exact .inl (hc ▸ .plain hquote hslash hrest)
    | cons a p => exact ih (tail_eq_of_cons_eq hc)
  | escape hrest ih =>
    match p with
    | [] =>
      rw [nil_append] at hc
      exact .inl (hc ▸ .escape hrest)
    | [a] =>
      obtain ⟨rfl, rfl⟩ := List.cons.inj (tail_eq_of_cons_eq hc)
      exact .inr hrest
    | a :: a' :: p => exact ih (tail_eq_of_cons_eq (tail_eq_of_cons_eq hc))

theorem Content.split {p t : Text} (h : Content c) (hquote : 34 ∉ p) (hslash : 92 ∉ p)
    (heq : c ++ 34 :: t = p ++ 34 :: r) : c = p ∧ t = r := by
  induction h generalizing p with
  | nil =>
    cases p with
    | nil => exact ⟨rfl, tail_eq_of_cons_eq heq⟩
    | cons a p =>
      have ha : 34 = a := head_eq_of_cons_eq heq
      exact absurd (ha ▸ mem_cons_self) hquote
  | @plain b c hb _ _ ih =>
    cases p with
    | nil => exact absurd (head_eq_of_cons_eq heq) hb
    | cons a p =>
      obtain ⟨rfl, htail⟩ := List.cons.inj heq
      obtain ⟨rfl, ht⟩ := ih (fun hmem => hquote (mem_cons_of_mem b hmem))
        (fun hmem => hslash (mem_cons_of_mem b hmem)) htail
      exact ⟨rfl, ht⟩
  | escape _ _ =>
    cases p with
    | nil => cases head_eq_of_cons_eq heq
    | cons a p =>
      have ha : 92 = a := head_eq_of_cons_eq heq
      exact absurd (ha ▸ mem_cons_self) hslash

/-- Whatever secret name ends before it, no match goes on there. -/
def Unlinked (t : Text) : Prop :=
  ∀ key, Spells key → secretJSON none (34 :: (key ++ 34 :: t)) = none

theorem Content.spells_of_some {m : Match} (h : Content c)
    (hm : secretJSON before (34 :: (c ++ 34 :: t)) = some m) : Spells c := by
  obtain ⟨key, w, w', v, hk, -, -, -, heq⟩ := secretJSON_eq_some hm
  have htail : c ++ 34 :: t = key ++ 34 :: (w ++ 58 :: (w' ++ 34 :: (v ++ 34 :: m.rest))) := by
    simpa [member] using heq
  obtain ⟨rfl, -⟩ := h.split (hk.not_mem foreign_quote) (hk.not_mem foreign_backslash) htail
  exact hk

theorem Content.secretJSON_none (h : Content c) (ht : Spells c → Unlinked t) :
    secretJSON before (34 :: (c ++ 34 :: t)) = none := by
  cases hm : secretJSON before (34 :: (c ++ 34 :: t)) with
  | none => rfl
  | some m =>
    have hk := h.spells_of_some hm
    have hnone : secretJSON before (34 :: (c ++ 34 :: t)) = none := ht hk c hk
    rw [hm] at hnone
    cases hnone

/-- A quote with none of the letters of a key after it starts no match. -/
theorem secretJSON_closing (hs : ∀ b ∈ s.head?, Foreign b) :
    secretJSON before (34 :: s) = none := by
  cases hm : secretJSON before (34 :: s) with
  | none => rfl
  | some m =>
    obtain ⟨key, w, w', v, hk, -, -, -, heq⟩ := secretJSON_eq_some hm
    rw [member, cons_append, append_assoc] at heq
    obtain ⟨-, rfl⟩ := List.cons.inj heq
    cases key with
    | nil => exact absurd rfl (spells_ne_nil hk)
    | cons a key => exact absurd mem_cons_self (hk.not_mem (hs a rfl))

theorem secretJSON_of_ne (hb : b ≠ 34) : secretJSON before (b :: s) = none := by
  unfold secretJSON
  split
  · next heq => exact absurd (head_eq_of_cons_eq heq) hb
  · rfl

/-- What may follow a value: blanks, then a comma, a closing bracket or the end. -/
def Ends (rest : Text) : Prop :=
  ∀ b ∈ (rest.dropWhile isSpace).head?, b = 44 ∨ b = 93 ∨ b = 125

theorem ends_cons (hb : b = 44 ∨ b = 93 ∨ b = 125) : Ends (b :: r) := by
  have hspace : isSpace b = false := by rcases hb with rfl | rfl | rfl <;> rfl
  rw [Ends, dropWhile_cons, hspace]
  simpa using hb

theorem Ends.blank_append (hrest : Ends rest) (hw : Blank w) : Ends (w ++ rest) := by
  rwa [Ends, dropWhile_append_of_pos hw]

theorem Blank.foreign (hw : Blank w) : ∀ b ∈ w, Foreign b :=
  fun b hb => foreign_of_isSpace (hw b hb)

theorem foreign_colon : Foreign 58 := by decide +kernel

theorem foreign_of_ends (hb : b = 44 ∨ b = 93 ∨ b = 125) : Foreign b := by
  rcases hb with rfl | rfl | rfl <;> decide +kernel

theorem Ends.foreign (hrest : Ends rest) : ∀ b ∈ rest.head?, Foreign b := by
  intro b hb
  cases rest with
  | nil => cases hb
  | cons a rest =>
    obtain rfl : a = b := Option.some.inj hb
    cases hspace : isSpace a with
    | true => exact foreign_of_isSpace hspace
    | false =>
      rw [Ends, dropWhile_cons, hspace] at hrest
      exact foreign_of_ends (hrest _ rfl)

theorem foreign_head_blank (hw : Blank w) (hb : Foreign b) :
    ∀ a ∈ (w ++ b :: r).head?, Foreign a := by
  intro a ha
  cases w with
  | nil =>
    cases ha
    exact hb
  | cons c w =>
    cases ha
    exact hw.foreign _ mem_cons_self

theorem Ends.unlinked (hrest : Ends rest) : Unlinked rest := by
  intro key hk
  simp only [secretJSON, hk.matchKey foreign_quote]
  split
  · next heq =>
    rw [Ends, heq] at hrest
    rcases hrest 58 rfl with h | h | h <;> cases h
  · rfl

theorem unlinked_of_colon (hw : Blank w) (hw' : Blank w') (hquote : b ≠ 34)
    (hspace : isSpace b = false) : Unlinked (w ++ 58 :: (w' ++ b :: r)) := by
  intro key hk
  simp only [secretJSON, hk.matchKey foreign_quote, dropWhile_blank hw (b := 58) rfl,
    dropWhile_blank hw' hspace]
  split
  · next heq => exact absurd (head_eq_of_cons_eq heq) hquote
  · rfl

theorem Content.replaced_eq (h : Content c) (ht : Unlinked t)
    (hhead : ∀ b ∈ t.head?, Foreign b) (before : Option UInt8) :
    replaced secretJSON before (c ++ 34 :: t) = c ++ 34 :: replaced secretJSON (some 34) t := by
  induction h generalizing before with
  | nil => exact replaced_of_none (secretJSON_closing hhead)
  | @plain b c hb _ _ ih =>
    rw [cons_append, replaced_of_none (secretJSON_of_ne hb), ih]
    rfl
  | @escape b c hc ih =>
    have hnone : secretJSON (some 92) (b :: (c ++ 34 :: t)) = none := by
      by_cases hb : b = 34
      · rw [hb]
        exact hc.secretJSON_none fun _ => ht
      · exact secretJSON_of_ne hb
    rw [cons_append, cons_append, replaced_of_none (secretJSON_of_ne (by decide)),
      replaced_of_none hnone, ih]
    rfl

end Json

section Pieces

/-- A text is whole, or it breaks off after a secret. -/
inductive Extent
  | whole
  | cut

/-- What may follow it. -/
def Extent.Ends : Extent → Text → Prop
  | whole => Errs.Ends
  | cut => fun _ => True

variable {x : Extent} {find : Option UInt8 → Text → Option Match}
  {I : Option UInt8 → Text → Text → Prop}
  {s t u out out' p w w' : Text} {b : UInt8}

/-- The pass makes `out` of `s`, which `u` follows; it may take `I` for granted there. -/
def Reads (find : Option UInt8 → Text → Option Match) (I : Option UInt8 → Text → Text → Prop)
    (u s out : Text) : Prop :=
  ∀ before, I before s u →
    replaced find before (s ++ u) = out ++ replaced find (s.getLast?.or before) u

/-- The bytes between values. -/
def Layout (p : Text) : Prop := ∀ b ∈ p, b ∈ [44, 58, 91, 93, 123, 125] ∨ isSpace b = true

/-- A pass for which `I` holds of the parts of a text, and which finds nothing between values. -/
structure Passes (find : Option UInt8 → Text → Option Match)
    (I : Option UInt8 → Text → Text → Prop) : Prop where
  left : ∀ before s t u, I before (s ++ t) u → I before s (t ++ u)
  right : ∀ before s t u, I before (s ++ t) u → I (s.getLast?.or before) t u
  quiet : ∀ b, b ∈ [44, 58, 91, 93, 123, 125] ∨ isSpace b = true →
    ∀ before s, find before (b :: s) = none

theorem Blank.layout (hw : Blank w) : Layout w := fun b hb => .inr (hw b hb)

theorem Reads.append (hs : Reads find I (t ++ u) s out) (hpass : Passes find I)
    (ht : Reads find I u t out') : Reads find I u (s ++ t) (out ++ out') := by
  intro before hI
  rw [append_assoc, hs before (hpass.left _ _ _ _ hI), ht _ (hpass.right _ _ _ _ hI),
    getLast?_append, Option.or_assoc, append_assoc]

theorem Reads.cons (hs : Reads find I u s out) (hpass : Passes find I)
    (hb : ∀ before, find before (b :: (s ++ u)) = none) : Reads find I u (b :: s) (b :: out) := by
  have hsingle : Reads find I (s ++ u) [b] [b] := fun before _ => replaced_of_none (hb before)
  exact hsingle.append hpass hs

theorem reads_nil : Reads find I u [] [] := fun _ _ => rfl

theorem Reads.layout (hs : Reads find I u s out) (hpass : Passes find I) (hp : Layout p) :
    Reads find I u (p ++ s) (p ++ out) := by
  induction p with
  | nil => exact hs
  | cons b p ih =>
    obtain ⟨hb, hp⟩ := forall_mem_cons.mp hp
    exact (ih hp).cons hpass fun _ => hpass.quiet b hb _ _

theorem reads_layout (hpass : Passes find I) (hp : Layout p) : Reads find I u p p := by
  simpa using reads_nil.layout hpass hp

theorem Reads.padded (hs : ∀ u, x.Ends u → Reads find I u s out) (hpass : Passes find I)
    (hw : Blank w) (hw' : Blank w') (hu : x.Ends u) :
    Reads find I u (w ++ (s ++ w')) (w ++ (out ++ w')) := by
  have hends : x.Ends (w' ++ u) := by
    cases x with
    | whole => exact Ends.blank_append hu hw'
    | cut => trivial
  exact ((hs _ hends).append hpass (reads_layout hpass hw'.layout)).layout hpass hw.layout

theorem Reads.more (hs : ∀ u, Extent.whole.Ends u → Reads find I u s out) (hpass : Passes find I)
    (ht : Reads find I u t out') : Reads find I u (s ++ 44 :: t) (out ++ 44 :: out') :=
  (hs _ (ends_cons (.inl rfl))).append hpass
    (ht.cons hpass fun _ => hpass.quiet 44 (.inl (by decide)) _ _)

theorem Reads.linked (hs : Reads find I u s out) (hpass : Passes find I) (hw : Blank w)
    (hw' : Blank w') : Reads find I u (w ++ 58 :: (w' ++ s)) (w ++ 58 :: (w' ++ out)) :=
  ((hs.layout hpass hw'.layout).cons hpass fun _ =>
    hpass.quiet 58 (.inl (by decide)) _ _).layout hpass hw.layout

end Pieces

section Strings

variable {before : Option UInt8} {s u c k w w' key p : Text} {b : UInt8}

/-- The second pass makes `out` of `s`, which `u` follows. -/
abbrev Emits (u s out : Text) : Prop := Reads secretJSON (fun _ _ _ => True) u s out

theorem emitting : Passes secretJSON fun _ _ _ => True where
  left := fun _ _ _ _ _ => trivial
  right := fun _ _ _ _ _ => trivial
  quiet := by
    intro b hb before s
    refine secretJSON_of_ne fun heq => ?_
    subst heq
    exact absurd hb (by decide)

theorem replaced_json (before : Option UInt8) (s : Text) :
    replaced secretJSON before s = replaced secretJSON none s := by
  cases s <;> rfl

theorem emits_iff {out : Text} : Emits u s out ↔
    replaced secretJSON none (s ++ u) = out ++ replaced secretJSON none u := by
  constructor
  · intro h
    rw [h none trivial, replaced_json]
  · intro h before _
    rw [replaced_json before, h, replaced_json (s.getLast?.or before)]

theorem emits_unquoted (hs : 34 ∉ s) : Emits u s s := by
  induction s with
  | nil => exact reads_nil
  | cons b s ih =>
    have hb : b ≠ 34 := fun heq => hs (heq ▸ mem_cons_self)
    exact (ih fun hmem => hs (mem_cons_of_mem b hmem)).cons emitting fun _ =>
      secretJSON_of_ne hb

theorem Content.emits (hc : Content c) (hu : Ends u) : Emits u (quoted c) (quoted c) := by
  rw [emits_iff, quoted_append, quoted_append,
    replaced_of_none (hc.secretJSON_none fun _ => hu.unlinked),
    hc.replaced_eq hu.unlinked hu.foreign, replaced_json]

/-- The match of a secret member ends with it. -/
theorem emits_secret (hk : Spells key) (hc : 34 ∉ c) (hw : Blank w) (hw' : Blank w') :
    Emits u (member key w w' c) (34 :: key ++ text "\":\"***\"") := by
  rw [emits_iff, replaced_of_some secretJSON_advances (secretJSON_member hk hw hw' hc),
    replaced_json]

/-- From the quote before a name that spells a secret key, the match goes on to the first quote of
the value. -/
theorem emits_spelled (hk : Spells key) (hc : Content c) (hw : Blank w) (hw' : Blank w') :
    ∃ out, ∀ u, Ends u → Emits u (member key w w' c) out := by
  by_cases hquote : 34 ∈ c
  · obtain ⟨v, c', rfl, hv⟩ := eq_append_cons_of_mem hquote
    have hc' : Content c' := by
      rcases hc.drop with h | h
      · cases h with
        | plain hne _ _ => exact absurd rfl hne
      · exact h
    refine ⟨34 :: key ++ text "\":\"***\"" ++ (c' ++ [34]), fun u hu => ?_⟩
    have hmember : member key w w' (v ++ 34 :: c') ++ u =
        member key w w' v ++ (c' ++ 34 :: u) := by
      simp [member]
    rw [emits_iff, hmember, replaced_of_some secretJSON_advances (secretJSON_member hk hw hw' hv),
      hc'.replaced_eq hu.unlinked hu.foreign, replaced_json]
    simp
  · exact ⟨_, fun _ _ => emits_secret hk hquote hw hw'⟩

/-- What the pass makes of a member with a string is its own affair: a match may start at any quote
of the name, and it ends within the value. -/
theorem emits_member (hk : Content k) (hc : Content c) (hw : Blank w) (hw' : Blank w') :
    ∃ out, ∀ u, Ends u → Emits u (member k w w' c) out := by
  have hvalue (u : Text) (hu : Ends u) :
      Emits u (w ++ 58 :: (w' ++ quoted c)) (w ++ 58 :: (w' ++ quoted c)) :=
    (hc.emits hu).linked emitting hw hw'
  have hopen {k : Text} (hk : Content k)
      (h : ∃ out, ∀ u, Ends u → Emits u (k ++ 34 :: (w ++ 58 :: (w' ++ quoted c))) out) :
      ∃ out, ∀ u, Ends u → Emits u (member k w w' c) out := by
    by_cases hs : Spells k
    · exact emits_spelled hs hc hw hw'
    · obtain ⟨out, hout⟩ := h
      refine ⟨34 :: out, fun u hu => (hout u hu).cons emitting fun _ => ?_⟩
      rw [append_assoc]
      exact hk.secretJSON_none fun h => absurd h hs
  refine hopen hk ?_
  -- from the end of the name to its start: the quotes in it are escaped
  induction hk with
  | nil =>
    refine ⟨_, fun u hu => (hvalue u hu).cons emitting fun _ => secretJSON_closing ?_⟩
    rw [append_assoc]
    exact foreign_head_blank hw foreign_colon
  | plain hb _ _ ih =>
    obtain ⟨out, hout⟩ := ih
    exact ⟨_, fun u hu => (hout u hu).cons emitting fun _ => secretJSON_of_ne hb⟩
  | @escape b k hk ih =>
    by_cases hb : b = 34
    · subst hb
      obtain ⟨out, hout⟩ := hopen hk ih
      exact ⟨92 :: out, fun u hu => (hout u hu).cons emitting fun _ => secretJSON_of_ne (by decide)⟩
    · obtain ⟨out, hout⟩ := ih
      exact ⟨_, fun u hu => ((hout u hu).cons emitting fun _ => secretJSON_of_ne hb).cons emitting
        fun _ => secretJSON_of_ne (by decide)⟩

end Strings

section Grammar

inductive Enclosure
  | array
  | object

def Enclosure.opening : Enclosure → UInt8
  | array => 91
  | object => 123

def Enclosure.closing : Enclosure → UInt8
  | array => 93
  | object => 125

inductive Kind
  | value
  /-- An element or a member, with the blanks around it. -/
  | item (e : Enclosure)
  /-- One or more of them, with commas between. -/
  | items (e : Enclosure)

/-- A number or a literal, of which only this matters. -/
structure Scalar (v : Text) : Prop where
  ne_nil : v ≠ []
  all : ∀ b ∈ v, b ≠ 34 ∧ b ≠ 61 ∧ isSpace b = false

/-- Where a text breaks off, nothing is closed. -/
def Enclosure.closed (e : Enclosure) : Extent → Text
  | .whole => [e.closing]
  | .cut => []

/-- Two JSON texts that differ only in the strings of members with secret names. The names are
written without escapes, and there is no quote in the strings. -/
inductive SameJson : Extent → Kind → Text → Text → Prop
  | scalar {v : Text} : Scalar v → SameJson .whole .value v v
  | string {c : Text} : Content c → SameJson .whole .value (quoted c) (quoted c)
  | empty (e : Enclosure) {w : Text} : Blank w →
      SameJson .whole .value (e.opening :: (w ++ [e.closing])) (e.opening :: (w ++ [e.closing]))
  | enclosed {x : Extent} {e : Enclosure} {s s' : Text} : SameJson x (.items e) s s' →
      SameJson x .value (e.opening :: (s ++ e.closed x)) (e.opening :: (s' ++ e.closed x))
  | element {x : Extent} {w w' v v' : Text} : Blank w → Blank w' → SameJson x .value v v' →
      SameJson x (.item .array) (w ++ (v ++ w')) (w ++ (v' ++ w'))
  | entry {x : Extent} {w w' k w₁ w₂ v v' : Text} : Blank w → Blank w' → Content k → Blank w₁ →
      Blank w₂ → SameJson x .value v v' →
      SameJson x (.item .object) (w ++ ((quoted k ++ (w₁ ++ 58 :: (w₂ ++ v))) ++ w'))
        (w ++ ((quoted k ++ (w₁ ++ 58 :: (w₂ ++ v'))) ++ w'))
  | secret {x : Extent} {w w' key w₁ w₂ c c' : Text} : Blank w → Blank w' → Spells key →
      Blank w₁ → Blank w₂ → Content c → Content c' → 34 ∉ c → 34 ∉ c' →
      SameJson x (.item .object) (w ++ (member key w₁ w₂ c ++ w'))
        (w ++ (member key w₁ w₂ c' ++ w'))
  | single {x : Extent} {e : Enclosure} {s s' : Text} : SameJson x (.item e) s s' →
      SameJson x (.items e) s s'
  | more {x : Extent} {e : Enclosure} {s s' t t' : Text} : SameJson .whole (.item e) s s' →
      SameJson x (.items e) t t' → SameJson x (.items e) (s ++ 44 :: t) (s' ++ 44 :: t')

variable {x : Extent} {e : Enclosure} {s s' t u v v' w w' w₁ w₂ k out out' : Text} {kind : Kind}

/-- Two texts that differ have a last secret. -/
theorem SameJson.last (h : SameJson x kind s s') :
    s = s' ∨ ∃ q q' u, s = q ++ u ∧ s' = q' ++ u ∧ SameJson .cut kind q q' := by
  have hblank : Blank [] := nofun
  induction h with
  | scalar _ | string _ | empty _ _ => exact .inl rfl
  | @enclosed x e _ _ _ ih =>
    rcases ih with rfl | ⟨q, q', u, rfl, rfl, hq⟩
    · exact .inl rfl
    · exact .inr ⟨_, _, u ++ e.closed x, by simp [Enclosure.closed], by simp [Enclosure.closed],
        .enclosed hq⟩
  | @element x w w' v v' hw _ _ ih =>
    rcases ih with rfl | ⟨q, q', u, rfl, rfl, hq⟩
    · exact .inl rfl
    · exact .inr ⟨_, _, u ++ w', by simp, by simp, .element hw hblank hq⟩
  | @entry x w w' k w₁ w₂ v v' hw _ hk hw₁ hw₂ _ ih =>
    rcases ih with rfl | ⟨q, q', u, rfl, rfl, hq⟩
    · exact .inl rfl
    · exact .inr ⟨_, _, u ++ w', by simp, by simp, .entry hw hblank hk hw₁ hw₂ hq⟩
  | @secret x w w' key w₁ w₂ c c' hw _ hk hw₁ hw₂ hc hc' hquote hquote' =>
    exact .inr ⟨_, _, w', by simp, by simp,
      .secret hw hblank hk hw₁ hw₂ hc hc' hquote hquote'⟩
  | single _ ih =>
    rcases ih with heq | ⟨q, q', u, hs, hs', hq⟩
    · exact .inl heq
    · exact .inr ⟨q, q', u, hs, hs', .single hq⟩
  | @more x e s s' t t' hs _ ih ihs =>
    rcases ihs with rfl | ⟨q, q', u, rfl, rfl, hq⟩
    · rcases ih with rfl | ⟨q, q', u, rfl, rfl, hq⟩
      · exact .inl rfl
      · exact .inr ⟨q, q', u ++ 44 :: t, by simp, by simp, .single hq⟩
    · exact .inr ⟨_, _, u, by simp, by simp, .more hs hq⟩

theorem SameJson.getLast?_eq (h : SameJson x kind s s') : s.getLast? = s'.getLast? := by
  induction h with
  | scalar _ | string _ | empty _ _ => rfl
  | enclosed _ ih | element _ _ _ ih | entry _ _ _ _ _ _ ih | more _ _ _ ih =>
    simp [getLast?_cons, ih]
  | secret => simp [member, getLast?_cons]
  | single _ ih => exact ih

theorem Reads.enclosed {find : Option UInt8 → Text → Option Match}
    {I : Option UInt8 → Text → Text → Prop} (hs : ∀ u, x.Ends u → Reads find I u s out)
    (hpass : Passes find I) :
    Reads find I u (e.opening :: (s ++ e.closed x)) (e.opening :: (out ++ e.closed x)) := by
  have hopening {s out : Text} (hs : Reads find I u s out) :
      Reads find I u (e.opening :: s) (e.opening :: out) :=
    hs.cons hpass fun _ => hpass.quiet e.opening (.inl (by cases e <;> decide)) _ _
  have hclosing : Reads find I u (e.closed x) (e.closed x) := by
    refine reads_layout hpass fun b hb => .inl ?_
    cases x <;> cases e <;> simp_all [Enclosure.closed, Enclosure.closing]
  have hends : x.Ends (e.closed x ++ u) := by
    cases x with
    | whole => exact ends_cons (.inr (by cases e <;> simp [Enclosure.closing]))
    | cut => trivial
  exact hopening ((hs _ hends).append hpass hclosing)

/-- The first byte of a value that is not a string. -/
def Opens (v : Text) : Prop := ∃ b r, v = b :: r ∧ b ≠ 34 ∧ isSpace b = false

theorem opens_opening (r : Text) : Opens (e.opening :: r) :=
  ⟨e.opening, r, rfl, by cases e <;> decide, by cases e <;> rfl⟩

theorem SameJson.value_cases (h : SameJson x .value v v') :
    (∃ c, Content c ∧ x = .whole ∧ v = quoted c ∧ v' = quoted c) ∨ (Opens v ∧ Opens v') := by
  cases h with
  | scalar hv =>
    obtain ⟨b, r, rfl⟩ := exists_cons_of_ne_nil hv.ne_nil
    obtain ⟨hquote, -, hspace⟩ := hv.all b mem_cons_self
    exact .inr ⟨⟨b, r, rfl, hquote, hspace⟩, ⟨b, r, rfl, hquote, hspace⟩⟩
  | string hc => exact .inl ⟨_, hc, rfl, rfl, rfl⟩
  | empty e _ => exact .inr ⟨opens_opening _, opens_opening _⟩
  | enclosed _ => exact .inr ⟨opens_opening _, opens_opening _⟩

theorem Emits.entry (hv : Emits u v out) (hopens : Opens v) (hk : Content k) (hw₁ : Blank w₁)
    (hw₂ : Blank w₂) :
    Emits u (quoted k ++ (w₁ ++ 58 :: (w₂ ++ v))) (quoted k ++ (w₁ ++ 58 :: (w₂ ++ out))) := by
  obtain ⟨b, r, rfl, hquote, hspace⟩ := hopens
  have hvalue := emits_iff.mp (hv.linked emitting hw₁ hw₂)
  have hunlinked : Unlinked (w₁ ++ 58 :: (w₂ ++ b :: r) ++ u) := by
    simpa using unlinked_of_colon (r := r ++ u) hw₁ hw₂ hquote hspace
  have hhead : ∀ a ∈ (w₁ ++ 58 :: (w₂ ++ b :: r) ++ u).head?, Foreign a := by
    rw [append_assoc]
    exact foreign_head_blank hw₁ foreign_colon
  rw [emits_iff, append_assoc (quoted k), append_assoc (quoted k), quoted_append,
    quoted_append, replaced_of_none (hk.secretJSON_none fun _ => hunlinked),
    hk.replaced_eq hunlinked hhead, replaced_json, hvalue]

theorem SameJson.emits (h : SameJson x kind s s') :
    ∃ out, ∀ u, x.Ends u → Emits u s out ∧ Emits u s' out := by
  induction h with
  | scalar hv =>
    have hemits {u : Text} := emits_unquoted (u := u) fun hmem => (hv.all 34 hmem).1 rfl
    exact ⟨_, fun u _ => ⟨hemits, hemits⟩⟩
  | string hc => exact ⟨_, fun u hu => ⟨hc.emits hu, hc.emits hu⟩⟩
  | @empty e w hw =>
    have hemits {u : Text} (_ : Extent.whole.Ends u) : Emits u w w :=
      reads_layout emitting hw.layout
    exact ⟨_, fun u _ => ⟨Reads.enclosed @hemits emitting, Reads.enclosed @hemits emitting⟩⟩
  | enclosed _ ih =>
    obtain ⟨out, hout⟩ := ih
    exact ⟨_, fun u _ => ⟨Reads.enclosed (fun u hu => (hout u hu).1) emitting,
      Reads.enclosed (fun u hu => (hout u hu).2) emitting⟩⟩
  | element hw hw' _ ih =>
    obtain ⟨out, hout⟩ := ih
    exact ⟨_, fun u hu => ⟨Reads.padded (fun u hu => (hout u hu).1) emitting hw hw' hu,
      Reads.padded (fun u hu => (hout u hu).2) emitting hw hw' hu⟩⟩
  | entry hw hw' hk hw₁ hw₂ hv ih =>
    obtain ⟨c, hc, rfl, rfl, rfl⟩ | ⟨hopens, hopens'⟩ := hv.value_cases
    · obtain ⟨out, hout⟩ := emits_member hk hc hw₁ hw₂
      rw [member_eq] at hout
      have hpadded (u : Text) (hu : Extent.whole.Ends u) :=
        Reads.padded (x := .whole) hout emitting hw hw' hu
      exact ⟨_, fun u hu => ⟨hpadded u hu, hpadded u hu⟩⟩
    · obtain ⟨out, hout⟩ := ih
      exact ⟨_, fun u hu => ⟨Reads.padded (fun u hu => (hout u hu).1.entry hopens hk hw₁ hw₂)
        emitting hw hw' hu, Reads.padded (fun u hu => (hout u hu).2.entry hopens' hk hw₁ hw₂)
        emitting hw hw' hu⟩⟩
  | secret hw hw' hk hw₁ hw₂ _ _ hc hc' =>
    exact ⟨_, fun u hu => ⟨Reads.padded (fun _ _ => emits_secret hk hc hw₁ hw₂) emitting hw hw' hu,
      Reads.padded (fun _ _ => emits_secret hk hc' hw₁ hw₂) emitting hw hw' hu⟩⟩
  | single _ ih => exact ih
  | more _ _ ih ihs =>
    obtain ⟨out, hout⟩ := ih
    obtain ⟨outs, houts⟩ := ihs
    exact ⟨_, fun u hu => ⟨Reads.more (fun u hu => (hout u hu).1) emitting (houts u hu).1,
      Reads.more (fun u hu => (hout u hu).2) emitting (houts u hu).2⟩⟩

end Grammar

section FirstPass

variable {before : Option UInt8} {s s' c r rest u v key run w₁ w₂ k out : Text} {b : UInt8}
  {x : Extent} {kind : Kind}

/-- No run that the first pass replaces and that begins in `s`, which `u` follows, goes on over a
quote. -/
def RunsWithin (before : Option UInt8) (s u : Text) : Prop :=
  ∀ p key r, s = p ++ (key ++ 61 :: r) → Spells key →
    boundary (p.getLast?.or before) (key ++ [61]) = true → 34 ∉ (r ++ u).takeWhile (!isSpace ·)

/-- The first pass makes `out` of `s`, which `u` follows. -/
abbrev Redacts (u s out : Text) : Prop := Reads secretKV RunsWithin u s out

theorem redacting : Passes secretKV RunsWithin where
  left := by
    intro before s t u h p key r hs hk hb
    rw [← append_assoc]
    exact h p key (r ++ t) (by simp [hs]) hk hb
  right := by
    intro before s t u h p key r ht hk hb
    refine h (s ++ p) key r (by rw [ht, append_assoc]) hk ?_
    rwa [getLast?_append, Option.or_assoc]
  quiet := by
    intro b hb before s
    rcases hb with hb | hb
    · have hall : ∀ b ∈ ([44, 58, 91, 93, 123, 125] : Text), Foreign b := by decide +kernel
      exact secretKV_foreign (hall b hb)
    · exact secretKV_foreign (foreign_of_isSpace hb)

theorem run_before_quote (h : 34 ∉ (r ++ 34 :: rest).takeWhile (!isSpace ·)) :
    (r ++ 34 :: rest).takeWhile (!isSpace ·) = r.takeWhile (!isSpace ·) ∧
      (r ++ 34 :: rest).dropWhile (!isSpace ·) = r.dropWhile (!isSpace ·) ++ 34 :: rest := by
  induction r with
  | nil => exact absurd mem_cons_self h
  | cons b r ih =>
    rw [cons_append, takeWhile_cons, dropWhile_cons, takeWhile_cons,
      dropWhile_cons]
    rw [cons_append, takeWhile_cons] at h
    cases hb : isSpace b with
    | true => simp
    | false =>
      rw [hb] at h
      obtain ⟨htake, hdrop⟩ := ih fun hmem => h (mem_cons_of_mem b hmem)
      simp [htake, hdrop]

theorem exists_of_append_quote (hkey : 34 ∉ key) (h : c ++ 34 :: rest = key ++ 61 :: r) :
    ∃ r', c = key ++ 61 :: r' ∧ r = r' ++ 34 :: rest := by
  induction key generalizing c with
  | nil =>
    cases c with
    | nil => cases head_eq_of_cons_eq h
    | cons a c =>
      obtain ⟨rfl, rfl⟩ := List.cons.inj h
      exact ⟨c, rfl, rfl⟩
  | cons a key ih =>
    cases c with
    | nil =>
      have ha : 34 = a := head_eq_of_cons_eq h
      exact absurd (ha ▸ mem_cons_self) hkey
    | cons b c =>
      obtain ⟨rfl, htail⟩ := List.cons.inj h
      obtain ⟨r', rfl, hr⟩ := ih (fun hmem => hkey (mem_cons_of_mem b hmem)) htail
      exact ⟨r', rfl, hr⟩

/-- Induction along the matches of the first pass. -/
theorem replaced_induction {P : Option UInt8 → Text → Text → Prop} (hnil : ∀ before, P before [] [])
    (hsome : ∀ before key r out, Spells key → boundary before (key ++ [61]) = true →
      r.takeWhile (!isSpace ·) ≠ [] → (∀ before, P before (r.dropWhile (!isSpace ·)) out) →
      P before (key ++ 61 :: r) (key ++ text "=***" ++ out))
    (hnone : ∀ before b s out, secretKV before (b :: s) = none → P (some b) s out →
      P before (b :: s) (b :: out)) (before : Option UInt8) (s : Text) :
    P before s (replaced secretKV before s) := by
  induction hn : s.length using Nat.strong_induction_on generalizing before s with
  | _ n ih =>
    subst hn
    cases s with
    | nil => exact hnil before
    | cons b s =>
      cases hm : secretKV before (b :: s) with
      | none =>
        rw [replaced_of_none hm]
        exact hnone before b s _ hm (ih _ (Nat.lt_succ_self _) _ _ rfl)
      | some m =>
        obtain ⟨key, r, hk, hb, heq, hrun, hreplacement, hrest⟩ := secretKV_eq_some hm
        have hlt := secretKV_advances _ _ _ hm
        rw [replaced_of_some secretKV_advances hm, hreplacement]
        rw [hrest] at hlt ⊢
        rw [heq] at hb ⊢
        refine hsome before key r _ hk (boundary_key key r [] ▸ hb) hrun fun before' => ?_
        rw [replaced_of_runEnds (runEnds_dropWhile r) _ before']
        exact ih _ hlt _ _ rfl

theorem quote_not_mem_replaced (h : 34 ∉ s) (before : Option UInt8) :
    34 ∉ replaced secretKV before s := by
  refine replaced_induction (P := fun _ s out => 34 ∉ s → 34 ∉ out) (fun _ h => h) ?_ ?_ before s h
  · intro before key r out _ _ _ ih h
    have hr : 34 ∉ r.dropWhile (!isSpace ·) := fun hmem =>
      h (by simp [(r.dropWhile_sublist _).subset hmem])
    have hstars : 34 ∉ text "=***" := by decide +kernel
    simp only [mem_append, not_or] at h ⊢
    exact ⟨⟨h.1, hstars⟩, ih none hr⟩
  · intro before b s out _ ih h
    rw [mem_cons, not_or] at h ⊢
    exact ⟨h.1, ih h.2⟩

theorem Content.prepend {p : Text} (hquote : 34 ∉ p) (hslash : 92 ∉ p) (hc : Content c) :
    Content (p ++ c) := by
  induction p with
  | nil => exact hc
  | cons b p ih =>
    rw [mem_cons, not_or] at hquote hslash
    exact .plain (Ne.symm hquote.1) (Ne.symm hslash.1) (ih hquote.2 hslash.2)

theorem Content.dropRun {p : Text} (hc : Content (p ++ 61 :: r)) :
    Content (r.dropWhile (!isSpace ·)) := by
  have hends := runEnds_dropWhile r
  rw [← takeWhile_append_dropWhile (p := (!isSpace ·)) (l := r), append_cons,
    ← append_assoc] at hc
  cases hr : r.dropWhile (!isSpace ·) with
  | nil => exact .nil
  | cons b t =>
    rw [hr] at hc hends
    have hb : isSpace b = true := hends
    rcases hc.drop with h | h
    · exact h
    · refine .plain ?_ ?_ h
      · rintro rfl
        cases hb
      · rintro rfl
        cases hb

theorem Content.replaced (hc : Content c) (before : Option UInt8) :
    Content (replaced secretKV before c) := by
  have hredacted {key out : Text} (hquote : 34 ∉ key) (hslash : 92 ∉ key) (hout : Content out) :
      Content (key ++ text "=***" ++ out) := by
    rw [append_assoc]
    exact .prepend hquote hslash (.prepend (by decide +kernel) (by decide +kernel) hout)
  -- a match may start at the byte after a backslash, which stays
  refine (replaced_induction (P := fun _ c out => (Content c → Content out) ∧
    ∀ b c', c = b :: c' → Content c' → ∃ out', out = b :: out' ∧ Content out') ?_ ?_ ?_
    before c).1 hc
  · exact fun _ => ⟨id, nofun⟩
  · intro before key r out hk _ _ ih
    have hquote := hk.not_mem foreign_quote
    have hslash := hk.not_mem foreign_backslash
    constructor
    · intro hc
      exact hredacted hquote hslash ((ih none).1 hc.dropRun)
    · intro b c' heq hc'
      cases key with
      | nil => exact absurd rfl (spells_ne_nil hk)
      | cons a key =>
        obtain ⟨rfl, rfl⟩ := List.cons.inj heq
        rw [mem_cons, not_or] at hquote hslash
        exact ⟨_, rfl, hredacted hquote.2 hslash.2 ((ih none).1 hc'.dropRun)⟩
  · intro before b s out _ ih
    constructor
    · intro hc
      cases hc with
      | plain hquote hslash hs => exact .plain hquote hslash (ih.1 hs)
      | escape hs =>
        obtain ⟨out', rfl, hout'⟩ := ih.2 _ _ rfl hs
        exact .escape hout'
    · intro b' c' heq hc'
      obtain ⟨rfl, rfl⟩ := List.cons.inj heq
      exact ⟨out, rfl, ih.1 hc'⟩

theorem replaced_quote (h : RunsWithin before c (34 :: rest)) :
    replaced secretKV before (c ++ 34 :: rest) =
      replaced secretKV before c ++ 34 :: replaced secretKV (some 34) rest := by
  refine replaced_induction (P := fun before c out => RunsWithin before c (34 :: rest) →
    replaced secretKV before (c ++ 34 :: rest) = out ++ 34 :: replaced secretKV (some 34) rest)
    ?_ ?_ ?_ before c h
  · exact fun before _ => replaced_of_none (secretKV_foreign foreign_quote)
  · intro before key r out hk hb hrun ih h
    rw [append_assoc, cons_append]
    obtain ⟨htake, hdrop⟩ := run_before_quote (h [] key r rfl hk hb)
    obtain ⟨last, hm⟩ := secretKV_spelled (r := r ++ 34 :: rest) hk (boundary_key key [] _ ▸ hb)
      (htake ▸ hrun)
    have hruns : RunsWithin ((key ++ 61 :: r.takeWhile (!isSpace ·)).getLast?.or before)
        (r.dropWhile (!isSpace ·)) (34 :: rest) := by
      refine redacting.right _ _ _ _ ?_
      rw [append_assoc, cons_append, takeWhile_append_dropWhile]
      exact h
    rw [replaced_of_some secretKV_advances hm,
      replaced_of_runEnds (runEnds_dropWhile _) _
        ((key ++ 61 :: r.takeWhile (!isSpace ·)).getLast?.or before), hdrop, ih _ hruns,
      ← append_assoc]
  · intro before b s out hnone ih h
    have hnone' : secretKV before (b :: s ++ 34 :: rest) = none := by
      cases hm : secretKV before (b :: s ++ 34 :: rest) with
      | none => rfl
      | some m =>
        obtain ⟨key, r, hk, hb, heq, hrun, -, -⟩ := secretKV_eq_some hm
        obtain ⟨r', hs, rfl⟩ := exists_of_append_quote (hk.not_mem foreign_quote) heq
        have hb' : boundary before (key ++ [61]) = true := by
          rw [heq] at hb
          exact boundary_key key _ [] ▸ hb
        obtain ⟨htake, -⟩ := run_before_quote (h [] key r' hs hk hb')
        obtain ⟨last, hm'⟩ := secretKV_spelled hk (boundary_key key [] r' ▸ hb') (htake ▸ hrun)
        rw [← hs, hnone] at hm'
        cases hm'
    rw [cons_append] at hnone' ⊢
    rw [replaced_of_none hnone', ih (redacting.right _ [b] s _ h)]
    rfl

/-- A string is redacted by itself, whatever follows it. -/
theorem redacts_quoted (c : Text) :
    Redacts u (quoted c) (quoted (replaced secretKV (some 34) c)) := by
  intro before h
  have hruns : RunsWithin (some 34) c (34 :: u) :=
    redacting.left _ c [34] u (redacting.right _ [34] (c ++ [34]) u h)
  have hlast : (quoted c).getLast?.or before = some 34 := by simp [quoted, getLast?_cons]
  rw [hlast, quoted_append, quoted_append, replaced_of_none (secretKV_foreign foreign_quote),
    replaced_quote hruns]

theorem Redacts.entry (hv : Redacts u v out) (k : Text) (hw₁ : Blank w₁) (hw₂ : Blank w₂) :
    Redacts u (quoted k ++ (w₁ ++ 58 :: (w₂ ++ v)))
      (quoted (replaced secretKV (some 34) k) ++ (w₁ ++ 58 :: (w₂ ++ out))) :=
  (redacts_quoted k).append redacting (hv.linked redacting hw₁ hw₂)

theorem redacts_secret (hk : Spells key) (c : Text) (hw₁ : Blank w₁) (hw₂ : Blank w₂) :
    Redacts u (member key w₁ w₂ c) (member key w₁ w₂ (replaced secretKV (some 34) c)) := by
  have hkey : replaced secretKV (some 34) key = key :=
    replaceAll_none secretKV_none (hk.not_mem foreign_equals) _ _
  have hentry := Redacts.entry (u := u) (redacts_quoted c) key hw₁ hw₂
  rwa [hkey, ← member_eq, ← member_eq] at hentry

theorem secretKV_scalar (hv : 61 ∉ v) (hrest : Ends rest) : secretKV before (v ++ rest) = none := by
  have hne (r : Text) : rest ≠ 61 :: r := by
    rintro rfl
    rcases hrest 61 rfl with h | h | h <;> cases h
  cases hm : secretKV before (v ++ rest) with
  | none => rfl
  | some m =>
    obtain ⟨key, r, hk, -, heq, -, -, -⟩ := secretKV_eq_some hm
    obtain ⟨p, rfl, hp⟩ | ⟨p, rfl, hp⟩ := append_eq_append_iff.mp heq
    · cases p with
      | nil => exact absurd hp (hne r)
      | cons b p =>
        have hb : Foreign b := hrest.foreign b (by rw [hp]; rfl)
        exact absurd (by simp) (hk.not_mem hb)
    · cases p with
      | nil => exact absurd hp.symm (hne r)
      | cons b p =>
        obtain ⟨rfl, -⟩ := List.cons.inj hp
        exact absurd (by simp) hv

theorem Scalar.redacts (hv : Scalar v) (hu : Ends u) : Redacts u v v := by
  have hequals : 61 ∉ v := fun hmem => (hv.all 61 hmem).2.1 rfl
  clear hv
  induction v with
  | nil => exact reads_nil
  | cons b v ih =>
    refine (ih fun hmem => hequals (mem_cons_of_mem b hmem)).cons redacting ?_
    exact fun before => secretKV_scalar hequals hu

/-- The first pass keeps the form of both texts. -/
theorem SameJson.redacts (h : SameJson x kind s s') :
    ∃ t t', SameJson x kind t t' ∧ ∀ u, x.Ends u → Redacts u s t ∧ Redacts u s' t' := by
  induction h with
  | scalar hv => exact ⟨_, _, .scalar hv, fun u hu => ⟨hv.redacts hu, hv.redacts hu⟩⟩
  | @string c hc =>
    exact ⟨_, _, .string (hc.replaced _), fun u _ => ⟨redacts_quoted c, redacts_quoted c⟩⟩
  | @empty e w hw =>
    have hredacts {u : Text} (_ : Extent.whole.Ends u) : Redacts u w w :=
      reads_layout redacting hw.layout
    exact ⟨_, _, .empty e hw, fun u _ =>
      ⟨Reads.enclosed @hredacts redacting, Reads.enclosed @hredacts redacting⟩⟩
  | enclosed _ ih =>
    obtain ⟨t, t', ht, hs⟩ := ih
    exact ⟨_, _, .enclosed ht, fun u _ => ⟨Reads.enclosed (fun u hu => (hs u hu).1) redacting,
      Reads.enclosed (fun u hu => (hs u hu).2) redacting⟩⟩
  | element hw hw' _ ih =>
    obtain ⟨t, t', ht, hs⟩ := ih
    exact ⟨_, _, .element hw hw' ht, fun u hu =>
      ⟨Reads.padded (fun u hu => (hs u hu).1) redacting hw hw' hu,
        Reads.padded (fun u hu => (hs u hu).2) redacting hw hw' hu⟩⟩
  | @entry x w w' k w₁ w₂ v v' hw hw' hk hw₁ hw₂ _ ih =>
    obtain ⟨t, t', ht, hs⟩ := ih
    exact ⟨_, _, .entry hw hw' (hk.replaced _) hw₁ hw₂ ht, fun u hu =>
      ⟨Reads.padded (fun u hu => Redacts.entry (hs u hu).1 k hw₁ hw₂) redacting hw hw' hu,
        Reads.padded (fun u hu => Redacts.entry (hs u hu).2 k hw₁ hw₂) redacting hw hw' hu⟩⟩
  | @secret x w w' key w₁ w₂ c c' hw hw' hk hw₁ hw₂ hc hc' hquote hquote' =>
    exact ⟨_, _, .secret hw hw' hk hw₁ hw₂ (hc.replaced _) (hc'.replaced _)
      (quote_not_mem_replaced hquote _) (quote_not_mem_replaced hquote' _), fun u hu =>
      ⟨Reads.padded (fun _ _ => redacts_secret hk c hw₁ hw₂) redacting hw hw' hu,
        Reads.padded (fun _ _ => redacts_secret hk c' hw₁ hw₂) redacting hw hw' hu⟩⟩
  | single _ ih =>
    obtain ⟨t, t', ht, hs⟩ := ih
    exact ⟨_, _, .single ht, hs⟩
  | more _ _ ih ihs =>
    obtain ⟨t, t', ht, hs⟩ := ih
    obtain ⟨v, v', hv, hr⟩ := ihs
    exact ⟨_, _, .more ht hv, fun u hu =>
      ⟨Reads.more (fun u hu => (hs u hu).1) redacting (hr u hu).1,
        Reads.more (fun u hu => (hs u hu).2) redacting (hr u hu).2⟩⟩

end FirstPass

section Sanitized

variable {s s' u : Text}

theorem sanitize_congr (h : replaced secretJSON none (replaced secretKV none s) =
    replaced secretJSON none (replaced secretKV none s')) : sanitize s = sanitize s' := by
  unfold replaced at h
  simp only [sanitize]
  rw [h]

/-- Behind a secret both passes go on alike. -/
theorem SameJson.sanitize_eq (h : SameJson .cut (.item .array) s s') (hs : RunsWithin none s u)
    (hs' : RunsWithin none s' u) : sanitize (s ++ u) = sanitize (s' ++ u) := by
  obtain ⟨t, t', ht, hredacts⟩ := h.redacts
  obtain ⟨out, hemits⟩ := ht.emits
  refine sanitize_congr ?_
  rw [(hredacts u trivial).1 none hs, (hredacts u trivial).2 none hs', h.getLast?_eq,
    emits_iff.mp (hemits _ trivial).1, emits_iff.mp (hemits _ trivial).2]

/-- Secrets do not show in a sanitized message, if no run that begins before the end of the last one
goes on over a quote. -/
theorem sanitize_hides_secrets :
    (∀ s s', SameJson .whole (.item .array) s s' →
      s = s' ∨ ∃ q q' u, s = q ++ u ∧ s' = q' ++ u ∧ SameJson .cut (.item .array) q q') ∧
    (∀ q q' u, SameJson .cut (.item .array) q q' → RunsWithin none q u → RunsWithin none q' u →
      sanitize (q ++ u) = sanitize (q' ++ u)) ∧
    ∀ s s', SameRuns none s s' → sanitize s = sanitize s' :=
  ⟨fun _ _ h => h.last, fun _ _ _ h => h.sanitize_eq,
    fun _ _ h => sanitize_congr (by rw [h.replaced_eq])⟩

theorem runsWithin_of_not_mem {before : Option UInt8} (h : 61 ∉ s) : RunsWithin before s u := by
  rintro p key r rfl
  exact absurd (by simp) h

/-- A secret member, alone and before a run that goes on over a quote, and a secret run. -/
theorem sanitize_hides_secrets_login :
    sanitize (text "\x7b\"password\":\"hunter2\"\x7d") =
      sanitize (text "\x7b\"password\":\"s3cret\"\x7d") ∧
    sanitize (text "\x7b\"password\":\"hunter2\",\"note\":\"token=x\"\x7d") =
      sanitize (text "\x7b\"password\":\"s3cret\",\"note\":\"token=x\"\x7d") ∧
    sanitize (text "pwd=hunter2") = sanitize (text "pwd=s3cret") := by
  obtain ⟨hlast, hcut, hruns⟩ := sanitize_hides_secrets
  have hblank : Blank [] := nofun
  have hspells : Spells (text "password") := by unfold Spells; decide +kernel
  have hcontent (c : Text) (hquote : 34 ∉ c) (hslash : 92 ∉ c) : Content c := by
    simpa using Content.nil.prepend hquote hslash
  have hquote : 34 ∉ text "hunter2" ∧ 34 ∉ text "s3cret" := by decide +kernel
  have hsecret (x : Extent) := SameJson.secret (x := x) hblank hblank hspells hblank hblank
    (hcontent (text "hunter2") hquote.1 (by decide +kernel))
    (hcontent (text "s3cret") hquote.2 (by decide +kernel)) hquote.1 hquote.2
  have hsame (x : Extent) := SameJson.element hblank hblank (hsecret x).single.enclosed
  refine ⟨?_, ?_, ?_⟩
  · obtain heq | ⟨q, q', u, hs, hs', hq⟩ := hlast _ _ (hsame .whole)
    · exact absurd heq (by decide +kernel)
    have hnone : 61 ∉ q ++ u ∧ 61 ∉ q' ++ u := by
      rw [← hs, ← hs']
      decide +kernel
    have heq := hcut q q' u hq
      (runsWithin_of_not_mem fun hmem => hnone.1 (mem_append_left u hmem))
      (runsWithin_of_not_mem fun hmem => hnone.2 (mem_append_left u hmem))
    rwa [← hs, ← hs'] at heq
  · exact hcut _ _ (text ",\"note\":\"token=x\"\x7d") (hsame .cut)
      (runsWithin_of_not_mem (by decide +kernel)) (runsWithin_of_not_mem (by decide +kernel))
  · have hkey : Spells (text "pwd") := by unfold Spells; decide +kernel
    have hrun (run : Text) (h : run ≠ [] ∧ ∀ b ∈ run, isSpace b = false) : IsRun run := ⟨h.1, h.2⟩
    exact hruns _ _ (.run hkey (by decide +kernel) (hrun (text "hunter2") (by decide +kernel))
      (hrun (text "s3cret") (by decide +kernel)) rfl rfl .nil)

/-- The expression for members ends at an escaped quote and does not read escapes in names, and
the runs of the other one swallow the quotes that it needs. -/
theorem sanitize_shows_secrets :
    sanitize (text "\x7b\"password\":\"a\\\"b\"\x7d") ≠
      sanitize (text "\x7b\"password\":\"a\\\"c\"\x7d") ∧
    sanitize (text "\x7b\"pass\\u0077ord\":\"a\"\x7d") ≠
      sanitize (text "\x7b\"pass\\u0077ord\":\"b\"\x7d") ∧
    sanitize (text "\x7b\"note\":\"token=x\",\"password\":\"a b\"\x7d") ≠
      sanitize (text "\x7b\"note\":\"token=x\",\"password\":\"a c\"\x7d") ∧
    sanitize (text "\x7b\"token\":\"a token=x\", \"password\":\"b\"\x7d") ≠
      sanitize (text "\x7b\"token\":\"a token=x\", \"password\":\"c\"\x7d") := by
  decide +kernel

end Sanitized

end Skit.Errs
