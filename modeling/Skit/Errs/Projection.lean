import Skit.Errs.Secrecy
import Skit.Lib.Utf8

/-!
# Sanitizing is a projection

A sanitized message is sanitized: nothing is left to replace in it. Each pass leaves a text that it
does not change again, and the second does not disturb what the first has done. A cut may go
through a marker; the first pass then completes the marker and the text is cut at the same place.
-/
namespace Skit.Errs
open List

open Lib

section Settled

variable {before before' : Option UInt8} {s r key p t u d : Text} {b : UInt8}

/-- A text that the first pass does not change: every run behind a key is a marker. -/
inductive Settled : Option UInt8 → Text → Prop
  | nil {before : Option UInt8} : Settled before []
  | skip {before : Option UInt8} {b : UInt8} {s : Text} : secretKV before (b :: s) = none →
      Settled (some b) s → Settled before (b :: s)
  | run {before : Option UInt8} {key s : Text} : Spells key →
      boundary before (key ++ [61]) = true → RunEnds s → (∀ before, Settled before s) →
      Settled before (key ++ text "=***" ++ s)

theorem isRun_stars : IsRun (text "***") := ⟨by decide, by decide +kernel⟩

theorem key_stars (key s : Text) : key ++ text "=***" ++ s = key ++ 61 :: (text "***" ++ s) := by
  have heq : text "=***" = 61 :: text "***" := rfl
  rw [heq, append_assoc, cons_append]

theorem runEnds_congr (h : s.head? = r.head?) : RunEnds s ↔ RunEnds r := by
  rw [RunEnds, RunEnds, h]

theorem head?_spelled (hk : Spells key) (s r : Text) : (key ++ s).head? = (key ++ r).head? := by
  obtain ⟨a, k, rfl⟩ := exists_cons_of_ne_nil (spells_ne_nil hk)
  rfl

/-- The first pass changes runs only, and leaves none but markers. -/
theorem replaced_settled (before : Option UInt8) (s : Text) :
    SameRuns before s (replaced secretKV before s) ∧
      Settled before (replaced secretKV before s) := by
  have hall := replaced_induction
    (P := fun before s out => SameRuns before s out ∧ Settled before out ∧ s.head? = out.head?)
    (fun _ => ⟨.nil, .nil, rfl⟩) ?_ ?_ before s
  · exact ⟨hall.1, hall.2.1⟩
  · intro before key r out hk hb hrun ih
    have hends : RunEnds (r.dropWhile (!isSpace ·)) := runEnds_dropWhile r
    have hout : RunEnds out := (runEnds_congr (ih none).2.2).mp hends
    have hr : IsRun (r.takeWhile (!isSpace ·)) := ⟨hrun, fun b hb => by
      simpa using mem_takeWhile_imp hb⟩
    refine ⟨?_, .run hk hb hout fun before' => (ih before').2.1, ?_⟩
    · rw [key_stars]
      have hsame := SameRuns.run hk hb hr isRun_stars hends hout (ih none).1
      rwa [takeWhile_append_dropWhile] at hsame
    · rw [append_assoc]
      exact head?_spelled hk _ _
  · rintro before b s out hnone ⟨hsame, hsettled, -⟩
    have hsame' : SameRuns before (b :: s) (b :: out) := .cons b hsame
    refine ⟨hsame', .skip ?_ hsettled, rfl⟩
    cases hm : secretKV before (b :: out) with
    | none => rfl
    | some m =>
      obtain ⟨m', hm', -⟩ := hsame'.symm.matched hm
      rw [hnone] at hm'
      cases hm'

theorem secretKV_stars (hk : Spells key) (hb : boundary before (key ++ [61]) = true)
    (hs : RunEnds s) : ∃ last, secretKV before (key ++ text "=***" ++ s) =
      some ⟨key ++ text "=***", last, s⟩ := by
  have hrun := isRun_stars.takeWhile hs
  have hdrop := isRun_stars.dropWhile hs
  obtain ⟨last, hlast⟩ := secretKV_spelled (r := text "***" ++ s) hk
    (boundary_key key [] _ ▸ hb) (by rw [hrun]; exact isRun_stars.ne_nil)
  rw [hdrop] at hlast
  exact ⟨last, by rw [key_stars, hlast]⟩

theorem Settled.replaced_eq (h : Settled before s) : replaced secretKV before s = s := by
  induction h with
  | nil => rfl
  | skip hnone _ ih => rw [replaced_of_none hnone, ih]
  | run hk hb hs _ ih =>
    obtain ⟨last, hm⟩ := secretKV_stars hk hb hs
    rw [replaced_of_some secretKV_advances hm, ih]

theorem quote_not_mem_stars : 34 ∉ text "=***" := by decide +kernel

theorem Settled.after_quote (h : Settled before (p ++ 34 :: r)) : Settled (some 34) r := by
  generalize hs : p ++ 34 :: r = s at h
  induction h generalizing p with
  | nil => simp at hs
  | @skip before b s hnone hrest ih =>
    cases p with
    | nil =>
      obtain ⟨rfl, rfl⟩ := List.cons.inj hs
      exact hrest
    | cons a p => exact ih (List.cons.inj hs).2
  | @run before key s hk hb hends hrest ih =>
    -- the quote is not in the key and not in the marker
    have hquote : 34 ∉ key ++ text "=***" := by
      rw [mem_append, not_or]
      exact ⟨hk.not_mem foreign_quote, quote_not_mem_stars⟩
    rcases append_eq_append_iff.mp hs with ⟨q, hq, hr⟩ | ⟨q, rfl, hr⟩
    · cases q with
      | nil => exact ih none (p := []) hr
      | cons a q =>
        obtain ⟨rfl, -⟩ := List.cons.inj hr
        exact absurd (by simp [hq]) hquote
    · exact ih none hr.symm

theorem secretKV_before_quote (hp : 61 ∉ p) : secretKV before (p ++ 34 :: r) = none := by
  cases hm : secretKV before (p ++ 34 :: r) with
  | none => rfl
  | some m =>
    obtain ⟨key, r', hk, -, heq, -⟩ := secretKV_eq_some hm
    obtain ⟨q, rfl, -⟩ := exists_of_append_quote (hk.not_mem foreign_quote) heq
    simp at hp

theorem Settled.before_quote (h : Settled (some 34) r) (hp : 61 ∉ p) :
    Settled before (p ++ 34 :: r) := by
  induction p generalizing before with
  | nil => exact .skip (secretKV_before_quote not_mem_nil) h
  | cons a p ih => exact .skip (secretKV_before_quote hp) (ih fun hmem => hp (by simp [hmem]))

theorem replaced_of_dropLast (h : 61 ∉ u.dropLast) : replaced secretKV before u = u := by
  induction u generalizing before with
  | nil => rfl
  | cons b u ih =>
    have hnone : secretKV before (b :: u) = none := by
      cases hm : secretKV before (b :: u) with
      | none => rfl
      | some m =>
        obtain ⟨key, r, -, -, heq, hrun, -⟩ := secretKV_eq_some hm
        obtain ⟨a, r, rfl⟩ : ∃ a r', r = a :: r' :=
          exists_cons_of_ne_nil fun hnil => hrun (by rw [hnil]; rfl)
        rw [heq, dropLast_append_of_ne_nil (by simp)] at h
        simp at h
    rw [replaced_of_none hnone]
    refine congrArg (b :: ·) (ih fun hmem => h ?_)
    cases u with
    | nil => cases hmem
    | cons c u => simp [hmem]

theorem secretKV_of_append (h : secretKV before (u ++ d) = none) : secretKV before u = none := by
  cases hm : secretKV before u with
  | none => rfl
  | some m =>
    obtain ⟨key, r, hk, hb, rfl, hrun, -⟩ := secretKV_eq_some hm
    have hrun' : (r ++ d).takeWhile (!isSpace ·) ≠ [] := by
      cases r with
      | nil => exact absurd rfl hrun
      | cons a r =>
        rw [takeWhile_cons] at hrun
        split at hrun
        · next ha => simp [ha]
        · exact absurd rfl hrun
    obtain ⟨last, hlast⟩ := secretKV_spelled hk (boundary_key key r (r ++ d) ▸ hb) hrun'
    rw [append_assoc, cons_append, hlast] at h
    cases h

theorem replaced_of_stars {stars : Text} (hk : Spells key)
    (hb : boundary before (key ++ [61]) = true) (hrun : IsRun stars) :
    replaced secretKV before (key ++ 61 :: stars) = key ++ text "=***" := by
  have hends : RunEnds [] := rfl
  have htake := hrun.takeWhile hends
  have hdrop := hrun.dropWhile hends
  rw [append_nil] at htake hdrop
  obtain ⟨last, hlast⟩ := secretKV_spelled hk (boundary_key key [] stars ▸ hb)
    (by rw [htake]; exact hrun.ne_nil)
  rw [replaced_of_some secretKV_advances hlast, hdrop, replaced_nil, append_nil]

/-- The first pass completes a marker at the end of a cut text, and changes nothing else. -/
theorem Settled.cut (h : Settled before t) (ht : t = u ++ d) :
    ∃ e d', d = e ++ d' ∧ replaced secretKV before u = u ++ e ∧ (e = [] ∨ RunEnds d') := by
  induction h generalizing u with
  | nil =>
    obtain ⟨rfl, rfl⟩ := append_eq_nil_iff.mp ht.symm
    exact ⟨[], [], rfl, rfl, .inl rfl⟩
  | @skip before b s hnone _ ih =>
    cases u with
    | nil => exact ⟨[], d, rfl, rfl, .inl rfl⟩
    | cons a u =>
      obtain ⟨rfl, rfl⟩ := List.cons.inj ht
      obtain ⟨e, d', rfl, heq, hend⟩ := ih rfl
      refine ⟨e, d', rfl, ?_, hend⟩
      rw [replaced_of_none (secretKV_of_append hnone), heq]
      rfl
  | @run before key s hk hb hends _ ih =>
    rcases append_eq_append_iff.mp ht with ⟨q, rfl, rfl⟩ | ⟨q, hq, rfl⟩
    · obtain ⟨e, d', rfl, heq, hend⟩ := ih none rfl
      have hq : RunEnds q := by
        cases q with
        | nil => rfl
        | cons a q => exact hends
      refine ⟨e, d', rfl, ?_, hend⟩
      obtain ⟨last, hm⟩ := secretKV_stars hk hb hq
      rw [replaced_of_some secretKV_advances hm, replaced_of_runEnds hq _ none, heq]
      simp
    · have hmark : key ++ text "=***" = (key ++ [61]) ++ text "***" := by
        have := key_stars key []
        simpa using this
      rw [hmark] at hq
      rcases append_eq_append_iff.mp hq with ⟨stars, rfl, hstars⟩ | ⟨q', hkey, rfl⟩
      · by_cases hnil : stars = []
        · refine ⟨[], q ++ s, rfl, ?_, .inl rfl⟩
          rw [hnil, append_nil, append_nil]
          exact replaced_of_dropLast (by simpa using hk.not_mem foreign_equals)
        · have hrun : IsRun stars := ⟨hnil, fun b hb => isRun_stars.all b (by simp [hstars, hb])⟩
          refine ⟨q, s, rfl, ?_, .inr hends⟩
          rw [append_assoc, singleton_append, replaced_of_stars hk hb hrun, hmark, hstars]
          simp
      · refine ⟨[], q' ++ text "***" ++ s, by simp, ?_, .inl rfl⟩
        rw [append_nil]
        have hlast : key = (u ++ q').dropLast := by rw [← hkey, dropLast_concat]
        refine replaced_of_dropLast fun hmem => hk.not_mem foreign_equals ?_
        rw [hlast]
        cases q' with
        | nil => rwa [append_nil]
        | cons a q' =>
          rw [dropLast_append_of_ne_nil (cons_ne_nil a q')]
          exact mem_append_left _ (mem_of_mem_dropLast hmem)

end Settled

section Members

variable {before : Option UInt8} {s r key p t u : Text} {b : UInt8}

/-- The second pass over a whole text. -/
def unnamed (s : Text) : Text := replaced secretJSON none s

theorem unnamed_of_none (h : secretJSON none (b :: s) = none) :
    unnamed (b :: s) = b :: unnamed s := by
  rw [unnamed, replaced_of_none h, replaced_json]
  rfl

/-- A member with a marker as its value. -/
def marked (key : Text) : Text := member key [] [] (text "***")

theorem marked_eq (key : Text) : 34 :: key ++ text "\":\"***\"" = marked key := by
  have htext : text "\":\"***\"" = 34 :: 58 :: 34 :: (text "***" ++ [34]) := rfl
  rw [htext]
  simp [marked, member]

theorem marked_append (key r : Text) :
    marked key ++ r = (34 :: (key ++ 34 :: 58 :: 34 :: text "***")) ++ 34 :: r := by
  simp [marked, member]

theorem unnamed_cases (b : UInt8) (s : Text) :
    (secretJSON none (b :: s) = none ∧ unnamed (b :: s) = b :: unnamed s) ∨
      ∃ key w w' v rest, Spells key ∧ Blank w ∧ Blank w' ∧ 34 ∉ v ∧
        b :: s = member key w w' v ++ rest ∧ rest.length < (b :: s).length ∧
        unnamed (b :: s) = marked key ++ unnamed rest := by
  cases hm : secretJSON none (b :: s) with
  | none => exact .inl ⟨rfl, unnamed_of_none hm⟩
  | some m =>
    obtain ⟨key, w, w', v, hk, hw, hw', hv, heq⟩ := secretJSON_eq_some hm
    have hlt := secretJSON_advances _ _ _ hm
    refine .inr ⟨key, w, w', v, m.rest, hk, hw, hw', hv, heq, hlt, ?_⟩
    have hrest : unnamed (b :: s) = m.replacement ++ unnamed m.rest := by
      rw [unnamed, replaced_of_some secretJSON_advances hm, replaced_json]
      rfl
    rw [heq, secretJSON_member hk hw hw' hv] at hm
    rw [hrest, ← Option.some.inj hm, marked_eq]

theorem head?_unnamed (s : Text) : (unnamed s).head? = s.head? := by
  cases s with
  | nil => rfl
  | cons b s =>
    rcases unnamed_cases b s with ⟨-, heq⟩ | ⟨key, w, w', v, rest, -, -, -, -, hs, -, heq⟩
    · rw [heq]
      rfl
    · rw [heq, hs]
      rfl

theorem exists_of_unnamed_eq (hp : 34 ∉ p) (h : unnamed s = p ++ r) :
    ∃ r', s = p ++ r' ∧ unnamed r' = r := by
  induction p generalizing s with
  | nil => exact ⟨s, rfl, h⟩
  | cons a p ih =>
    rw [mem_cons, not_or] at hp
    cases s with
    | nil => cases h
    | cons b s =>
      have hhead : b = a := by
        have := head?_unnamed (b :: s)
        rw [h] at this
        simpa using this.symm
      subst hhead
      rw [unnamed_of_none (secretJSON_of_ne (Ne.symm hp.1))] at h
      obtain ⟨r', rfl, hr'⟩ := ih hp.2 (List.cons.inj h).2
      exact ⟨r', rfl, hr'⟩

theorem unnamed_append (hp : 34 ∉ p) (r : Text) : unnamed (p ++ r) = p ++ unnamed r := by
  induction p with
  | nil => rfl
  | cons a p ih =>
    rw [mem_cons, not_or] at hp
    rw [cons_append, unnamed_of_none (secretJSON_of_ne (Ne.symm hp.1)),
      ih hp.2]
    rfl

theorem secretKV_unnamed (hjson : unnamed (b :: s) = b :: unnamed s)
    (h : secretKV before (b :: s) = none) : secretKV before (b :: unnamed s) = none := by
  cases hm : secretKV before (b :: unnamed s) with
  | none => rfl
  | some m =>
    obtain ⟨key, r, hk, hb, heq, hrun, -⟩ := secretKV_eq_some hm
    have hquote : 34 ∉ key ++ [61] := by simp [hk.not_mem foreign_quote]
    have hout : unnamed (b :: s) = (key ++ [61]) ++ r := by
      rw [hjson, heq, append_assoc, singleton_append]
    obtain ⟨r', hs, rfl⟩ := exists_of_unnamed_eq hquote hout
    rw [append_assoc, singleton_append] at hs
    have hhead := head?_unnamed r'
    have hrun' : r'.takeWhile (!isSpace ·) ≠ [] := by
      cases r' with
      | nil => exact absurd rfl hrun
      | cons a r' =>
        obtain ⟨rest, hrest⟩ : ∃ rest, unnamed (a :: r') = a :: rest := by
          cases hu : unnamed (a :: r') with
          | nil => simp [hu] at hhead
          | cons a' rest =>
            rw [hu] at hhead
            exact ⟨rest, by rw [Option.some.inj hhead]⟩
        rw [hrest, takeWhile_cons] at hrun
        split at hrun
        · next ha => simp [ha]
        · exact absurd rfl hrun
    have hb' : boundary before (key ++ 61 :: r') = true := by
      rw [heq] at hb
      exact boundary_key key _ r' ▸ hb
    obtain ⟨last, hlast⟩ := secretKV_spelled hk hb' hrun'
    rw [hs, hlast] at h
    cases h

theorem Settled.unnamed (h : Settled before s) : Settled before (Errs.unnamed s) := by
  induction hn : s.length using Nat.strong_induction_on generalizing before s with
  | _ n ih =>
    subst hn
    cases h with
    | nil => exact .nil
    | @skip _ b s hnone hrest =>
      rcases unnamed_cases b s with ⟨-, heq⟩ | ⟨key, w, w', v, rest, hk, -, -, -, hs, hlt, heq⟩
      · rw [heq]
        exact .skip (secretKV_unnamed heq hnone) (ih _ (Nat.lt_succ_self _) hrest rfl)
      · have hafter : Settled (some 34) rest := by
          have hwhole : Settled before (member key w w' v ++ rest) := hs ▸ .skip hnone hrest
          have hlast : member key w w' v ++ rest =
              (34 :: (key ++ 34 :: (w ++ 58 :: (w' ++ 34 :: v)))) ++ 34 :: rest := by simp [member]
          rw [hlast] at hwhole
          exact hwhole.after_quote
        have hequals : 61 ∉ 34 :: (key ++ 34 :: 58 :: 34 :: text "***") := by
          have hstars : 61 ∉ text "***" := by decide +kernel
          simp [hk.not_mem foreign_equals, hstars]
        rw [heq, marked_append]
        exact (ih _ hlt hafter rfl).before_quote hequals
    | @run _ key s hk hb hends hrest =>
      have hquote : 34 ∉ key ++ text "=***" := by
        simp [hk.not_mem foreign_quote, quote_not_mem_stars]
      have hlt : s.length < (key ++ text "=***" ++ s).length := by
        rw [key_stars]
        simp
        omega
      rw [unnamed_append hquote]
      refine .run hk hb ?_ fun before' => ih _ hlt (hrest before') rfl
      exact (runEnds_congr (head?_unnamed s)).mpr hends

theorem Blank.quote_not_mem {w : Text} (hw : Blank w) : 34 ∉ w :=
  fun hmem => absurd (hw 34 hmem) (by decide)

theorem member_append (key w w' v rest : Text) :
    member key w w' v ++ rest =
      34 :: (key ++ 34 :: (w ++ 58 :: (w' ++ 34 :: (v ++ 34 :: rest)))) := by
  simp [member]

theorem exists_of_unnamed_quote (h : unnamed s = 34 :: r) : ∃ s', s = 34 :: s' := by
  have hhead := head?_unnamed s
  rw [h] at hhead
  cases s with
  | nil => cases hhead
  | cons b s =>
    obtain rfl : 34 = b := by simpa using hhead
    exact ⟨s, rfl⟩

theorem secretJSON_unnamed (h : secretJSON none (b :: s) = none) :
    secretJSON none (b :: unnamed s) = none := by
  cases hm : secretJSON none (b :: unnamed s) with
  | none => rfl
  | some m =>
    obtain ⟨key, w, w', v, hk, hw, hw', hv, heq⟩ := secretJSON_eq_some hm
    have hmatch : ∀ v rest, 34 ∉ v → b :: s ≠ member key w w' v ++ rest := by
      intro v rest hv heq
      rw [heq, secretJSON_member hk hw hw' hv] at h
      cases h
    rw [member_append] at heq
    obtain ⟨rfl, hs⟩ := List.cons.inj heq
    -- the bytes up to the second quote are those of the text
    obtain ⟨s₁, rfl, h₁⟩ := exists_of_unnamed_eq (hk.not_mem foreign_quote) hs
    obtain ⟨s₂, rfl⟩ := exists_of_unnamed_quote h₁
    rcases unnamed_cases 34 s₂ with ⟨-, hs₂⟩ | ⟨key', _, _, _, rest, hk', -, -, -, -, -, hs₂⟩
    · have hblank : 34 ∉ w ++ 58 :: w' := by simp [hw.quote_not_mem, hw'.quote_not_mem]
      have h₂ : unnamed s₂ = (w ++ 58 :: w') ++ 34 :: (v ++ 34 :: m.rest) := by
        rw [hs₂] at h₁
        simpa using h₁
      obtain ⟨s₃, rfl, h₃⟩ := exists_of_unnamed_eq hblank h₂
      obtain ⟨s₄, rfl⟩ := exists_of_unnamed_quote h₃
      rcases unnamed_cases 34 s₄ with ⟨-, hs₄⟩ | ⟨key', w₁, w₁', v₁, rest, hk', -, -, -, hs₄, -, -⟩
      · rw [hs₄] at h₃
        obtain ⟨s₅, rfl, h₅⟩ := exists_of_unnamed_eq hv (List.cons.inj h₃).2
        obtain ⟨s₆, rfl⟩ := exists_of_unnamed_quote h₅
        exact absurd (by simp [member_append]) (hmatch v s₆ hv)
      · -- the value is the name of a member
        rw [hs₄, member_append] at hmatch
        exact absurd (by simp [member_append])
          (hmatch key' (w₁ ++ 58 :: (w₁' ++ 34 :: (v₁ ++ 34 :: rest))) (hk'.not_mem foreign_quote))
    · -- a name does not begin with a blank or a colon
      rw [hs₂, marked, member_append] at h₁
      have hhead := congrArg List.head? (List.cons.inj h₁).2
      obtain ⟨a, k, rfl⟩ := exists_cons_of_ne_nil (spells_ne_nil hk')
      have hforeign := foreign_head_blank (r := w' ++ 34 :: (v ++ 34 :: m.rest)) hw foreign_colon
      exact absurd mem_cons_self (hk'.not_mem (hforeign a hhead.symm))

/-- A text that the second pass does not change: every secret member has a marker. -/
inductive Masked : Text → Prop
  | nil : Masked []
  | skip {b : UInt8} {s : Text} : secretJSON none (b :: s) = none → Masked s → Masked (b :: s)
  | member {key s : Text} : Spells key → Masked s → Masked (marked key ++ s)

theorem masked_unnamed (s : Text) : Masked (unnamed s) := by
  induction hn : s.length using Nat.strong_induction_on generalizing s with
  | _ n ih =>
    subst hn
    cases s with
    | nil => exact .nil
    | cons b s =>
      rcases unnamed_cases b s with ⟨hnone, heq⟩ | ⟨key, _, _, _, rest, hk, -, -, -, -, hlt, heq⟩
      · rw [heq]
        exact .skip (secretJSON_unnamed hnone) (ih _ (Nat.lt_succ_self _) s rfl)
      · rw [heq]
        exact .member hk (ih _ hlt rest rfl)

theorem secretJSON_marked (hk : Spells key) :
    secretJSON none (marked key ++ s) = some ⟨34 :: key ++ text "\":\"***\"", 34, s⟩ :=
  secretJSON_member hk nofun nofun (by decide +kernel)

theorem unnamed_marked (hk : Spells key) (s : Text) :
    unnamed (marked key ++ s) = marked key ++ unnamed s := by
  rw [unnamed, replaced_of_some secretJSON_advances (secretJSON_marked hk), replaced_json,
    marked_eq]
  rfl

theorem secretJSON_of_append {d : Text} (h : secretJSON none (u ++ d) = none) :
    secretJSON none u = none := by
  cases hm : secretJSON none u with
  | none => rfl
  | some m =>
    obtain ⟨key, w, w', v, hk, hw, hw', hv, heq⟩ := secretJSON_eq_some hm
    rw [heq, append_assoc, secretJSON_member hk hw hw' hv] at h
    cases h

theorem unnamed_of_count (h : u.count 34 < 4) : unnamed u = u := by
  induction u with
  | nil => rfl
  | cons b u ih =>
    have htail : u.count 34 ≤ (b :: u).count 34 := (sublist_cons_self b u).count_le 34
    rcases unnamed_cases b u with ⟨-, heq⟩ | ⟨key, w, w', v, rest, -, -, -, -, hs, -, -⟩
    · rw [heq, ih (by omega)]
    · rw [hs, member_append] at h
      simp only [count_cons, count_append, beq_self_eq_true, if_true] at h
      omega

theorem count_marked (hk : Spells key) : (marked key).count 34 = 4 := by
  have hkey : key.count 34 = 0 := count_eq_zero.mpr (hk.not_mem foreign_quote)
  have hstars : (text "***").count 34 = 0 := by decide +kernel
  simp [marked, member, hkey, hstars]

theorem unnamed_of_marked_append {q : Text} (hk : Spells key) (h : marked key = u ++ q)
    (hq : q ≠ []) : unnamed u = u := by
  have hcount := count_marked hk
  have hlast : (marked key).getLast? = some 34 := by
    have hend := marked_append key []
    rw [append_nil] at hend
    rw [hend, getLast?_concat]
  have hmem : 34 ∈ q := by
    rw [h, getLast?_append_of_ne_nil u hq] at hlast
    exact mem_of_getLast? hlast
  have hpos : 0 < q.count 34 := count_pos_iff.mpr hmem
  rw [h, count_append] at hcount
  exact unnamed_of_count (by omega)

/-- The second pass does not change a masked text that is cut. -/
theorem Masked.cut {d : Text} (h : Masked t) (ht : t = u ++ d) : unnamed u = u := by
  induction h generalizing u with
  | nil =>
    obtain ⟨rfl, -⟩ := append_eq_nil_iff.mp ht.symm
    rfl
  | @skip b s hnone _ ih =>
    cases u with
    | nil => rfl
    | cons a u =>
      obtain ⟨rfl, rfl⟩ := List.cons.inj ht
      rw [unnamed_of_none (secretJSON_of_append hnone), ih rfl]
  | @member key s hk _ ih =>
    rcases append_eq_append_iff.mp ht with ⟨q, rfl, rfl⟩ | ⟨q, hq, rfl⟩
    · rw [unnamed_marked hk, ih rfl]
    · by_cases hnil : q = []
      · subst hnil
        rw [append_nil] at hq
        have hwhole := unnamed_marked hk []
        rw [append_nil] at hwhole
        rw [← hq, hwhole]
        exact append_nil _
      · exact unnamed_of_marked_append hk hq hnil

end Members

section Cuts

variable {s s' t u e d : Text} {n j : Nat}

theorem cutAt_le (s : Text) (n : Nat) : cutAt s n ≤ n := by
  induction n with
  | zero => exact le_rfl
  | succ n ih =>
    rw [cutAt]
    split_ifs
    · exact le_rfl
    · exact Nat.le_succ_of_le ih

theorem le_cutAt (hj : j ≤ n) (hstart : runeStart (s.getD j 0) = true) : j ≤ cutAt s n := by
  induction n with
  | zero => exact hj
  | succ n ih =>
    rw [cutAt]
    split_ifs with h
    · exact hj
    · have hne : j ≠ n + 1 := fun heq => h (heq ▸ hstart)
      exact ih (by omega)

theorem cutAt_congr (h : ∀ j ≤ n, s.getD j 0 = s'.getD j 0) : cutAt s n = cutAt s' n := by
  induction n with
  | zero => rfl
  | succ n ih =>
    rw [cutAt, cutAt, h (n + 1) le_rfl, ih fun j hj => h j (Nat.le_succ_of_le hj)]

theorem runeStart_cutAt (s : Text) (n : Nat) :
    cutAt s n = 0 ∨ runeStart (s.getD (cutAt s n) 0) = true := by
  induction n with
  | zero => exact .inl rfl
  | succ n ih =>
    rw [cutAt]
    split_ifs with h
    · exact .inr h
    · exact ih

theorem length_truncateUTF8 (s : Text) (n : Nat) : (truncateUTF8 s n).length ≤ n := by
  unfold truncateUTF8
  split_ifs with h
  · exact h
  · exact (length_take_le _ _).trans (cutAt_le s n)

theorem runeStart_of_isSpace {b : UInt8} (hb : isSpace b = true) : runeStart b = true := by
  simp only [isSpace, Bool.or_eq_true, beq_iff_eq] at hb
  rcases hb with (((rfl | rfl) | rfl) | rfl) | rfl <;> decide

/-- A text that is cut and completed is cut at the same place again. -/
theorem truncateUTF8_completed (ht : t = truncateUTF8 t n ++ (e ++ d)) (hlen : n < t.length)
    (hend : e = [] ∨ RunEnds d) :
    truncateUTF8 (truncateUTF8 t n ++ e) n = truncateUTF8 t n := by
  have hcut : truncateUTF8 t n = t.take (cutAt t n) := if_neg (not_le.mpr hlen)
  have hlength : (truncateUTF8 t n).length = cutAt t n := by
    rw [hcut, length_take]
    have := cutAt_le t n
    omega
  rw [← append_assoc] at ht
  generalize hu : truncateUTF8 t n = u at *
  by_cases hle : (u ++ e).length ≤ n
  · -- after a completed marker the text could have been cut later
    rw [truncateUTF8, if_pos hle]
    rcases hend with rfl | hruns
    · exact append_nil u
    · have hd : ∃ b d', d = b :: d' := by
        refine exists_cons_of_ne_nil fun hnil => ?_
        rw [hnil, append_nil] at ht
        rw [ht] at hlen
        omega
      obtain ⟨b, d, rfl⟩ := hd
      have hget : t.getD (u ++ e).length 0 = b := by
        rw [ht, getD_eq_getElem?_getD, getElem?_append_right le_rfl]
        simp
      have hstart := le_cutAt hle (hget ▸ runeStart_of_isSpace hruns)
      rw [← hlength, length_append] at hstart
      rw [eq_nil_of_length_eq_zero (by omega : e.length = 0), append_nil]
  · have hsame : cutAt (u ++ e) n = cutAt t n := by
      refine cutAt_congr fun j hj => ?_
      have hget : (u ++ e ++ d)[j]? = (u ++ e)[j]? := getElem?_append_left (by omega)
      rw [ht, getD_eq_getElem?_getD, getD_eq_getElem?_getD, hget]
    rw [truncateUTF8, if_neg hle, hsame, ← hlength, take_left]

end Cuts

section Runes

open Utf8

variable {s p r t : Text}

theorem text_ofList (cs : List Char) : text (String.ofList cs) = encode cs := by
  rw [text, String.toByteArray_ofList, List.utf8Encode, data_toByteArray]
  rfl

theorem valid_text (str : String) : Valid (text str) := by
  refine ⟨str.toList, ?_⟩
  rw [← text_ofList, String.ofList_toList]

theorem runeStart_iff {b : UInt8} : runeStart b = true ↔ Leads b := by
  have hall : ∀ n < 256, runeStart (UInt8.ofNat n) = true ↔ n < 128 ∨ 192 ≤ n := by
    decide +kernel
  have hb := hall b.toNat b.toNat_lt
  rwa [UInt8.ofNat_toNat] at hb

theorem valid_dropRun (h : Valid r) : Valid (r.dropWhile (!isSpace ·)) := by
  cases hd : r.dropWhile (!isSpace ·) with
  | nil => exact valid_nil
  | cons b t =>
    have hends := runEnds_dropWhile r
    rw [hd] at hends
    rw [← takeWhile_append_dropWhile (p := (!isSpace ·)) (l := r), hd] at h
    exact (h.split (runeStart_iff.mp (runeStart_of_isSpace hends))).2

theorem valid_replaced (h : Valid (p ++ s)) (before : Option UInt8) :
    Valid (p ++ replaced secretKV before s) := by
  refine replaced_induction (P := fun _ s out => ∀ p, Valid (p ++ s) → Valid (p ++ out))
    (fun _ _ h => h) ?_ ?_ before s p h
  · intro before key r out hk _ _ ih p h
    rw [← append_assoc] at h
    obtain ⟨hkey, hr⟩ := h.split_ascii (by decide)
    have hmark : Valid (p ++ key ++ text "=***") := hkey.append (valid_text _)
    have hout := ih none _ (hmark.append (valid_dropRun hr))
    simpa using hout
  · intro before b s out _ ih p h
    have hout := ih (p ++ [b]) (by simpa using h)
    simpa using hout

theorem valid_unnamed (h : Valid (p ++ s)) : Valid (p ++ unnamed s) := by
  induction hn : s.length using Nat.strong_induction_on generalizing p s with
  | _ n ih =>
    subst hn
    cases s with
    | nil => exact h
    | cons b s =>
      rcases unnamed_cases b s with ⟨-, heq⟩ | ⟨key, w, w', v, rest, -, -, -, -, hs, hlt, heq⟩
      · have hout := ih s.length (Nat.lt_succ_self _) (p := p ++ [b]) (by simpa using h) rfl
        rw [heq]
        simpa using hout
      · rw [hs, member_append] at h
        obtain ⟨hp, h⟩ := h.split_ascii (by decide)
        obtain ⟨hkey, h⟩ := h.split_ascii (by decide)
        obtain ⟨-, h⟩ := h.split_ascii (by decide)
        obtain ⟨-, h⟩ := h.split_ascii (by decide)
        obtain ⟨-, h⟩ := h.split_ascii (by decide)
        have hmarked : Valid (p ++ marked key) := by
          have hquote : Valid (text "\"") := valid_text _
          rw [← marked_eq]
          exact hp.append ((hquote.append hkey).append (valid_text _))
        have hout := ih rest.length hlt (hmarked.append h) rfl
        rw [heq, ← append_assoc]
        exact hout

theorem valid_truncateUTF8 (h : Valid t) (n : Nat) : Valid (truncateUTF8 t n) := by
  unfold truncateUTF8
  split_ifs with hlen
  · exact h
  · rcases runeStart_cutAt t n with hzero | hstart
    · rw [hzero]
      exact valid_nil
    · have hlt : cutAt t n < t.length := lt_of_le_of_lt (cutAt_le t n) (not_le.mp hlen)
      rw [getD_eq_getElem?_getD, getElem?_eq_getElem hlt, Option.getD_some] at hstart
      rw [← take_append_drop (cutAt t n) t, drop_eq_getElem_cons hlt] at h
      exact (h.split (runeStart_iff.mp hstart)).1

end Runes

theorem sanitize_eq (s : Text) :
    sanitize s = truncateUTF8 (unnamed (replaced secretKV none s)) maxMessageLen := by
  have hdef : sanitize s = if maxMessageLen < (unnamed (replaced secretKV none s)).length then
      truncateUTF8 (unnamed (replaced secretKV none s)) maxMessageLen
      else unnamed (replaced secretKV none s) := rfl
  rw [hdef]
  split_ifs with hlen
  · rfl
  · rw [truncateUTF8, if_pos (not_lt.mp hlen)]

theorem sanitize_sanitize (s : Text) : sanitize (sanitize s) = sanitize s := by
  have hsettled : Settled none (unnamed (replaced secretKV none s)) :=
    (replaced_settled none s).2.unnamed
  have hmasked := masked_unnamed (replaced secretKV none s)
  rw [sanitize_eq s, sanitize_eq]
  generalize unnamed (replaced secretKV none s) = t at *
  by_cases hlen : t.length ≤ maxMessageLen
  · have hwhole : truncateUTF8 t maxMessageLen = t := if_pos hlen
    rw [hwhole, hsettled.replaced_eq, hmasked.cut (append_nil t).symm, hwhole]
  · have hcut : truncateUTF8 t maxMessageLen = t.take (cutAt t maxMessageLen) := if_neg hlen
    have ht : t = truncateUTF8 t maxMessageLen ++ t.drop (cutAt t maxMessageLen) := by
      rw [hcut, take_append_drop]
    obtain ⟨e, d, hd, hfirst, hend⟩ := hsettled.cut ht
    rw [hd] at ht
    have hsecond : unnamed (truncateUTF8 t maxMessageLen ++ e) =
        truncateUTF8 t maxMessageLen ++ e :=
      hmasked.cut (ht.trans (append_assoc _ _ _).symm)
    rw [hfirst, hsecond]
    exact truncateUTF8_completed ht (not_le.mp hlen) hend

/-- A sanitized message is short, in UTF-8 if the message is, and sanitized. -/
theorem sanitize_projection (s : Text) :
    (sanitize s).length ≤ maxMessageLen ∧
      (∀ str, s = text str → ∃ str', sanitize s = text str') ∧
      sanitize (sanitize s) = sanitize s := by
  refine ⟨?_, ?_, sanitize_sanitize s⟩
  · rw [sanitize_eq]
    exact length_truncateUTF8 _ _
  · rintro str rfl
    have hfirst := valid_replaced (p := []) (valid_text str) none
    have hsecond := valid_unnamed (p := []) hfirst
    obtain ⟨cs, hcs⟩ := valid_truncateUTF8 hsecond maxMessageLen
    refine ⟨String.ofList cs, ?_⟩
    rw [sanitize_eq, text_ofList, hcs]
    rfl

end Skit.Errs
