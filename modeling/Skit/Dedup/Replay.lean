import Skit.Dedup.Changes

/-!
# Token safety and replay

Over whole runs of the calls: settling with the token of a call touches no record but
its own, a stored success is handed out for as long as it lives, and a call that failed
stores none.
-/
namespace Skit.Dedup
open Lib List

section Replay

variable {ι T : Type} [DecidableEq ι] {B : Store} {qs : Calls ι T} {tr r : Trace ι T B}
  {c : Config ι Op (Ans T) B.State (Result T)} {e : Lib.Entry ι Int Op (Ans T) Empty B.State}
  {i j : ι} {ev : Event Int Op (Ans T)} {ans : Except Err Found}

/-- What a view shows later depends on what it shows now. -/
theorem view_eq_later {s s' : B.State} {t now : Int} {key : Text} (ht : t ≤ now)
    (hv : B.view s' t key = B.view s t key) : B.view s' now key = B.view s now key := by
  rw [B.view_later s' t now key ht, B.view_later s t now key ht, hv]

/-- A call that did not get the key makes no further call, and returns. -/
theorem returned_of_found {t : Int} {key token : Text} {lease : Int}
    (h : Run (calls B qs) tr c) (he : e :: r <:+ tr)
    (ha : e.act = .proc j ⟨t, .acquire key token lease, ans⟩) (hans : ans ≠ .ok .acquired) :
    hist j tr = [⟨t, .acquire key token lease, ans⟩] ∧
      ∃ out, c.procs j = .ret out ∧ Returned (qs.req j) out (hist j tr) := by
  obtain ⟨-, -, -, hnil⟩ := admits h he ha
  have hfirst : [⟨t, .acquire key token lease, ans⟩] <:+ hist j tr := by
    have := hist_suffix (i := j) he
    rwa [hist_cons_self ha, hnil] at this
  have hno : ∀ ta, ¬ held (qs.req j) ta <:+ hist j tr := by
    intro ta hs
    have heq := (suffix_of_suffix_length_le hs hfirst (le_refl _)).eq_of_length rfl
    simp only [held, List.cons.injEq, Event.mk.injEq, Op.acquire.injEq, and_true] at heq
    obtain ⟨-, ⟨rfl, rfl, rfl⟩, heq⟩ := heq
    exact hans (eq_of_heq heq).symm
  refine ⟨?_, ?_⟩
  · obtain ⟨l, hl⟩ := hfirst
    rcases eq_nil_or_concat l with rfl | ⟨l', ev, rfl⟩
    · exact hl.symm
    · have hs : ev :: [⟨t, .acquire key token lease, ans⟩] <:+ hist j tr := ⟨l', by simpa using hl⟩
      obtain ⟨e', r', he', ha', hh⟩ := exists_suffix_of_hist hs
      obtain ⟨ta, hheld⟩ := (admits h he' ha').held (by simp [hh])
      exact absurd (hheld.trans (hist_suffix ((suffix_cons _ _).trans he'))) (hno ta)
  · have hw := h.wp (J := fun i => Admits (qs.req i)) (Q := fun i => Returned (qs.req i))
      (fun _ => wp_runDo _) j
    cases hp : c.procs j with
    | ret out =>
      rw [hp] at hw
      exact ⟨out, rfl, hw⟩
    | call o k =>
      rw [hp] at hw
      obtain ⟨ta, hheld⟩ := Admits.held hw.1 fun hnil => by simp [hnil] at hfirst
      exact absurd hheld (hno ta)

/-- A stored success is handed to every call whose `acquire` finds it alive. -/
theorem replayed {t : Int} {key token b : Text} {lease x : Int}
    (h : Run (calls B qs) tr c) (he : e :: r <:+ tr)
    (ha : e.act = .proc j ⟨t, .acquire key token lease, ans⟩)
    (hv : B.view e.pre t key = some (.done b x)) :
    (ans = .ok (.done b) ∧ c.procs j = .ret ((qs.req j).decode b) ∨
      B.fallible = true ∧ ∃ err, ans = .error err ∧ c.procs j = .ret ((qs.req j).unavailable err)) ∧
    ∀ t, ⟨t, .enter, ()⟩ ∉ hist j tr := by
  obtain ⟨rfl, rfl, rfl, -⟩ := admits h he ha
  have hsem := entry_sem h he ha
  have hans : ans = .ok (.done b) ∨ ∃ err, ans = .error err := by
    cases ans with
    | error err => exact .inr ⟨err, rfl⟩
    | ok found =>
      obtain ⟨y, -, hfound, -⟩ := hsem.acquire
      left
      rw [hfound]
      simp [View.acquire, hv]
  have hne : ans ≠ .ok .acquired := by
    rcases hans with rfl | ⟨err, rfl⟩ <;> simp
  obtain ⟨hh, out, hp, hret⟩ := returned_of_found h he ha hne
  refine ⟨?_, by simp [hh]⟩
  rcases hans with rfl | ⟨err, rfl⟩
  · rw [← hret.1 _ _ _ _ _ hh]
    exact .inl ⟨rfl, hp⟩
  · refine .inr ⟨hsem.acquire_error, err, rfl, ?_⟩
    rw [← hret.2 _ _ _ _ _ hh]
    exact hp

theorem not_stored {t x : Int} {out : Result T} {key b : Text} (h : Run (calls B qs) tr c)
    (hexit : ⟨t, .exit, out⟩ ∈ hist i tr) (hf : Failed (qs.req i) out) (he : e :: r <:+ tr)
    (ha : e.act = .proc i ev) (hv : B.view e.post ev.time key = some (.done b x)) :
    B.view e.pre ev.time key = some (.done b x) := by
  by_contra hne
  obtain ⟨hop, -⟩ := (entry_change h he ha).stored hv hne
  have hadm := admits h he ha
  rw [hop] at hadm
  obtain ⟨-, -, -, ta, td, d, te, tx, v, hm, hh⟩ := hadm
  -- a call has one exit, the one its completion follows
  obtain ⟨e₁, r₁, he₁, ha₁⟩ := exists_entry hexit
  obtain ⟨ta', td', d', te', hh₁⟩ := admits h he₁ ha₁
  have hs₁ := hist_suffix (i := i) he₁
  have hs := hist_suffix (i := i) ((suffix_cons _ _).trans he)
  rw [hist_cons_self ha₁, hh₁] at hs₁
  rw [hh] at hs
  have heq := (suffix_of_suffix_length_le hs₁ hs (le_refl _)).eq_of_length rfl
  obtain rfl : out = .returned v none := by
    have := (List.cons.inj heq).1
    simp only [Event.mk.injEq, heq_eq_eq, true_and] at this
    exact this.2
  rcases hf with hf | ⟨err, hf⟩
  · exact hf rfl
  · rw [hm] at hf
    cases hf

/-- Token safety and replay. Completing or releasing with the token of a call leaves
every unexpired record as it is, the running record of that token apart. Once a complete
took effect, every call of its key whose `acquire` happens within the life of the record
returns the decoded value, or an error when the reply was lost, and does not enter `fn`.
A call whose `fn` failed, or whose value did not encode, stores nothing. -/
theorem token_safety (h : Run (calls B qs) tr c) :
    (∀ e r i ev key now, e :: r <:+ tr → e.act = .proc i ev → ev.op.settles = true →
      ev.time ≤ now → B.view e.post now key = B.view e.pre now key ∨ key = (qs.req i).key ∧
        ∃ x, B.view e.pre ev.time key = some (.running (qs.req i).token x)) ∧
    (∀ e₁ r₁ i t₁ key token b ttl ans₁ e₂ r₂ j t₂ token' lease ans₂,
      e₁ :: r₁ <:+ r₂ → e₁.act = .proc i ⟨t₁, .complete key token b ttl, ans₁⟩ →
      B.view e₁.post t₁ key ≠ B.view e₁.pre t₁ key →
      e₂ :: r₂ <:+ tr → e₂.act = .proc j ⟨t₂, .acquire key token' lease, ans₂⟩ →
      t₂ < t₁ + B.life ttl →
      (ans₂ = .ok (.done b) ∧ c.procs j = .ret ((qs.req j).decode b) ∨ B.fallible = true ∧
        ∃ err, ans₂ = .error err ∧ c.procs j = .ret ((qs.req j).unavailable err)) ∧
      ∀ t, ⟨t, .enter, ()⟩ ∉ hist j tr) ∧
    (∀ i t out, ⟨t, .exit, out⟩ ∈ hist i tr → Failed (qs.req i) out →
      ∀ e r ev key b x, e :: r <:+ tr → e.act = .proc i ev →
        B.view e.post ev.time key = some (.done b x) →
        B.view e.pre ev.time key = some (.done b x)) := by
  refine ⟨?_, ?_, ?_⟩
  · intro e r i ev key now he ha hs hnow
    exact ((entry_change h he ha).settle_own hs).imp (view_eq_later hnow) id
  · intro e₁ r₁ i t₁ key token b ttl ans₁ e₂ r₂ j t₂ token' lease ans₂ he₁ ha₁ hne he₂ ha₂ ht
    have he₁' : e₁ :: r₁ <:+ tr := he₁.trans ((suffix_cons _ _).trans he₂)
    obtain ⟨rfl, rfl, rfl, -⟩ := admits h he₁' ha₁
    obtain ⟨x, hx, hset⟩ : ∃ x, t₁ + B.life (qs.req i).keeper.ttl ≤ x ∧
        B.view e₁.post t₁ (qs.req i).key = some (.done b x) := by
      have hc := entry_change h he₁' ha₁
      generalize B.view e₁.pre t₁ = v at *
      generalize B.view e₁.post t₁ = v' at *
      cases hc with
      | same => exact absurd rfl hne
      | completed _ hx => exact ⟨_, hx, by simp⟩
    have htime₁ : e₁.act.time = t₁ := by rw [ha₁]; rfl
    have htime₂ : e₂.act.time = t₂ := by rw [ha₂]; rfl
    rw [← htime₁] at hset
    have hlive : e₂.act.time < (Record.done b x).expires := by
      show e₂.act.time < x
      omega
    rcases record_kept h he₁ he₂ hset hlive with hv | ⟨k, ev, y, -, -, hrec⟩
    · rw [htime₂] at hv
      exact replayed h he₂ ha₂ hv
    · cases hrec
  · intro i t out hexit hf e r ev key b x he ha hv
    exact not_stored h hexit hf he ha hv

end Replay

section Milliseconds

/-- A call over Redis with a TTL of 1.5 milliseconds. -/
def briefRequest (token : Char) : Request Unit where
  keeper := ⟨1500000, second, by decide, second_pos⟩
  key := ['k']
  token := [token]
  token_ne := singleton_ne_nil token
  deadline := none
  zero := ()
  marshal _ := .ok ['1']
  unmarshal _ := .ok ()

def briefCalls : Calls Bool Unit where
  req i := briefRequest (if i then 'b' else 'a')
  unique i j h := by cases i <;> cases j <;> first | rfl | cases h

/-- The state in which the first call has stored its result, at 0. -/
def storedState : redis.State :=
  (redis.complete (redis.acquire redis.empty 0 0 ['k'] ['a'] second).2 0 0 ['k'] ['a'] ['1']
    1500000).2

/-- The first call stores its result at 0; the second acquires the key at `later`, with
the answer `found`, and goes on with `rest`. -/
def briefScript (later : Int) (found : Found)
    (rest : Script Bool Int Op (Ans Unit) Empty redis.State) :
    Script Bool Int Op (Ans Unit) Empty redis.State :=
  (.proc false ⟨0, .acquire ['k'] ['a'] second, .ok .acquired⟩,
      fun s => (redis.acquire s 0 0 ['k'] ['a'] second).2) ::
    (.proc false ⟨0, .withTimeout second, second⟩, id) ::
    (.proc false ⟨0, .enter, ()⟩, id) ::
    (.proc false ⟨0, .exit, .returned () none⟩, id) ::
    (.proc false ⟨0, .complete ['k'] ['a'] ['1'] 1500000, .ok true⟩,
      fun s => (redis.complete s 0 0 ['k'] ['a'] ['1'] 1500000).2) ::
    (.proc true ⟨later, .acquire ['k'] ['b'] second, .ok found⟩,
      fun s => (redis.acquire s later 0 ['k'] ['b'] second).2) :: rest

theorem briefScript_fits {later : Int} {found : Found}
    {rest : Script Bool Int Op (Ans Unit) Empty redis.State}
    (hlast : (redis.acquire storedState later 0 ['k'] ['b'] second).1 = .ok found)
    (hrest : rest.Fits (calls redis briefCalls)
      (redis.acquire storedState later 0 ['k'] ['b'] second).2) :
    (briefScript later found rest).Fits (calls redis briefCalls) redis.empty :=
  ⟨.replied (le_refl 0) (by decide) rfl, .withTimeout, .enter, .exit,
    .replied (le_refl 0) (by decide) rfl,
    .replied (le_refl 0) (by decide) (congrArg some (Prod.ext hlast rfl)), hrest⟩

/-- The second call finds the key free, and enters `fn`. -/
def rerunScript : Script Bool Int Op (Ans Unit) Empty redis.State :=
  briefScript 1200000 .acquired
    [(.proc true ⟨1200000, .withTimeout second, 1200000 + second⟩, id),
      (.proc true ⟨1200000, .enter, ()⟩, id)]

/-- Redis keeps the result of the first call for one millisecond: at 1.2 milliseconds,
within the TTL, the second call acquires the key and enters `fn`. -/
theorem rerun_within_ttl : ∃ (tr : Trace Bool Unit redis)
    (c : Config Bool Op (Ans Unit) redis.State (Result Unit)), Run (calls redis briefCalls) tr c ∧
    ∃ e₁ r₁ t₁ ans₁ e₂ r₂ t₂ ans₂ te, e₁ :: r₁ <:+ r₂ ∧ e₂ :: r₂ <:+ tr ∧
      e₁.act = .proc false ⟨t₁, .complete ['k'] ['a'] ['1'] 1500000, ans₁⟩ ∧
      redis.view e₁.post t₁ ['k'] ≠ redis.view e₁.pre t₁ ['k'] ∧
      e₂.act = .proc true ⟨t₂, .acquire ['k'] ['b'] second, ans₂⟩ ∧
      t₁ ≤ t₂ ∧ t₂ < t₁ + 1500000 ∧ ⟨te, .enter, ()⟩ ∈ hist true tr := by
  have hplay : (rerunScript.playAll (calls redis briefCalls).prog).isSome = true := by
    decide +kernel
  have hfits : rerunScript.Fits (calls redis briefCalls) redis.empty :=
    briefScript_fits (by decide +kernel) ⟨.withTimeout, .enter, trivial⟩
  obtain ⟨c, h⟩ := (Run.init rfl).extend hplay hfits (by decide) (by simp)
  refine ⟨_, c, h, _, _, 0, _, _, _, 1200000, _, 1200000, suffix_refl (_ :: _),
    drop_suffix 2 (rerunScript.record redis.empty []), rfl, ?_, rfl, by decide, by decide, ?_⟩
  · decide +kernel
  · simp [mem_hist, rerunScript, briefScript, Script.record]

/-- Half a millisecond after the first call stored its result, the second gets it. -/
theorem token_safety_replayed : ∃ (tr : Trace Bool Unit redis)
    (c : Config Bool Op (Ans Unit) redis.State (Result Unit)), Run (calls redis briefCalls) tr c ∧
    ∀ t, ⟨t, .enter, ()⟩ ∉ hist true tr := by
  have hplay : ((briefScript 500000 (.done ['1']) []).playAll
      (calls redis briefCalls).prog).isSome = true := by decide +kernel
  have hfits : (briefScript 500000 (.done ['1']) []).Fits (calls redis briefCalls) redis.empty :=
    briefScript_fits (by decide +kernel) trivial
  obtain ⟨c, h⟩ := (Run.init rfl).extend hplay hfits (by decide) (by simp)
  refine ⟨_, c, h, ?_⟩
  exact ((token_safety h).2.1 _ _ false 0 _ _ _ _ _ _ _ true 500000 _ _ _
    (suffix_refl (_ :: _)) rfl (by decide +kernel) (suffix_refl (_ :: _)) rfl
    (by decide)).2

end Milliseconds

end Skit.Dedup
