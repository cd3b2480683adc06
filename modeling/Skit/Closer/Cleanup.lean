import Skit.Closer.Handlers

/-!
# Cleanup by the closer

Every handler of the snapshot is called once, whatever the others do, and the closing calls return
when all of them have returned. No label occurs twice in a run: every party has a position that
its steps raise and that no other step lowers.
-/
namespace Skit.Closer
open Lib List Function Label State Handler Option

variable {ι κ : Type} {c : Calls ι κ} {s s' : State ι κ} {l : Label ι κ}
  {tr r : List (Label ι κ)} {i j : ι} {k : κ}

section Positions

inductive Party (ι κ : Type)
  | adder (i : ι)
  | closing (k : κ)
  | handler (i : ι)
  | error (i : ι)
  | body
  | waiter

def Adder.pos : Adder → Nat
  | .idle => 0
  | .called => 1
  | .locked => 2
  | .unlocking => 3
  | .returned => 4

def Closing.pos : Closing → Nat
  | .idle => 0
  | .called => 1
  | .inside => 2
  | .returned _ => 3

def Handler.pos : Handler → Nat
  | .idle => 0
  | .ready => 1
  | .running | .inline => 2
  | .reporting _ => 3
  | .exiting => 4
  | .done | .omitted => 5

def Body.pos : Body ι → Nat
  | .idle => 0
  | .locking => 1
  | .locked => 2
  | .unlocking => 3
  | .launching | .running | .calling _ => 4
  | .ranging => 5
  | .leaving => 6
  | .done => 7

def Waiter.pos : Waiter → Nat
  | .idle => 0
  | .waiting => 1
  | .done => 2

def State.pos [DecidableEq ι] (s : State ι κ) : Party ι κ → Nat
  | .adder i => (s.adders i).pos
  | .closing k => (s.closings k).pos
  | .handler i => (s.handlers i).pos
  | .error i => if i ∈ s.errs.map Prod.fst then 1 else 0
  | .body => s.body.pos
  | .waiter => s.waiter.pos

def Label.party : Label ι κ → Party ι κ
  | .call i | .skip i | .lock i | .added i | .refused i | .unlock i => .adder i
  | .close k | .pass k | .enter k | .leave k => .closing k
  | .lockBody | .snapshot | .unlockBody | .spawn | .finished => .body
  | .closeCh => .waiter
  | .omitted i | .launch i | .begin i | .finish i | .send i | .exit i => .handler i
  | .receive i => .error i

/-- The position that a step reaches. -/
def Label.turn : Label ι κ → Nat
  | .call _ | .close _ | .launch _ | .receive _ => 1
  | .lock _ | .enter _ | .lockBody | .begin _ | .closeCh => 2
  | .added _ | .refused _ | .pass _ | .leave _ | .snapshot | .finish _ => 3
  | .skip _ | .unlock _ | .unlockBody | .send _ => 4
  | .spawn | .omitted _ | .exit _ => 5
  | .finished => 6

theorem afterSnapshot_pos (mode : Kind) (funcs : List ι) :
    4 ≤ (afterSnapshot mode funcs).pos := by
  unfold afterSnapshot
  split_ifs
  · simp [Body.pos]
  · cases mode <;> simp [Body.pos]

theorem afterHandler_pos (err : Option Err) : 3 ≤ (afterHandler err).pos := by
  cases err <;> simp [afterHandler, Handler.pos]

/-- No party has gone back. -/
structure Later (s s' : State ι κ) : Prop where
  adders : ∀ i, (s.adders i).pos ≤ (s'.adders i).pos
  closings : ∀ k, (s.closings k).pos ≤ (s'.closings k).pos
  handlers : ∀ i, (s.handlers i).pos ≤ (s'.handlers i).pos
  body : s.body.pos ≤ s'.body.pos
  waiter : s.waiter.pos ≤ s'.waiter.pos
  errs : s.errs <+: s'.errs

theorem Later.refl (s : State ι κ) : Later s s :=
  ⟨fun _ => le_rfl, fun _ => le_rfl, fun _ => le_rfl, le_rfl, le_rfl, prefix_rfl⟩

theorem Later.pos_le [DecidableEq ι] (h : Later s s') (p : Party ι κ) : s.pos p ≤ s'.pos p := by
  cases p with
  | adder i => exact h.adders i
  | closing k => exact h.closings k
  | handler i => exact h.handlers i
  | body => exact h.body
  | waiter => exact h.waiter
  | error i =>
    simp only [State.pos]
    split_ifs with hi hi'
    · exact le_rfl
    · exact absurd ((h.errs.map Prod.fst).subset hi) hi'
    · exact Nat.zero_le _
    · exact le_rfl

theorem pos_update {α β : Type} [DecidableEq α] (pos : β → Nat) {f : α → β} {x : α} {y : β}
    (hy : pos (f x) ≤ pos y) (z : α) : pos (f z) ≤ pos (update f x y z) :=
  (forall_update_iff f fun z w => pos (f z) ≤ pos w).mpr ⟨hy, fun _ _ => le_rfl⟩ z

variable [DecidableEq ι] [DecidableEq κ]

theorem Step.pos_lt (hst : Step c s l s') (h : Trace (closer c) tr s) :
    s.pos l.party < l.turn := by
  cases hst with
  | call ha | skip ha _ | lock ha _ _ | added ha _ | refused ha _ | unlock ha =>
    simp [Label.party, State.pos, ha, Adder.pos, Label.turn]
  | close hk | pass hk _ | enter hk _ | leave hk _ =>
    simp [Label.party, State.pos, hk, Closing.pos, Label.turn]
  | lockBody hbody _ | snapshot hbody | unlockBody hbody | spawn hbody _ | finishedRange hbody _ _
  | finishedSync hbody _ =>
    simp [Label.party, State.pos, hbody, Body.pos, Label.turn]
  | closeCh hwaiting _ =>
    simp [Label.party, State.pos, hwaiting, Waiter.pos, Label.turn]
  | begin hi | finish hi _ | send hi _ _ | exit hi =>
    simp [Label.party, State.pos, hi, Handler.pos, Label.turn]
  | omitted _ htodo _ | launch _ htodo _ | beginSync _ htodo _ =>
    simp [Label.party, State.pos, idle_of_todo h htodo, Handler.pos, Label.turn]
  | @finishSync i o hbody _ =>
    have hi := ((going h).inline i).mpr hbody
    simp [Label.party, State.pos, hi, Handler.pos, Label.turn]
  | @receive i err rest _ hch =>
    have hnodup := (errors h).nodup
    rw [hch, map_append, nodup_append] at hnodup
    have hnot : i ∉ s.errs.map Prod.fst := fun hmem =>
      hnodup.2.2 i hmem i (by simp) rfl
    simp [Label.party, State.pos, hnot, Label.turn]

theorem Step.turn_le (hst : Step c s l s') : l.turn ≤ s'.pos l.party := by
  cases hst with
  | unlockBody => exact afterSnapshot_pos _ _
  | finish =>
    simp only [Label.party, State.pos, setHandler, update_self]
    exact afterHandler_pos _
  | receive => simp [Label.party, State.pos, Label.turn]
  | lockBody | snapshot | spawn | finishedRange | finishedSync | closeCh => exact le_rfl
  | call | skip | lock | added | refused | unlock =>
    simp [Label.party, State.pos, setAdder, Adder.pos, Label.turn]
  | close | pass | enter | leave =>
    simp [Label.party, State.pos, setClosing, Closing.pos, Label.turn]
  | _ => simp [Label.party, State.pos, setHandler, Handler.pos, Label.turn]

theorem Step.later (hst : Step c s l s') (h : Trace (closer c) tr s) : Later s s' := by
  have hrefl := Later.refl s
  cases hst with
  | call ha | skip ha _ | lock ha _ _ | added ha _ | refused ha _ | unlock ha =>
    exact { hrefl with adders := pos_update Adder.pos (by rw [ha]; simp [Adder.pos]) }
  | close hk | pass hk _ =>
    exact { hrefl with closings := pos_update Closing.pos (by rw [hk]; simp [Closing.pos]) }
  | enter hk hbody | leave hk hbody =>
    exact { hrefl with
      closings := pos_update Closing.pos (by rw [hk]; simp [Closing.pos])
      body := by rw [hbody]; simp [Body.pos] }
  | lockBody hbody _ | snapshot hbody | finishedRange hbody _ _ | finishedSync hbody _ =>
    exact { hrefl with body := by rw [hbody]; simp [Body.pos] }
  | unlockBody hbody =>
    refine { hrefl with body := ?_ }
    rw [hbody]
    exact le_trans (by simp [Body.pos]) (afterSnapshot_pos _ _)
  | spawn hbody _ =>
    exact { hrefl with
      body := by rw [hbody]; simp [Body.pos]
      waiter := by simp [(going h).waiter_idle (by simp [hbody]), Waiter.pos] }
  | omitted _ htodo _ | launch _ htodo _ =>
    have hidle := idle_of_todo h htodo
    exact { hrefl with handlers := pos_update Handler.pos (by rw [hidle]; simp [Handler.pos]) }
  | begin hi | send hi _ _ | exit hi =>
    exact { hrefl with handlers := pos_update Handler.pos (by rw [hi]; simp [Handler.pos]) }
  | finish hi _ =>
    refine { hrefl with handlers := pos_update Handler.pos ?_ }
    rw [hi]
    exact le_trans (by simp [Handler.pos]) (afterHandler_pos _)
  | closeCh hwaiting _ =>
    exact { hrefl with waiter := by rw [hwaiting]; simp [Waiter.pos] }
  | receive => exact { hrefl with errs := prefix_append _ _ }
  | beginSync hbody htodo _ =>
    exact { hrefl with
      handlers := pos_update Handler.pos (by rw [idle_of_todo h htodo]; simp [Handler.pos])
      body := by rw [hbody]; simp [Body.pos] }
  | finishSync hbody _ =>
    have hinline := ((going h).inline _).mpr hbody
    exact { hrefl with
      handlers := pos_update Handler.pos (by rw [hinline]; simp [Handler.pos])
      body := by rw [hbody]; simp [Body.pos]
      errs := prefix_append _ _ }

theorem turn_le_pos (h : Trace (closer c) tr s) (hl : l ∈ tr) : l.turn ≤ s.pos l.party := by
  revert l
  refine h.invariant (I := fun tr s => ∀ {l}, l ∈ tr → l.turn ≤ s.pos l.party) ?_ ?_
  · intro s _ l hl
    cases hl
  · intro tr s l s' htr hst ih l' hl'
    rcases mem_cons.mp hl' with rfl | hl'
    · exact hst.turn_le
    · exact (ih hl').trans ((hst.later htr).pos_le _)

theorem labels_nodup (h : Trace (closer c) tr s) : tr.Nodup := by
  refine h.invariant (I := fun tr _ => tr.Nodup) ?_ ?_
  · exact fun _ _ => nodup_nil
  · intro tr s l s' htr hst ih
    refine nodup_cons.mpr ⟨fun hmem => ?_, ih⟩
    have hle := turn_le_pos htr hmem
    have hlt := hst.pos_lt htr
    omega

end Positions

section Told

/-- Which handlers were called and which have returned. -/
structure Told (tr : List (Label ι κ)) (handlers : ι → Handler) : Prop where
  begin : ∀ i, .begin i ∈ tr ↔ (handlers i).begun = true
  finish : ∀ i, .finish i ∈ tr ↔ (handlers i).finished = true

variable {handlers : ι → Handler} {a : Handler}

theorem Told.cons (h : Told tr handlers) (hl : ∀ i, .begin i ≠ l ∧ .finish i ≠ l) :
    Told (l :: tr) handlers := by
  refine ⟨fun i => ?_, fun i => ?_⟩
  · rw [mem_cons, or_iff_right (hl i).1]
    exact h.begin i
  · rw [mem_cons, or_iff_right (hl i).2]
    exact h.finish i

variable [DecidableEq ι]

theorem Told.setHandler (h : Told tr handlers) (hbegun : a.begun = (handlers i).begun)
    (hfinished : a.finished = (handlers i).finished) :
    Told tr (update handlers i a) where
  begin := (forall_update_iff handlers fun j x => .begin j ∈ tr ↔ x.begun = true).mpr
    ⟨by rw [hbegun]; exact h.begin i, fun j _ => h.begin j⟩
  finish := (forall_update_iff handlers fun j x => .finish j ∈ tr ↔ x.finished = true).mpr
    ⟨by rw [hfinished]; exact h.finish i, fun j _ => h.finish j⟩

theorem Told.begins (h : Told tr handlers) (hi : (handlers i).finished = false)
    (ha : a.begun = true ∧ a.finished = false) :
    Told (.begin i :: tr) (update handlers i a) where
  begin := by
    refine (forall_update_iff handlers fun j x => .begin j ∈ .begin i :: tr ↔
      x.begun = true).mpr ⟨iff_of_true mem_cons_self ha.1, fun j hj => ?_⟩
    rw [mem_cons, or_iff_right (by simpa using hj)]
    exact h.begin j
  finish := by
    refine (forall_update_iff handlers fun j x => .finish j ∈ .begin i :: tr ↔
      x.finished = true).mpr ⟨?_, fun j _ => ?_⟩
    · rw [mem_cons, or_iff_right nofun, h.finish, hi, ha.2]
    · rw [mem_cons, or_iff_right nofun]
      exact h.finish j

theorem Told.finishes (h : Told tr handlers) (hi : (handlers i).begun = true)
    (ha : a.begun = true ∧ a.finished = true) :
    Told (.finish i :: tr) (update handlers i a) where
  begin := by
    refine (forall_update_iff handlers fun j x => .begin j ∈ .finish i :: tr ↔
      x.begun = true).mpr ⟨?_, fun j _ => ?_⟩
    · rw [mem_cons, or_iff_right nofun, h.begin, hi, ha.1]
    · rw [mem_cons, or_iff_right nofun]
      exact h.begin j
  finish := by
    refine (forall_update_iff handlers fun j x => .finish j ∈ .finish i :: tr ↔
      x.finished = true).mpr ⟨iff_of_true mem_cons_self ha.2, fun j hj => ?_⟩
    rw [mem_cons, or_iff_right (by simpa using hj)]
    exact h.finish j

theorem afterHandler_finished (err : Option Err) :
    (afterHandler err).begun = true ∧ (afterHandler err).finished = true := by
  cases err <;> exact ⟨rfl, rfl⟩

variable [DecidableEq κ]

theorem told (h : Trace (closer c) tr s) : Told tr s.handlers := by
  refine h.invariant (I := fun tr s => Told tr s.handlers) ?_ ?_
  · rintro s rfl
    exact ⟨fun i => iff_of_false nofun nofun, fun i => iff_of_false nofun nofun⟩
  · intro tr s l s' htr hst ih
    cases hst with
    | begin hi => exact ih.begins (by rw [hi]; rfl) ⟨rfl, rfl⟩
    | beginSync _ htodo _ => exact ih.begins (by rw [idle_of_todo htr htodo]; rfl) ⟨rfl, rfl⟩
    | finish hi _ => exact ih.finishes (by rw [hi]; rfl) (afterHandler_finished _)
    | finishSync hbody _ =>
      exact ih.finishes (by rw [((going htr).inline _).mpr hbody]; rfl) ⟨rfl, rfl⟩
    | omitted _ htodo _ | launch _ htodo _ =>
      have hidle := idle_of_todo htr htodo
      exact Told.setHandler (ih.cons fun _ => ⟨nofun, nofun⟩) (by rw [hidle]; rfl)
        (by rw [hidle]; rfl)
    | send hi _ _ | exit hi =>
      exact Told.setHandler (ih.cons fun _ => ⟨nofun, nofun⟩) (by rw [hi]; rfl) (by rw [hi]; rfl)
    | _ => exact ih.cons fun _ => ⟨nofun, nofun⟩

end Told

section Entered

/-- What the labels say of a closing call, and what it returns. -/
structure Entry (tr : List (Label ι κ)) (body : Body ι) (errs : List (ι × Err)) (k : κ)
    (a : Closing) : Prop where
  inside : a = .inside → .enter k ∈ tr
  outside : a = .idle ∨ a = .called → .enter k ∉ tr
  done : ∀ err, a = .returned err → body = .done
  ran : ∀ err, a = .returned err → .enter k ∈ tr → err = joined (errs.map Prod.snd)
  passed : ∀ err, a = .returned err → .enter k ∉ tr → err = none

/-- The closing call that runs the body. -/
structure Entered (c : Calls ι κ) (tr : List (Label ι κ)) (body : Body ι) (mode : Kind)
    (errs : List (ι × Err)) (closings : κ → Closing) : Prop where
  begun : ∀ k, .enter k ∈ tr → body ≠ .idle
  only : ∀ k k', .enter k ∈ tr → .enter k' ∈ tr → k = k'
  mode_eq : ∀ k, .enter k ∈ tr → mode = c.kind k
  entry : ∀ k, Entry tr body errs k (closings k)

variable {body body' : Body ι} {mode : Kind} {errs errs' : List (ι × Err)}
  {closings : κ → Closing} {a : Closing}

theorem Entered.cons (h : Entered c tr body mode errs closings) (hl : ∀ k, .enter k ≠ l) :
    Entered c (l :: tr) body mode errs closings := by
  have hmem : ∀ k, .enter k ∈ l :: tr ↔ .enter k ∈ tr := by
    intro k
    rw [mem_cons, or_iff_right (hl k)]
  refine ⟨?_, ?_, ?_, fun k => ?_⟩
  · simpa only [hmem] using h.begun
  · simpa only [hmem] using h.only
  · simpa only [hmem] using h.mode_eq
  · have hk := h.entry k
    refine ⟨?_, ?_, hk.done, ?_, ?_⟩ <;> rw [hmem]
    · exact hk.inside
    · exact hk.outside
    · exact hk.ran
    · exact hk.passed

theorem Entered.setBody (h : Entered c tr body mode errs closings) (hbody : body ≠ .done)
    (hbody' : body' ≠ .idle) : Entered c tr body' mode errs' closings := by
  refine ⟨fun _ _ => hbody', h.only, h.mode_eq, fun k => ?_⟩
  have hk := h.entry k
  have hnot : ∀ err, closings k ≠ .returned err := fun err heq => hbody (hk.done err heq)
  exact ⟨hk.inside, hk.outside, fun err heq => absurd heq (hnot err),
    fun err heq => absurd heq (hnot err), fun err heq => absurd heq (hnot err)⟩

variable [DecidableEq κ]

theorem Entered.setClosing (h : Entered c tr body mode errs closings)
    (ha : Entry tr body errs k a) :
    Entered c tr body mode errs (update closings k a) :=
  ⟨h.begun, h.only, h.mode_eq, (forall_update_iff closings (Entry tr body errs)).mpr
    ⟨ha, fun k' _ => h.entry k'⟩⟩

theorem Entered.enter (h : Entered c tr .idle mode errs closings) :
    Entered c (.enter k :: tr) .locking (c.kind k) errs (update closings k .inside) := by
  have hnone : ∀ k', .enter k' ∉ tr := fun k' hmem => h.begun k' hmem rfl
  have heq : ∀ k', .enter k' ∈ .enter k :: tr → k' = k := by
    intro k' hmem
    rcases mem_cons.mp hmem with hk' | hk'
    · cases hk'
      rfl
    · exact absurd hk' (hnone k')
  refine ⟨fun _ _ => nofun, fun k₁ k₂ h₁ h₂ => (heq k₁ h₁).trans (heq k₂ h₂).symm,
    fun k' hmem => by rw [heq k' hmem], ?_⟩
  refine (forall_update_iff closings (Entry (.enter k :: tr) .locking errs)).mpr
    ⟨⟨fun _ => mem_cons_self, by simp, nofun, nofun, nofun⟩, fun k' hk' => ?_⟩
  have hentry := h.entry k'
  have hnot : ∀ err, closings k' ≠ .returned err := fun err heq =>
    absurd (hentry.done err heq) nofun
  exact ⟨fun hin => absurd (hentry.inside hin) (hnone k'), fun _ hmem => hk' (heq k' hmem),
    fun err he => absurd he (hnot err), fun err he => absurd he (hnot err),
    fun err he => absurd he (hnot err)⟩

theorem Entered.leave (h : Entered c tr .leaving mode errs closings) (hk : closings k = .inside) :
    Entered c tr .done mode errs
      (update closings k (.returned (joined (errs.map Prod.snd)))) := by
  have hmem := (h.entry k).inside hk
  have hset : Entered c tr .done mode errs closings := h.setBody nofun nofun
  refine hset.setClosing ⟨nofun, by simp, fun _ _ => rfl, fun err heq _ => ?_,
    fun err _ hnot => absurd hmem hnot⟩
  cases heq
  rfl

theorem entered [DecidableEq ι] (h : Trace (closer c) tr s) :
    Entered c tr s.body s.mode s.errs s.closings := by
  refine h.invariant (I := fun tr s => Entered c tr s.body s.mode s.errs s.closings) ?_ ?_
  · rintro s rfl
    exact ⟨nofun, nofun, nofun, fun k => ⟨nofun, fun _ => nofun, nofun, nofun, nofun⟩⟩
  · intro tr s l s' htr hst ih
    cases hst with
    | close hk =>
      refine Entered.setClosing (ih.cons nofun) ⟨nofun, fun _ hmem => ?_, nofun, nofun, nofun⟩
      rcases mem_cons.mp hmem with heq | hmem
      · cases heq
      · exact (ih.entry _).outside (.inl hk) hmem
    | pass hk hbody =>
      refine Entered.setClosing (ih.cons nofun) ⟨nofun, by simp, fun _ _ => hbody,
        fun err _ hmem => ?_, fun err heq _ => ?_⟩
      · rcases mem_cons.mp hmem with heq | hmem
        · cases heq
        · exact absurd hmem ((ih.entry _).outside (.inr hk))
      · cases heq
        rfl
    | enter _ hbody =>
      rw [hbody] at ih
      exact ih.enter
    | leave hk hbody =>
      rw [hbody] at ih
      exact Entered.leave (ih.cons nofun) hk
    | unlockBody hbody =>
      have hne : afterSnapshot s.mode s.funcs ≠ .idle := by
        intro heq
        have htaken := afterSnapshot_taken s.mode s.funcs
        rw [heq] at htaken
        cases htaken
      exact Entered.setBody (ih.cons nofun) (by rw [hbody]; nofun) hne
    | lockBody hbody _ | snapshot hbody | spawn hbody _ | finishedRange hbody _ _
    | beginSync hbody _ _ | finishSync hbody _ | finishedSync hbody _ =>
      exact Entered.setBody (ih.cons nofun) (by rw [hbody]; nofun) nofun
    | receive hbody _ =>
      exact Entered.setBody (ih.cons nofun) (by rw [hbody]; nofun) (by rw [hbody]; nofun)
    | _ => exact ih.cons nofun

end Entered

section Snapshot

theorem Body.taken_of_pos {body : Body ι} (h : 3 ≤ body.pos) : body.taken = true := by
  cases body <;> first | rfl | simp [Body.pos] at h

/-- The `Add` that has released the lock, or is about to, has registered its handler. -/
def Lasting (tr : List (Label ι κ)) (i : ι) (a : Adder) : Prop :=
  a = .unlocking ∨ .unlock i ∈ tr → i ∈ registered tr

theorem Lasting.cons {a a' : Adder} (h : Lasting tr i a) (hl : .unlock i ≠ l)
    (ha : a' = .unlocking → a = .unlocking) : Lasting (l :: tr) i a' := by
  intro hi
  have hmem : i ∈ registered tr := by
    rcases hi with hi | hi
    · exact h (.inl (ha hi))
    · exact h (.inr ((mem_cons.mp hi).resolve_left hl))
  exact ((sublist_cons_self l tr).filterMap _).subset hmem

variable [DecidableEq ι] [DecidableEq κ] (h : Trace (closer c) tr s)
include h

theorem snapshot_mem (hclosed : s.closed = true) : .snapshot ∈ tr := by
  revert hclosed
  refine h.invariant (I := fun tr s => s.closed = true → .snapshot ∈ tr) ?_ ?_
  · rintro s rfl
    nofun
  · intro tr s l s' _ hst ih
    cases hst with
    | snapshot => exact fun _ => mem_cons_self
    | _ => exact fun hclosed => mem_cons_of_mem _ (ih hclosed)

theorem closed_of_snapshot (hmem : .snapshot ∈ tr) : s.closed = true :=
  (registry h).closed_iff.mpr (Body.taken_of_pos (turn_le_pos h hmem))

theorem registered_snapshot (hr : .snapshot :: r <:+ tr) : registered r = registered tr := by
  induction h with
  | init => exact absurd (suffix_nil.mp hr) nofun
  | @step tr s s' l h hst ih =>
    rcases suffix_cons_iff.mp hr with heq | hr
    · cases heq
      rfl
    · have hclosed := closed_of_snapshot h (hr.subset mem_cons_self)
      have hl : l.addedOf = none := by
        cases hst with
        | added _ hopen =>
          rw [hclosed] at hopen
          cases hopen
        | _ => rfl
      rw [ih hr, registered_cons hl]

theorem funcs_eq (hr : .snapshot :: r <:+ tr) : s.funcs = registered r := by
  have hreg := registry h
  have hclosed := closed_of_snapshot h (hr.subset mem_cons_self)
  rw [registered_snapshot h hr, ← hreg.registered_eq, hreg.emptied hclosed, reverse_nil,
    append_nil]

theorem lasting (hopen : s.closed = false) (i : ι) : Lasting tr i (s.adders i) := by
  revert i
  revert hopen
  refine h.invariant
    (I := fun tr s => s.closed = false → ∀ i, Lasting tr i (s.adders i)) ?_ ?_
  · rintro s rfl - i (hi | hi) <;> cases hi
  · intro tr s l s' htr hst ih hopen
    cases hst with
    | refused _ hclosed => exact absurd (hclosed.symm.trans hopen) nofun
    | snapshot => cases hopen
    | call | skip | lock =>
      exact (forall_update_iff s.adders (Lasting _)).mpr
        ⟨(ih hopen _).cons nofun nofun, fun j _ => (ih hopen j).cons nofun id⟩
    | added =>
      exact (forall_update_iff s.adders (Lasting _)).mpr
        ⟨fun _ => mem_cons_self, fun j _ => (ih hopen j).cons nofun id⟩
    | @unlock i ha =>
      refine (forall_update_iff s.adders (Lasting _)).mpr
        ⟨fun _ => ih hopen i (.inl ha), fun j hj => (ih hopen j).cons (fun heq => hj ?_) id⟩
      cases heq
      rfl
    | _ => exact fun i => (ih hopen i).cons nofun id

theorem mem_funcs_of_begin (hi : .begin i ∈ tr) : i ∈ s.funcs := by
  have hbegun := ((told h).begin i).mp hi
  refine mem_funcs_of_ne_idle h fun hidle => ?_
  rw [hidle] at hbegun
  cases hbegun

theorem snapshot_of_begin (hi : .begin i ∈ tr) : .snapshot ∈ tr := by
  refine snapshot_mem h ?_
  by_contra hopen
  have hmem := mem_funcs_of_begin h hi
  rw [((registry h).fresh (Bool.eq_false_iff.mpr hopen)).1] at hmem
  cases hmem

end Snapshot

section Order

theorem begun_cons (hl : l.beginOf = none) : begun (l :: tr) = begun tr := by
  rw [begun, filterMap_cons_none hl, begun]

theorem begun_begin : begun (.begin i :: tr) = begun tr ++ [i] := by
  have hbegin : beginOf (.begin i : Label ι κ) = some i := rfl
  rw [begun, filterMap_cons_some hbegin, reverse_cons, begun]

theorem begun_eq_nil (h : ∀ i, .begin i ∉ tr) : begun tr = [] := by
  rw [begun, reverse_eq_nil_iff, filterMap_eq_nil_iff]
  intro l hl
  cases l with
  | begin i => exact absurd hl (h i)
  | _ => rfl

variable [DecidableEq ι] [DecidableEq κ]

theorem begun_append_todo (h : Trace (closer c) tr s) (hmode : s.mode = .closeSync) :
    s.funcs = begun tr ++ s.todo := by
  revert hmode
  refine h.invariant (I := fun tr s => s.mode = .closeSync → s.funcs = begun tr ++ s.todo) ?_ ?_
  · rintro s rfl -
    rfl
  · intro tr s l s' htr hst ih hmode
    have hsync : s.mode = .closeSync → s.body ≠ .launching ∧ s.body ≠ .ranging := by
      refine fun hm => ⟨fun hb => ?_, fun hb => ?_⟩
      · exact absurd (((going htr).async (.inl hb)).symm.trans hm) nofun
      · exact absurd (((going htr).async (.inr hb)).symm.trans hm) nofun
    cases hst with
    | enter _ hbody =>
      have hreg := registry htr
      have hopen := hreg.not_closed (by rw [hbody]; rfl)
      have hnone : ∀ i, .begin i ∉ tr := by
        intro i hmem
        rw [closed_of_snapshot htr (snapshot_of_begin htr hmem)] at hopen
        cases hopen
      have hnil := hreg.fresh hopen
      rw [begun_cons rfl, begun_eq_nil hnone]
      exact hnil.1.trans hnil.2.symm
    | snapshot hbody =>
      have hreg := registry htr
      have hopen := hreg.not_closed (by rw [hbody]; rfl)
      have hbegun := ih hmode
      rw [(hreg.fresh hopen).1] at hbegun
      rw [begun_cons rfl, (append_eq_nil_iff.mp hbegun.symm).1]
      rfl
    | @omitted i rest _ htodo hnil =>
      have hfuncs : i ∈ s.funcs := by
        rw [ih hmode, htodo]
        simp
      exact absurd hnil ((added htr).handler i (mem_registered_of_funcs htr hfuncs))
    | launch hbody _ _ => exact absurd hbody (hsync hmode).1
    | begin hi =>
      rcases (going htr).live _ (by rw [hi]; rfl) with hb | hb
      · exact absurd hb (hsync hmode).1
      · exact absurd hb (hsync hmode).2
    | beginSync _ htodo _ =>
      have hfuncs := ih hmode
      rw [htodo] at hfuncs
      rw [begun_begin, append_assoc]
      exact hfuncs
    | _ =>
      rw [begun_cons rfl]
      exact ih hmode

theorem finish_of_begin_sync (h : Trace (closer c) tr s) (hk : .enter k ∈ tr)
    (hkind : c.kind k = .closeSync) (hr : .begin j :: r <:+ tr) (hi : .begin i ∈ r) :
    .finish i ∈ r := by
  obtain ⟨s₀, s₁, h₀, hst⟩ := h.at_label hr
  have hgoing := going h₀
  cases hst with
  | begin hj =>
    have hbody := hgoing.live _ (by rw [hj]; rfl)
    have hactive : s₀.body.active = true := by
      rcases hbody with hb | hb <;> rw [hb] <;> rfl
    obtain ⟨k₀, hk₀⟩ := ne_none_iff_exists'.mp ((owner h₀).active.mpr hactive)
    have henter := ((entered h₀).entry k₀).inside (((owner h₀).inside k₀).mpr hk₀)
    have hsuffix : r <:+ tr := (suffix_cons _ r).trans hr
    obtain rfl := (entered h).only k k₀ hk (hsuffix.subset henter)
    have hmode := (entered h₀).mode_eq k henter
    rw [hgoing.async hbody, hkind] at hmode
    cases hmode
  | beginSync hbody _ _ =>
    have hbegun := ((told h₀).begin i).mp hi
    have hlive := hgoing.not_live (by rw [hbody]; exact ⟨nofun, nofun⟩) i
    have hinline : s₀.handlers i ≠ .inline := by
      rw [Ne, hgoing.inline, hbody]
      nofun
    refine ((told h₀).finish i).mpr ?_
    cases hstage : s₀.handlers i with
    | done => rfl
    | inline => exact absurd hstage hinline
    | idle | omitted =>
      rw [hstage] at hbegun
      cases hbegun
    | ready | running | reporting | exiting =>
      rw [hstage] at hlive
      cases hlive

end Order

section Progress

variable [DecidableEq ι] [DecidableEq κ] (h : Trace (closer c) tr s)
include h

theorem errs_perm (hbody : s.body = .done) :
    (s.errs.map Prod.snd).Perm (s.funcs.filterMap c.error) := by
  have herrors := errors h
  rw [errsCh_nil h (by rw [hbody]; exact ⟨nofun, nofun⟩), append_nil] at herrors
  have hperm : s.errs.Perm (s.funcs.filterMap fun i => (c.error i).map fun err => (i, err)) := by
    refine (perm_ext_iff_of_nodup (.of_map _ herrors.nodup) ?_).mpr fun p => ?_
    · refine (funcs_nodup h).filterMap fun i j p hi hj => ?_
      obtain ⟨err, -, rfl⟩ := map_eq_some_iff.mp hi
      obtain ⟨err', -, heq⟩ := map_eq_some_iff.mp hj
      exact (congrArg Prod.fst heq).symm
    · obtain ⟨i, err⟩ := p
      rw [mem_filterMap]
      constructor
      · intro hmem
        obtain ⟨herr, hpast⟩ := herrors.sound _ hmem
        refine ⟨i, mem_funcs_of_ne_idle h fun hidle => ?_, by rw [herr]; rfl⟩
        rw [hidle] at hpast
        cases hpast
      · rintro ⟨j, hj, heq⟩
        obtain ⟨err', herr, hpair⟩ := map_eq_some_iff.mp heq
        cases hpair
        exact herrors.complete i err (by rw [done_of_ended h (.inr hbody) hj]; rfl) herr
  have hmap := hperm.map Prod.snd
  rw [map_filterMap] at hmap
  have hsnd : (fun i => ((c.error i).map fun err => (i, err)).map Prod.snd) = c.error := by
    funext i
    cases c.error i <;> rfl
  rw [hsnd] at hmap
  exact hmap

/-- A party can move that has begun before. -/
def Moves (c : Calls ι κ) (s : State ι κ) : Prop := ∃ l s', l.isCall = false ∧ Step c s l s'

theorem handler_of_not_idle (hi : s.handlers i ≠ .idle) : ∃ o, c.handler i = some o := by
  have hmem := mem_registered_of_funcs h (mem_funcs_of_ne_idle h hi)
  exact ne_none_iff_exists'.mp ((added h).handler i hmem)

theorem room {err : Err} (hi : s.handlers i = .reporting err) :
    s.errsCh.length < s.funcs.length := by
  have herrors := errors h
  have hpast : ∀ j ∈ s.errsCh.map Prod.fst, (s.handlers j).past = true := by
    intro j hj
    obtain ⟨p, hp, rfl⟩ := mem_map.mp hj
    exact (herrors.sound p (mem_append_right _ hp)).2
  have hnot : i ∉ s.errsCh.map Prod.fst := by
    intro hmem
    have := hpast i hmem
    rw [hi] at this
    cases this
  have hnodup := herrors.nodup
  rw [map_append, nodup_append] at hnodup
  have hsub : i :: s.errsCh.map Prod.fst ⊆ s.funcs := by
    intro j hj
    refine mem_funcs_of_ne_idle h fun hidle => ?_
    rcases mem_cons.mp hj with rfl | hj
    · rw [hi] at hidle
      cases hidle
    · have := hpast j hj
      rw [hidle] at this
      cases this
  have hle := (subperm_of_subset (nodup_cons.mpr ⟨hnot, hnodup.2.1⟩) hsub).length_le
  rw [length_cons, length_map] at hle
  omega

theorem moves_of_live (hi : (s.handlers i).live = true) : Moves c s := by
  have hgoing := going h
  cases hstage : s.handlers i with
  | ready => exact ⟨_, _, rfl, .begin hstage⟩
  | running =>
    obtain ⟨o, ho⟩ := handler_of_not_idle h (i := i) (by rw [hstage]; nofun)
    exact ⟨_, _, rfl, .finish hstage ho⟩
  | reporting err =>
    have hwaiter : s.waiter ≠ .done := by
      intro hdone
      rw [hgoing.waited hdone i] at hi
      cases hi
    exact ⟨_, _, rfl, .send hstage hwaiter (room h hstage)⟩
  | exiting => exact ⟨_, _, rfl, .exit hstage⟩
  | idle | omitted | inline | done =>
    rw [hstage] at hi
    cases hi

theorem moves_of_waiting (hwaiting : s.waiter = .waiting) : Moves c s := by
  by_cases hall : ∀ i, (s.handlers i).live = false
  · exact ⟨_, _, rfl, .closeCh hwaiting hall⟩
  · push Not at hall
    obtain ⟨i, hi⟩ := hall
    exact moves_of_live h (Bool.eq_true_of_not_eq_false hi)

theorem moves_of_mu (hmu : s.mu ≠ none) : Moves c s := by
  obtain ⟨holder, hholder⟩ := ne_none_iff_exists'.mp hmu
  have hlocks := locks h
  cases holder with
  | adder i =>
    have hi := (hlocks.adder i).mp hholder
    cases hstage : s.adders i with
    | locked =>
      cases hclosed : s.closed with
      | false => exact ⟨_, _, rfl, .added hstage hclosed⟩
      | true => exact ⟨_, _, rfl, .refused hstage hclosed⟩
    | unlocking => exact ⟨_, _, rfl, .unlock hstage⟩
    | idle | called | returned =>
      rw [hstage] at hi
      cases hi
  | body =>
    have hbody := hlocks.body.mp hholder
    cases hstage : s.body with
    | locked => exact ⟨_, _, rfl, .snapshot hstage⟩
    | unlocking => exact ⟨_, _, rfl, .unlockBody hstage⟩
    | _ =>
      rw [hstage] at hbody
      cases hbody

theorem moves_of_active (hactive : s.body.active = true) : Moves c s := by
  have hgoing := going h
  cases hbody : s.body with
  | locking =>
    by_cases hmu : s.mu = none
    · exact ⟨_, _, rfl, .lockBody hbody hmu⟩
    · exact moves_of_mu h hmu
  | locked => exact ⟨_, _, rfl, .snapshot hbody⟩
  | unlocking => exact ⟨_, _, rfl, .unlockBody hbody⟩
  | launching =>
    cases htodo : s.todo with
    | nil => exact ⟨_, _, rfl, .spawn hbody htodo⟩
    | cons i rest =>
      by_cases hnil : c.handler i = none
      · exact ⟨_, _, rfl, .omitted (.inl hbody) htodo hnil⟩
      · exact ⟨_, _, rfl, .launch hbody htodo hnil⟩
  | ranging =>
    cases hch : s.errsCh with
    | cons p rest => exact ⟨_, _, rfl, .receive hbody hch⟩
    | nil =>
      cases hwaiter : s.waiter with
      | idle => exact absurd hwaiter (hgoing.spawned hbody)
      | waiting => exact moves_of_waiting h hwaiter
      | done => exact ⟨_, _, rfl, .finishedRange hbody hch hwaiter⟩
  | running =>
    cases htodo : s.todo with
    | nil => exact ⟨_, _, rfl, .finishedSync hbody htodo⟩
    | cons i rest =>
      by_cases hnil : c.handler i = none
      · exact ⟨_, _, rfl, .omitted (.inr hbody) htodo hnil⟩
      · exact ⟨_, _, rfl, .beginSync hbody htodo hnil⟩
  | calling i =>
    have hi := (hgoing.inline i).mpr hbody
    obtain ⟨o, ho⟩ := handler_of_not_idle h (i := i) (by rw [hi]; nofun)
    exact ⟨_, _, rfl, .finishSync hbody ho⟩
  | leaving =>
    obtain ⟨k, hk⟩ := ne_none_iff_exists'.mp ((owner h).active.mpr hactive)
    exact ⟨_, _, rfl, .leave (((owner h).inside k).mpr hk) hbody⟩
  | idle | done =>
    rw [hbody] at hactive
    cases hactive

theorem moves_or_quiet : Quiet s ∨ Moves c s := by
  by_contra hnot
  rw [not_or] at hnot
  obtain ⟨hquiet, hstuck⟩ := hnot
  have hmu : s.mu = none := by
    by_contra hne
    exact hstuck (moves_of_mu h hne)
  have hbody : s.body.active ≠ true := fun hactive => hstuck (moves_of_active h hactive)
  refine hquiet ⟨fun i => ?_, fun k => ?_, fun i => ?_, fun hw => hstuck (moves_of_waiting h hw)⟩
  · cases hstage : s.adders i with
    | idle => exact .inl rfl
    | returned => exact .inr rfl
    | called =>
      refine absurd ?_ hstuck
      by_cases hnil : c.handler i = none
      · exact ⟨_, _, rfl, .skip hstage hnil⟩
      · exact ⟨_, _, rfl, .lock hstage hnil hmu⟩
    | locked | unlocking =>
      have hheld := ((locks h).adder i).mpr (by rw [hstage]; rfl)
      rw [hmu] at hheld
      cases hheld
  · cases hstage : s.closings k with
    | idle => exact .inl rfl
    | returned err => exact .inr ⟨err, rfl⟩
    | inside =>
      have hactive := (owner h).active.mp (by rw [((owner h).inside k).mp hstage]; nofun)
      exact absurd hactive hbody
    | called =>
      refine absurd ?_ hstuck
      cases hb : s.body with
      | idle => exact ⟨_, _, rfl, .enter hstage hb⟩
      | done => exact ⟨_, _, rfl, .pass hstage hb⟩
      | _ => exact moves_of_active h (by rw [hb]; rfl)
  · by_contra hlive
    exact hstuck (moves_of_live h (Bool.eq_true_of_not_eq_false hlive))

end Progress

section Finite

/-- The labels that belong to a call. -/
def Label.ofCall : Label ι κ → List (Label ι κ)
  | .call i => [.call i, .skip i, .lock i, .added i, .refused i, .unlock i, .omitted i, .launch i,
      .begin i, .finish i, .send i, .exit i, .receive i]
  | .close k => [.close k, .pass k, .enter k, .leave k]
  | _ => []

/-- The labels of the body and of the waiter. -/
def bodyLabels : List (Label ι κ) :=
  [.lockBody, .snapshot, .unlockBody, .spawn, .finished, .closeCh]

theorem length_ofCall_le (tr : List (Label ι κ)) :
    (tr.flatMap ofCall).length ≤ 13 * tr.countP isCall := by
  induction tr with
  | nil => exact Nat.zero_le _
  | cons l tr ih =>
    rw [flatMap_cons, length_append, countP_cons]
    cases l <;> simp only [ofCall, isCall, length_cons, length_nil] <;> grind

variable [DecidableEq ι] [DecidableEq κ] (h : Trace (closer c) tr s)
include h

theorem called_mem :
    (∀ i, s.adders i ≠ .idle → .call i ∈ tr) ∧ ∀ k, s.closings k ≠ .idle → .close k ∈ tr := by
  refine h.invariant (I := fun tr s => (∀ i, s.adders i ≠ .idle → .call i ∈ tr) ∧
    ∀ k, s.closings k ≠ .idle → .close k ∈ tr) ?_ ?_
  · rintro s rfl
    exact ⟨fun _ hne => absurd rfl hne, fun _ hne => absurd rfl hne⟩
  · intro tr s l s' htr hst ih
    have hcons : (∀ i, s.adders i ≠ .idle → .call i ∈ l :: tr) ∧
        ∀ k, s.closings k ≠ .idle → .close k ∈ l :: tr :=
      ⟨fun i hi => mem_cons_of_mem _ (ih.1 i hi),
        fun k hk => mem_cons_of_mem _ (ih.2 k hk)⟩
    have hadder : ∀ i a, .call i ∈ l :: tr →
        ∀ j, update s.adders i a j ≠ .idle → .call j ∈ l :: tr := fun i a hi =>
      (forall_update_iff s.adders fun j x => x ≠ .idle → call j ∈ l :: tr).mpr
        ⟨fun _ => hi, fun j _ => hcons.1 j⟩
    have hclosing : ∀ k a, .close k ∈ l :: tr →
        ∀ j, update s.closings k a j ≠ .idle → .close j ∈ l :: tr := fun k a hk =>
      (forall_update_iff s.closings fun j x => x ≠ .idle → close j ∈ l :: tr).mpr
        ⟨fun _ => hk, fun j _ => hcons.2 j⟩
    cases hst with
    | call => exact ⟨hadder _ _ mem_cons_self, hcons.2⟩
    | skip ha _ | lock ha _ _ | added ha _ | refused ha _ | unlock ha =>
      exact ⟨hadder _ _ (hcons.1 _ (by rw [ha]; nofun)), hcons.2⟩
    | close => exact ⟨hcons.1, hclosing _ _ mem_cons_self⟩
    | pass hk _ | enter hk _ | leave hk _ =>
      exact ⟨hcons.1, hclosing _ _ (hcons.2 _ (by rw [hk]; nofun))⟩
    | _ => exact hcons

theorem call_of_handler (hi : s.handlers i ≠ .idle) : .call i ∈ tr := by
  have hmem := mem_registered_of_funcs h (mem_funcs_of_ne_idle h hi)
  refine (called_mem h).1 i fun hidle => ?_
  rcases (added h).past i hmem with heq | heq <;> rw [hidle] at heq <;> cases heq

theorem mem_ofCall (hl : l ∈ tr) : l ∈ tr.flatMap ofCall ++ bodyLabels := by
  have hturn := turn_le_pos h hl
  have hcall : ∀ i, .call i ∈ tr → l ∈ ofCall (.call i) →
      l ∈ tr.flatMap ofCall ++ bodyLabels := fun i hi hof =>
    mem_append_left _ (mem_flatMap.mpr ⟨_, hi, hof⟩)
  cases l with
  | call i | skip i | lock i | added i | refused i | unlock i =>
    refine hcall i ((called_mem h).1 i fun hidle => ?_) (by simp [ofCall])
    simp [Label.party, State.pos, hidle, Adder.pos, Label.turn] at hturn
  | omitted i | launch i | begin i | finish i | send i | exit i =>
    refine hcall i (call_of_handler h fun hidle => ?_) (by simp [ofCall])
    simp [Label.party, State.pos, hidle, Handler.pos, Label.turn] at hturn
  | receive i =>
    refine hcall i (call_of_handler h fun hidle => ?_) (by simp [ofCall])
    have hmem : i ∈ s.errs.map Prod.fst := by
      by_contra hnot
      simp [Label.party, State.pos, hnot, Label.turn] at hturn
    obtain ⟨p, hp, rfl⟩ := mem_map.mp hmem
    have hpast := ((errors h).sound p (mem_append_left _ hp)).2
    rw [hidle] at hpast
    cases hpast
  | close k | pass k | enter k | leave k =>
    have hk : .close k ∈ tr := by
      refine (called_mem h).2 k fun hidle => ?_
      simp [Label.party, State.pos, hidle, Closing.pos, Label.turn] at hturn
    exact mem_append_left _ (mem_flatMap.mpr ⟨_, hk, by simp [ofCall]⟩)
  | lockBody | snapshot | unlockBody | spawn | finished | closeCh =>
    exact mem_append_right _ (by simp [bodyLabels])

theorem length_le : tr.length ≤ 13 * tr.countP isCall + 6 := by
  have hsub : tr ⊆ tr.flatMap ofCall ++ bodyLabels := fun _ hl => mem_ofCall h hl
  have hle := (subperm_of_subset (labels_nodup h) hsub).length_le
  have hcalls := length_ofCall_le tr
  rw [length_append] at hle
  have hbody : (bodyLabels : List (Label ι κ)).length = 6 := rfl
  omega

end Finite

section Results

variable [DecidableEq ι] [DecidableEq κ]

theorem all_done (h : Trace (closer c) tr s) {err : Option (List Err)}
    (hk : s.closings k = .returned err) : ∃ r, .snapshot :: r <:+ tr ∧
      ∀ i ∈ registered r, tr.count (.begin i) = 1 ∧ tr.count (.finish i) = 1 := by
  have hbody := ((entered h).entry k).done err hk
  have hclosed := (registry h).closed_iff.mpr (by rw [hbody]; rfl)
  obtain ⟨a, r, htr⟩ := append_of_mem (snapshot_mem h hclosed)
  have hr : .snapshot :: r <:+ tr := ⟨a, htr.symm⟩
  refine ⟨r, hr, fun i hi => ?_⟩
  rw [← funcs_eq h hr] at hi
  have hdone := done_of_ended h (.inr hbody) hi
  have hnodup := labels_nodup h
  exact ⟨count_eq_one_of_mem hnodup (((told h).begin i).mpr (by rw [hdone]; rfl)),
    count_eq_one_of_mem hnodup (((told h).finish i).mpr (by rw [hdone]; rfl))⟩

theorem closer_closes (h : Trace (closer c) tr s) : Closes c tr s where
  completed r i hr hi := by
    obtain ⟨s₀, s₁, h₀, hst⟩ := h.at_label hr
    cases hst with
    | snapshot hbody =>
      exact lasting h₀ ((registry h₀).not_closed (by rw [hbody]; rfl)) i (.inr hi)
  once i := nodup_iff_count_le_one.mp (labels_nodup h) _
  all _ _ hk := all_done h hk
  later r i hr hi hmem := hi (funcs_eq h hr ▸ mem_funcs_of_begin h hmem)
  early hnot i hmem := hnot (snapshot_of_begin h hmem)
  order k r hk hkind hr := by
    have hmode := ((entered h).mode_eq k hk).trans hkind
    refine ⟨⟨s.todo, ?_⟩, fun i j r' hr' hi => finish_of_begin_sync h hk hkind hr' hi⟩
    rw [← funcs_eq h hr, begun_append_todo h hmode]
  only := (entered h).only
  result k err r hk hreturned hr := by
    have hentry := (entered h).entry k
    refine ⟨s.errs.map Prod.snd, ?_, hentry.ran err hreturned hk⟩
    rw [← funcs_eq h hr]
    exact errs_perm h (hentry.done err hreturned)
  others k err hk hreturned := ((entered h).entry k).passed err hreturned hk
  moves := moves_or_quiet h
  finite := length_le h

/-- A handler that panics and one that comes late, a `Close` and a `CloseSync`. -/
def panicking : Calls Bool Bool where
  handler late := some (if late then .returned none else .panicked "boom")
  kind sync := if sync then .closeSync else .close

theorem panicking_closes : ∃ tr s, Trace (closer panicking) tr s ∧ .refused true ∈ tr ∧
    s.closings false = .returned (some [.text "panic recovered in closer: boom"]) ∧
    s.closings true = .returned none ∧ Closes panicking tr s := by
  have hnew : Trace (closer panicking) [] .new := .init rfl
  have hlock := (hnew.step (.call (i := false) rfl)).step (.lock (i := false) rfl nofun rfl)
  have hadd := (hlock.step (.added (i := false) rfl rfl)).step (.unlock (i := false) rfl)
  have henter := (hadd.step (.close (k := false) rfl)).step (.enter (k := false) rfl rfl)
  have hwait := henter.step (.close (k := true) rfl)
  have hsnapshot := ((hwait.step (.lockBody rfl rfl)).step (.snapshot rfl)).step (.unlockBody rfl)
  have hcall := (hsnapshot.step (.call (i := true) rfl)).step (.lock (i := true) rfl nofun rfl)
  have hlate := (hcall.step (.refused (i := true) rfl rfl)).step (.unlock (i := true) rfl)
  have hlaunch := (hlate.step (.launch rfl rfl nofun)).step (.spawn rfl rfl)
  have hpanic := (hlaunch.step (.begin (i := false) rfl)).step (.finish (i := false) rfl rfl)
  have hsend := (hpanic.step (.send (i := false) rfl nofun (by decide))).step
    (.exit (i := false) rfl)
  have hclosed := ((hsend.step (.closeCh rfl (by decide))).step (.receive rfl rfl)).step
    (.finishedRange rfl rfl rfl)
  have hdone := (hclosed.step (.leave (k := false) rfl rfl)).step (.pass (k := true) rfl rfl)
  exact ⟨_, _, hdone, by decide, rfl, rfl, closer_closes hdone⟩

end Results

end Skit.Closer
