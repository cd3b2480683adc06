import Skit.Closer.Machine
import Mathlib.Data.List.Perm.Subperm

/-!
# The handlers of the closer

Who holds the mutex and who runs the body of `once.Do`, what is registered before and after the
snapshot, where the handlers stand, and which errors were sent. The invariants are stated over the
parts of the state that they speak of, so that a step of another party keeps them as they are.
-/
namespace Skit.Closer
open Lib List Function Option

variable {ι κ : Type} {c : Calls ι κ} {s s' : State ι κ} {l : Label ι κ}
  {tr r : List (Label ι κ)} {i j : ι} {k : κ}

section Locks

/-- Who holds `mu`. -/
structure Locks (adders : ι → Adder) (mu : Option (Holder ι)) (body : Body ι) : Prop where
  adder : ∀ i, mu = some (.adder i) ↔ (adders i).holds = true
  body : mu = some .body ↔ body.holds = true

variable {adders : ι → Adder} {mu : Option (Holder ι)} {body body' : Body ι} {a : Adder}

theorem Locks.setBody (h : Locks adders mu body) (hbody : body'.holds = body.holds) :
    Locks adders mu body' :=
  ⟨h.adder, h.body.trans (by rw [hbody])⟩

theorem Locks.lockBody (h : Locks adders none body) (hbody : body'.holds = true) :
    Locks adders (some .body) body' := by
  refine ⟨fun j => iff_of_false nofun fun hheld => ?_, iff_of_true rfl hbody⟩
  cases (h.adder j).mpr hheld

theorem Locks.unlockBody (h : Locks adders mu body) (hbody : body.holds = true)
    (hbody' : body'.holds = false) : Locks adders none body' := by
  obtain rfl := h.body.mpr hbody
  refine ⟨fun j => iff_of_false nofun fun hheld => ?_, iff_of_false nofun ?_⟩
  · cases (h.adder j).mpr hheld
  · rw [hbody']
    nofun

theorem afterSnapshot_holds (mode : Kind) (funcs : List ι) :
    (afterSnapshot mode funcs).holds = false := by
  unfold afterSnapshot
  split_ifs
  · rfl
  · cases mode <;> rfl

variable [DecidableEq ι]

theorem Locks.setAdder (h : Locks adders mu body)
    (ha : a.holds = (adders i).holds) : Locks (update adders i a) mu body where
  adder := (forall_update_iff adders fun j x => mu = some (.adder j) ↔ x.holds = true).mpr
    ⟨by rw [ha]; exact h.adder i, fun j _ => h.adder j⟩
  body := h.body

theorem Locks.lock (h : Locks adders none body) (ha : a.holds = true) :
    Locks (update adders i a) (some (.adder i)) body := by
  refine ⟨(forall_update_iff adders fun j x => some (Holder.adder i) =
    some (Holder.adder j) ↔ x.holds = true).mpr ⟨iff_of_true rfl ha, fun j hj => ?_⟩,
    iff_of_false nofun fun hbody => ?_⟩
  · refine iff_of_false (fun heq => hj ?_) fun hheld => ?_
    · cases heq
      rfl
    · cases (h.adder j).mpr hheld
  · cases h.body.mpr hbody

theorem Locks.unlock (h : Locks adders mu body) (hi : (adders i).holds = true)
    (ha : a.holds = false) : Locks (update adders i a) none body := by
  obtain rfl := (h.adder i).mpr hi
  refine ⟨(forall_update_iff adders fun j x => none = some (Holder.adder j) ↔
    x.holds = true).mpr ⟨iff_of_false nofun (by rw [ha]; nofun), fun j hj => ?_⟩,
    iff_of_false nofun fun hbody => ?_⟩
  · refine iff_of_false nofun fun hheld => ?_
    cases (h.adder j).mpr hheld
    exact hj rfl
  · cases h.body.mpr hbody

theorem locks [DecidableEq κ] (h : Trace (closer c) tr s) : Locks s.adders s.mu s.body := by
  refine h.invariant (I := fun _ s => Locks s.adders s.mu s.body) ?_ ?_
  · rintro s rfl
    exact ⟨fun i => iff_of_false nofun nofun, iff_of_false nofun nofun⟩
  · intro tr s l s' _ hst ih
    cases hst with
    | call ha | skip ha _ | added ha _ | refused ha _ => exact ih.setAdder (by rw [ha]; rfl)
    | lock _ _ hmu =>
      rw [hmu] at ih
      exact ih.lock rfl
    | unlock ha => exact ih.unlock (by rw [ha]; rfl) rfl
    | lockBody _ hmu =>
      rw [hmu] at ih
      exact ih.lockBody rfl
    | unlockBody hbody => exact ih.unlockBody (by rw [hbody]; rfl) (afterSnapshot_holds _ _)
    | enter _ hbody | leave _ hbody | snapshot hbody | spawn hbody _ | finishedRange hbody _ _
    | beginSync hbody _ _ | finishSync hbody _ | finishedSync hbody _ =>
      exact ih.setBody (by rw [hbody]; rfl)
    | _ => exact ih

end Locks

section Once

/-- The one closing call that runs the body. -/
structure Owner (closings : κ → Closing) (once : Option κ) (body : Body ι) : Prop where
  inside : ∀ k, closings k = .inside ↔ once = some k
  active : once ≠ none ↔ body.active = true

variable {closings : κ → Closing} {once : Option κ} {body body' : Body ι} {a : Closing}

section

variable (h : Owner closings once body)
include h

theorem Owner.setBody (hbody : body'.active = body.active) : Owner closings once body' :=
  ⟨h.inside, h.active.trans (by rw [hbody])⟩

variable [DecidableEq κ]

theorem Owner.setClosing (hk : closings k ≠ .inside)
    (ha : a ≠ .inside) : Owner (update closings k a) once body where
  inside := (forall_update_iff closings fun k x => x = .inside ↔ once = some k).mpr
    ⟨iff_of_false ha fun heq => hk ((h.inside k).mpr heq), fun k' _ => h.inside k'⟩
  active := h.active

theorem Owner.enter (hbody : body.active = false) (hbody' : body'.active = true) :
    Owner (update closings k .inside) (some k) body' := by
  have hnone : once = none := by
    by_contra hne
    rw [h.active.mp hne] at hbody
    cases hbody
  refine ⟨(forall_update_iff closings fun k' x => x = .inside ↔ some k = some k').mpr
    ⟨iff_of_true rfl rfl, fun k' hk' => ?_⟩, iff_of_true nofun hbody'⟩
  rw [h.inside, hnone]
  refine iff_of_false nofun fun heq => hk' ?_
  cases heq
  rfl

theorem Owner.leave (hk : closings k = .inside) (ha : a ≠ .inside) (hbody' : body'.active = false) :
    Owner (update closings k a) none body' := by
  obtain rfl := (h.inside k).mp hk
  refine ⟨(forall_update_iff closings fun k' x => x = .inside ↔ none = some k').mpr
    ⟨iff_of_false ha nofun, fun k' hk' => iff_of_false ?_ nofun⟩,
    iff_of_false (fun hne => hne rfl) ?_⟩
  · rw [h.inside]
    intro heq
    cases heq
    exact hk' rfl
  · rw [hbody']
    nofun

end

theorem afterSnapshot_active (mode : Kind) (funcs : List ι) :
    (afterSnapshot mode funcs).active = true := by
  unfold afterSnapshot
  split_ifs
  · rfl
  · cases mode <;> rfl

theorem owner [DecidableEq ι] [DecidableEq κ] (h : Trace (closer c) tr s) :
    Owner s.closings s.once s.body := by
  refine h.invariant (I := fun _ s => Owner s.closings s.once s.body) ?_ ?_
  · rintro s rfl
    exact ⟨fun k => iff_of_false nofun nofun, iff_of_false (fun hne => hne rfl) nofun⟩
  · intro tr s l s' _ hst ih
    cases hst with
    | close hk | pass hk _ => exact ih.setClosing (by rw [hk]; nofun) nofun
    | enter _ hbody => exact ih.enter (by rw [hbody]; rfl) rfl
    | leave hk _ => exact ih.leave hk nofun rfl
    | unlockBody hbody => exact ih.setBody (by rw [hbody, afterSnapshot_active]; rfl)
    | lockBody hbody _ | snapshot hbody | spawn hbody _ | finishedRange hbody _ _
    | beginSync hbody _ _ | finishSync hbody _ | finishedSync hbody _ =>
      exact ih.setBody (by rw [hbody]; rfl)
    | _ => exact ih

end Once

section Registry

/-- The handlers before and after the snapshot. -/
structure Registry (tr : List (Label ι κ)) (body : Body ι) (closed : Bool)
    (fns funcs todo : List ι) : Prop where
  closed_iff : closed = true ↔ body.taken = true
  fresh : closed = false → funcs = [] ∧ todo = []
  emptied : closed = true → fns = []
  registered_eq : funcs ++ fns.reverse = registered tr

variable {body body' : Body ι} {closed : Bool} {fns funcs todo todo' : List ι}

theorem registered_cons (hl : l.addedOf = none) : registered (l :: tr) = registered tr :=
  filterMap_cons_none hl

section

variable (h : Registry tr body closed fns funcs todo)
include h

theorem Registry.not_closed (hbody : body.taken = false) : closed = false := by
  rw [← Bool.not_eq_true, h.closed_iff, hbody]
  exact Bool.false_ne_true

theorem Registry.cons (hl : l.addedOf = none) : Registry (l :: tr) body closed fns funcs todo :=
  ⟨h.closed_iff, h.fresh, h.emptied, h.registered_eq.trans (registered_cons hl).symm⟩

theorem Registry.setBody
    (hbody : body'.taken = body.taken) : Registry tr body' closed fns funcs todo :=
  ⟨h.closed_iff.trans (by rw [hbody]), h.fresh, h.emptied, h.registered_eq⟩

theorem Registry.setTodo (hbody : body.taken = true) (todo' : List ι) :
    Registry tr body closed fns funcs todo' := by
  obtain rfl := h.closed_iff.mpr hbody
  exact ⟨h.closed_iff, nofun, h.emptied, h.registered_eq⟩

end

theorem Registry.added (h : Registry tr body false fns funcs todo) :
    Registry (.added i :: tr) body false (fns ++ [i]) funcs todo := by
  refine ⟨h.closed_iff, h.fresh, nofun, ?_⟩
  have hadded : Label.addedOf (.added i : Label ι κ) = some i := rfl
  have hregistered := h.registered_eq
  rw [(h.fresh rfl).1, nil_append] at hregistered
  rw [(h.fresh rfl).1, registered, filterMap_cons_some hadded, reverse_concat,
    hregistered]
  rfl

theorem Registry.snapshot (h : Registry tr body closed fns funcs todo)
    (hbody : body.taken = false) (hbody' : body'.taken = true) :
    Registry tr body' true [] fns.reverse fns.reverse := by
  have hopen := h.not_closed hbody
  have hregistered := h.registered_eq
  rw [(h.fresh hopen).1, nil_append] at hregistered
  refine ⟨iff_of_true rfl hbody', nofun, fun _ => rfl, ?_⟩
  rw [reverse_nil, append_nil, hregistered]

theorem afterSnapshot_taken (mode : Kind) (funcs : List ι) :
    (afterSnapshot mode funcs).taken = true := by
  unfold afterSnapshot
  split_ifs
  · rfl
  · cases mode <;> rfl

theorem registry [DecidableEq ι] [DecidableEq κ] (h : Trace (closer c) tr s) :
    Registry tr s.body s.closed s.fns s.funcs s.todo := by
  refine h.invariant (I := fun tr s => Registry tr s.body s.closed s.fns s.funcs s.todo) ?_ ?_
  · rintro s rfl
    exact ⟨iff_of_false nofun nofun, fun _ => ⟨rfl, rfl⟩, nofun, rfl⟩
  · intro tr s l s' _ hst ih
    cases hst with
    | added _ hclosed =>
      rw [hclosed] at ih
      simp only [State.setAdder, hclosed]
      exact ih.added
    | snapshot hbody => exact (ih.cons rfl).snapshot (by rw [hbody]; rfl) rfl
    | unlockBody hbody =>
      exact (ih.cons rfl).setBody (by rw [hbody, afterSnapshot_taken]; rfl)
    | omitted hbody _ _ =>
      refine (ih.cons rfl).setTodo ?_ _
      rcases hbody with hbody | hbody <;> rw [hbody] <;> rfl
    | launch hbody _ _ => exact (ih.cons rfl).setTodo (by rw [hbody]; rfl) _
    | beginSync hbody _ _ =>
      exact ((ih.cons rfl).setTodo (by rw [hbody]; rfl) _).setBody (by rw [hbody]; rfl)
    | enter _ hbody | leave _ hbody | lockBody hbody _ | spawn hbody _ | finishedRange hbody _ _
    | finishSync hbody _ | finishedSync hbody _ =>
      exact (ih.cons rfl).setBody (by rw [hbody]; rfl)
    | _ => exact ih.cons rfl

/-- What is registered: no handler twice, and no nil handler. -/
structure Added (c : Calls ι κ) (tr : List (Label ι κ)) (adders : ι → Adder) : Prop where
  nodup : (registered tr).Nodup
  past : ∀ i, i ∈ registered tr → adders i = .unlocking ∨ adders i = .returned
  locked : ∀ i, (adders i).holds = true → c.handler i ≠ none
  handler : ∀ i ∈ registered tr, c.handler i ≠ none

variable {adders : ι → Adder} {a : Adder}

theorem Added.cons (h : Added c tr adders) (hl : l.addedOf = none) : Added c (l :: tr) adders := by
  refine ⟨?_, ?_, h.locked, ?_⟩ <;> rw [registered_cons hl]
  · exact h.nodup
  · exact h.past
  · exact h.handler

theorem Added.notMem (h : Added c tr adders) (hi : adders i ≠ .unlocking ∧ adders i ≠ .returned) :
    i ∉ registered tr := fun hmem => (h.past i hmem).elim hi.1 hi.2

variable [DecidableEq ι]

theorem Added.setAdder (h : Added c tr adders) (ha : a.holds = true → c.handler i ≠ none)
    (hpast : i ∈ registered tr → a = .unlocking ∨ a = .returned) :
    Added c tr (update adders i a) where
  nodup := h.nodup
  past := (forall_update_iff adders fun j x => j ∈ registered tr →
    x = .unlocking ∨ x = .returned).mpr ⟨hpast, fun j _ => h.past j⟩
  locked := (forall_update_iff adders fun j x => x.holds = true →
    c.handler j ≠ none).mpr ⟨ha, fun j _ => h.locked j⟩
  handler := h.handler

theorem Added.added (h : Added c tr adders) (hi : adders i = .locked) :
    Added c (.added i :: tr) (update adders i .unlocking) := by
  have hnil : c.handler i ≠ none := h.locked i (by rw [hi]; rfl)
  have hnot : i ∉ registered tr := h.notMem (by rw [hi]; exact ⟨nofun, nofun⟩)
  have hset := h.setAdder (i := i) (a := .unlocking) (fun _ => hnil) fun _ => .inl rfl
  refine ⟨nodup_cons.mpr ⟨hnot, h.nodup⟩, fun j hj => ?_, hset.locked, fun j hj => ?_⟩
  · rcases mem_cons.mp hj with rfl | hj
    · exact .inl (update_self _ _ _)
    · exact hset.past j hj
  · rcases mem_cons.mp hj with rfl | hj
    · exact hnil
    · exact h.handler j hj

variable [DecidableEq κ]

theorem added (h : Trace (closer c) tr s) : Added c tr s.adders := by
  refine h.invariant (I := fun tr s => Added c tr s.adders) ?_ ?_
  · rintro s rfl
    exact ⟨nodup_nil, nofun, nofun, nofun⟩
  · intro tr s l s' _ hst ih
    cases hst with
    | call ha =>
      refine (ih.cons rfl).setAdder nofun fun hmem => ?_
      exact absurd hmem ((ih.cons rfl).notMem (by rw [ha]; exact ⟨nofun, nofun⟩))
    | skip | unlock => exact (ih.cons rfl).setAdder nofun fun _ => .inr rfl
    | lock ha hnil _ =>
      refine (ih.cons rfl).setAdder (fun _ => hnil) fun hmem => ?_
      exact absurd hmem ((ih.cons rfl).notMem (by rw [ha]; exact ⟨nofun, nofun⟩))
    | refused ha _ =>
      exact (ih.cons rfl).setAdder (fun _ => ih.locked _ (by rw [ha]; rfl)) fun _ => .inl rfl
    | added ha _ => exact ih.added ha
    | _ => exact ih.cons rfl

theorem mem_registered_of_funcs (h : Trace (closer c) tr s)
    (hi : i ∈ s.funcs) : i ∈ registered tr := by
  rw [← (registry h).registered_eq]
  exact mem_append_left _ hi

theorem funcs_nodup (h : Trace (closer c) tr s) : s.funcs.Nodup := by
  have hnodup := (added h).nodup
  rw [← (registry h).registered_eq, nodup_append] at hnodup
  exact hnodup.1

end Registry

section Handlers

/-- Where the handlers stand. -/
structure Going (c : Calls ι κ) (mode : Kind) (body : Body ι) (waiter : Waiter)
    (handlers : ι → Handler) (funcs todo : List ι) : Prop where
  split : ∃ ran, funcs = ran ++ todo ∧ ∀ i, handlers i = .idle ↔ i ∉ ran
  inline : ∀ i, handlers i = .inline ↔ body = .calling i
  live : ∀ i, (handlers i).live = true → body = .launching ∨ body = .ranging
  omitted : ∀ i, handlers i = .omitted → c.handler i = none
  async : body = .launching ∨ body = .ranging → mode = .close
  ended : body = .ranging ∨ body = .leaving ∨ body = .done → todo = []
  spawned : body = .ranging → waiter ≠ .idle
  waiting : waiter ≠ .idle → body = .ranging ∨ body = .leaving ∨ body = .done
  waited : waiter = .done → ∀ i, (handlers i).live = false

variable {mode mode' : Kind} {body body' : Body ι} {waiter : Waiter} {handlers : ι → Handler}
  {funcs todo rest : List ι} {a : Handler}

/-- No handler is running. -/
def Body.still : Body ι → Bool
  | .launching | .ranging | .calling _ => false
  | _ => true

theorem Going.not_live (h : Going c mode body waiter handlers funcs todo)
    (hbody : body ≠ .launching ∧ body ≠ .ranging) (i : ι) : (handlers i).live = false := by
  rw [← Bool.not_eq_true]
  intro hlive
  rcases h.live i hlive with heq | heq
  · exact hbody.1 heq
  · exact hbody.2 heq

theorem Going.waiter_idle (h : Going c mode body waiter handlers funcs todo)
    (hbody : body ≠ .ranging ∧ body ≠ .leaving ∧ body ≠ .done) : waiter = .idle := by
  by_contra hne
  rcases h.waiting hne with heq | heq | heq
  · exact hbody.1 heq
  · exact hbody.2.1 heq
  · exact hbody.2.2 heq

theorem Body.still_ne (hbody : body.still = true) :
    body ≠ .launching ∧ body ≠ .ranging ∧ ∀ i, body ≠ .calling i := by
  refine ⟨?_, ?_, fun i => ?_⟩ <;> rintro rfl <;> cases hbody

/-- The body moves while no handler is running. -/
theorem Going.setBody (h : Going c mode body waiter handlers funcs todo)
    (hlive : ∀ i, (handlers i).live = false) (hinline : ∀ i, body ≠ .calling i)
    (hbody' : body'.still = true)
    (hended : body' = .leaving ∨ body' = .done → todo = [])
    (hwaiting : waiter ≠ .idle → body' = .leaving ∨ body' = .done) :
    Going c mode' body' waiter handlers funcs todo where
  split := h.split
  inline i := iff_of_false (fun hi => hinline i ((h.inline i).mp hi)) ((Body.still_ne hbody').2.2 i)
  live i hi := by
    rw [hlive i] at hi
    cases hi
  omitted := h.omitted
  async hasync := by
    rcases hasync with heq | heq
    · exact absurd heq (Body.still_ne hbody').1
    · exact absurd heq (Body.still_ne hbody').2.1
  ended hend := by
    rcases hend with heq | hend
    · exact absurd heq (Body.still_ne hbody').2.1
    · exact hended hend
  spawned heq := absurd heq (Body.still_ne hbody').2.1
  waiting hne := .inr (hwaiting hne)
  waited _ := hlive

theorem Going.spawn (h : Going c mode .launching waiter handlers funcs []) :
    Going c mode .ranging .waiting handlers funcs [] where
  split := h.split
  inline i := iff_of_false (fun hi => absurd ((h.inline i).mp hi) nofun) nofun
  live _ _ := .inr rfl
  omitted := h.omitted
  async _ := h.async (.inl rfl)
  ended _ := rfl
  spawned _ := nofun
  waiting _ := .inl rfl
  waited := nofun

theorem Going.snapshot (h : Going c mode .locked waiter handlers [] todo) (fns : List ι) :
    Going c mode .unlocking waiter handlers fns fns := by
  have hwaiter := h.waiter_idle ⟨nofun, nofun, nofun⟩
  have hset : Going c mode .unlocking waiter handlers [] todo :=
    h.setBody (h.not_live ⟨nofun, nofun⟩) nofun rfl (by simp) fun hne => absurd hwaiter hne
  refine ⟨⟨[], rfl, ?_⟩, hset.inline, hset.live, hset.omitted, hset.async, by simp, hset.spawned,
    hset.waiting, hset.waited⟩
  obtain ⟨ran, hfuncs, hidle⟩ := h.split
  rw [(append_eq_nil_iff.mp hfuncs.symm).1] at hidle
  exact hidle

theorem Going.unlock (h : Going c mode .unlocking waiter handlers funcs todo) :
    Going c mode (afterSnapshot mode funcs) waiter handlers funcs todo := by
  have hlive := h.not_live ⟨nofun, nofun⟩
  have hwaiter := h.waiter_idle ⟨nofun, nofun, nofun⟩
  unfold afterSnapshot
  split_ifs with hempty
  · refine h.setBody hlive nofun rfl (fun _ => ?_) fun hne => absurd hwaiter hne
    obtain ⟨ran, hfuncs, -⟩ := h.split
    rw [length_eq_zero_iff.mp hempty] at hfuncs
    exact (append_eq_nil_iff.mp hfuncs.symm).2
  · cases mode with
    | closeSync => exact h.setBody hlive nofun rfl (by simp) fun hne => absurd hwaiter hne
    | close =>
      refine ⟨h.split, fun i => iff_of_false (fun hi => absurd ((h.inline i).mp hi) nofun) nofun,
        fun _ _ => .inl rfl, h.omitted, fun _ => rfl, by simp, nofun,
        fun hne => absurd hwaiter hne, fun hdone => ?_⟩
      rw [hwaiter] at hdone
      cases hdone

variable [DecidableEq ι]

theorem Going.setHandler (h : Going c mode body waiter handlers funcs todo)
    (hi : (handlers i).live = true) (ha : a ≠ .idle ∧ a ≠ .inline ∧ a ≠ .omitted) :
    Going c mode body waiter (update handlers i a) funcs todo := by
  have hne : handlers i ≠ .idle ∧ handlers i ≠ .inline := by
    constructor <;> intro heq <;> rw [heq] at hi <;> cases hi
  refine ⟨?_, ?_, fun _ _ => h.live i hi, ?_, h.async, h.ended, h.spawned, h.waiting,
    fun hwaited => ?_⟩
  · obtain ⟨ran, hfuncs, hidle⟩ := h.split
    exact ⟨ran, hfuncs, (forall_update_iff handlers fun j x => x = .idle ↔ j ∉ ran).mpr
      ⟨iff_of_false ha.1 fun hnot => hne.1 ((hidle i).mpr hnot), fun j _ => hidle j⟩⟩
  · exact (forall_update_iff handlers fun j x => x = .inline ↔ body = .calling j).mpr
      ⟨iff_of_false ha.2.1 fun heq => hne.2 ((h.inline i).mpr heq), fun j _ => h.inline j⟩
  · exact (forall_update_iff handlers fun j x => x = .omitted → c.handler j = none).mpr
      ⟨fun heq => absurd heq ha.2.2, fun j _ => h.omitted j⟩
  · rw [h.waited hwaited i] at hi
    cases hi

theorem Going.split_next (h : Going c mode body waiter handlers funcs (i :: rest))
    (ha : a ≠ .idle) : ∃ ran, funcs = ran ++ rest ∧
      ∀ j, update handlers i a j = .idle ↔ j ∉ ran := by
  obtain ⟨ran, hfuncs, hidle⟩ := h.split
  refine ⟨ran ++ [i], by rw [hfuncs, append_assoc]; rfl,
    (forall_update_iff handlers fun j x => x = .idle ↔ j ∉ ran ++ [i]).mpr
      ⟨iff_of_false ha fun hnot => hnot (by simp), fun j hj => ?_⟩⟩
  rw [hidle j, mem_append, mem_singleton, or_iff_left hj]

theorem Going.next (h : Going c mode body waiter handlers funcs (i :: rest))
    (hbody : body = .launching ∨ body = .running ∧ a.live = false)
    (ha : a ≠ .idle ∧ a ≠ .inline) (homit : a = .omitted → c.handler i = none) :
    Going c mode body waiter (update handlers i a) funcs rest := by
  have hcalling : ∀ j, body ≠ .calling j := by
    rcases hbody with rfl | ⟨rfl, -⟩ <;> nofun
  have hnever : ¬ (body = .ranging ∨ body = .leaving ∨ body = .done) := by
    rcases hbody with rfl | ⟨rfl, -⟩ <;> simp
  refine ⟨h.split_next ha.1, ?_, ?_, ?_, h.async, fun hend => absurd hend hnever, h.spawned,
    h.waiting, fun hwaited => absurd (h.waiting (by rw [hwaited]; nofun)) hnever⟩
  · exact (forall_update_iff handlers fun j x => x = .inline ↔ body = .calling j).mpr
      ⟨iff_of_false ha.2 (hcalling i), fun j _ => h.inline j⟩
  · refine (forall_update_iff handlers fun _ x => x.live = true →
      body = .launching ∨ body = .ranging).mpr ⟨fun hlive => ?_, fun j _ => h.live j⟩
    rcases hbody with hbody | ⟨-, hdead⟩
    · exact .inl hbody
    · rw [hdead] at hlive
      cases hlive
  · exact (forall_update_iff handlers fun j x => x = .omitted → c.handler j = none).mpr
      ⟨homit, fun j _ => h.omitted j⟩

theorem Going.beginSync (h : Going c mode .running waiter handlers funcs (i :: rest)) :
    Going c mode (.calling i) waiter (update handlers i .inline) funcs rest := by
  have hlive := h.not_live ⟨nofun, nofun⟩
  have hwaiter := h.waiter_idle ⟨nofun, nofun, nofun⟩
  refine ⟨h.split_next nofun, ?_, ?_, ?_, by simp, by simp, nofun, fun hne => absurd hwaiter hne,
    fun hdone => ?_⟩
  · refine (forall_update_iff handlers fun j x => x = .inline ↔
      Body.calling i = .calling j).mpr ⟨iff_of_true rfl rfl, fun j hj => ?_⟩
    rw [h.inline]
    refine iff_of_false nofun fun heq => hj ?_
    cases heq
    rfl
  · refine (forall_update_iff handlers fun _ x => x.live = true →
      Body.calling i = .launching ∨ Body.calling i = .ranging).mpr ⟨nofun, fun j _ hj => ?_⟩
    rw [hlive j] at hj
    cases hj
  · exact (forall_update_iff handlers fun j x => x = .omitted → c.handler j = none).mpr
      ⟨nofun, fun j _ => h.omitted j⟩
  · rw [hwaiter] at hdone
    cases hdone

theorem Going.finishSync (h : Going c mode (.calling i) waiter handlers funcs todo) :
    Going c mode .running waiter (update handlers i .done) funcs todo := by
  have hlive := h.not_live ⟨nofun, nofun⟩
  have hi : handlers i = .inline := (h.inline i).mpr rfl
  have hwaiter := h.waiter_idle ⟨nofun, nofun, nofun⟩
  refine ⟨?_, ?_, ?_, ?_, by simp, by simp, nofun, fun hne => absurd hwaiter hne, fun hdone => ?_⟩
  · obtain ⟨ran, hfuncs, hidle⟩ := h.split
    have hran : ¬ i ∉ ran := by
      rw [← hidle i, hi]
      nofun
    exact ⟨ran, hfuncs, (forall_update_iff handlers fun j x => x = .idle ↔ j ∉ ran).mpr
      ⟨iff_of_false nofun hran, fun j _ => hidle j⟩⟩
  · refine (forall_update_iff handlers fun j x => x = .inline ↔
      Body.running = .calling j).mpr ⟨iff_of_false nofun nofun, fun j hj => iff_of_false ?_ nofun⟩
    rw [h.inline]
    intro heq
    cases heq
    exact hj rfl
  · refine (forall_update_iff handlers fun _ x => x.live = true →
      (Body.running : Body ι) = .launching ∨ (Body.running : Body ι) = .ranging).mpr
      ⟨nofun, fun j _ hj => ?_⟩
    rw [hlive j] at hj
    cases hj
  · exact (forall_update_iff handlers fun j x => x = .omitted → c.handler j = none).mpr
      ⟨nofun, fun j _ => h.omitted j⟩
  · rw [hwaiter] at hdone
    cases hdone

theorem afterHandler_ne (err : Option Err) : afterHandler err ≠ .idle ∧
    afterHandler err ≠ .inline ∧ afterHandler err ≠ .omitted := by
  cases err <;> exact ⟨nofun, nofun, nofun⟩

variable [DecidableEq κ] (h : Trace (closer c) tr s)
include h

theorem going : Going c s.mode s.body s.waiter s.handlers s.funcs s.todo := by
  refine h.invariant
    (I := fun _ s => Going c s.mode s.body s.waiter s.handlers s.funcs s.todo) ?_ ?_
  · rintro s rfl
    refine ⟨⟨[], rfl, by simp [State.new]⟩, ?_, nofun, nofun, ?_, ?_, nofun, ?_, nofun⟩ <;>
      simp [State.new]
  · intro tr s l s' htr hst ih
    cases hst with
    | enter _ hbody | lockBody hbody _ =>
      rw [hbody] at ih
      exact ih.setBody (ih.not_live ⟨nofun, nofun⟩) nofun rfl (by simp)
        fun hne => absurd (ih.waiter_idle ⟨nofun, nofun, nofun⟩) hne
    | leave _ hbody =>
      rw [hbody] at ih
      exact ih.setBody (ih.not_live ⟨nofun, nofun⟩) nofun rfl (fun _ => ih.ended (by simp))
        fun _ => .inr rfl
    | snapshot hbody =>
      have hreg := registry htr
      have hopen := hreg.not_closed (by rw [hbody]; rfl)
      rw [hbody, (hreg.fresh hopen).1] at ih
      exact ih.snapshot _
    | unlockBody hbody =>
      rw [hbody] at ih
      exact ih.unlock
    | omitted hbody htodo hnil =>
      rw [htodo] at ih
      refine ih.next ?_ ⟨nofun, nofun⟩ fun _ => hnil
      exact hbody.imp id fun hrunning => ⟨hrunning, rfl⟩
    | launch hbody htodo _ =>
      rw [htodo] at ih
      exact ih.next (.inl hbody) ⟨nofun, nofun⟩ nofun
    | spawn hbody htodo =>
      rw [hbody, htodo] at ih
      simp only [htodo]
      exact ih.spawn
    | begin hi | send hi _ _ | exit hi =>
      exact ih.setHandler (by rw [hi]; rfl) ⟨nofun, nofun, nofun⟩
    | finish hi _ => exact ih.setHandler (by rw [hi]; rfl) (afterHandler_ne _)
    | closeCh hwaiting hall =>
      exact ⟨ih.split, ih.inline, ih.live, ih.omitted, ih.async, ih.ended, fun _ => nofun,
        fun _ => ih.waiting (by rw [hwaiting]; nofun), fun _ => hall⟩
    | finishedRange hbody _ hdone =>
      have hended := ih.ended (.inl hbody)
      exact ih.setBody (ih.waited hdone) (by rw [hbody]; nofun) rfl (fun _ => hended)
        fun _ => .inl rfl
    | beginSync hbody htodo _ =>
      rw [hbody, htodo] at ih
      exact ih.beginSync
    | finishSync hbody _ =>
      rw [hbody] at ih
      exact ih.finishSync
    | finishedSync hbody htodo =>
      rw [hbody] at ih
      refine ih.setBody (ih.not_live ⟨nofun, nofun⟩) nofun rfl (fun _ => htodo) fun _ => .inl rfl
    | _ => exact ih

theorem mem_funcs_of_ne_idle (hi : s.handlers i ≠ .idle) : i ∈ s.funcs := by
  obtain ⟨ran, hfuncs, hidle⟩ := (going h).split
  rw [hfuncs]
  refine mem_append_left _ ?_
  by_contra hnot
  exact hi ((hidle i).mpr hnot)

theorem done_of_ended (hbody : s.body = .leaving ∨ s.body = .done) (hi : i ∈ s.funcs) :
    s.handlers i = .done := by
  have hgoing := going h
  obtain ⟨ran, hfuncs, hidle⟩ := hgoing.split
  rw [hgoing.ended (.inr hbody), append_nil] at hfuncs
  have hlive : (s.handlers i).live = false := by
    refine hgoing.not_live ?_ i
    rcases hbody with hbody | hbody <;> rw [hbody] <;> exact ⟨nofun, nofun⟩
  have hinline : s.handlers i ≠ .inline := by
    rw [Ne, hgoing.inline]
    rcases hbody with hbody | hbody <;> rw [hbody] <;> nofun
  have hnil := (added h).handler i (mem_registered_of_funcs h hi)
  have hran : s.handlers i ≠ .idle := fun heq => (hidle i).mp heq (hfuncs ▸ hi)
  cases hstage : s.handlers i with
  | done => rfl
  | idle => exact absurd hstage hran
  | inline => exact absurd hstage hinline
  | omitted => exact absurd (hgoing.omitted i hstage) hnil
  | ready | running | reporting | exiting =>
    rw [hstage] at hlive
    cases hlive

theorem idle_of_todo (htodo : s.todo = i :: rest) : s.handlers i = .idle := by
  obtain ⟨ran, hfuncs, hidle⟩ := (going h).split
  have hnodup := funcs_nodup h
  rw [hfuncs, htodo, nodup_append] at hnodup
  exact (hidle i).mpr fun hmem => hnodup.2.2 i hmem i mem_cons_self rfl

end Handlers

section Errors

/-- The errors that were sent are those of the handlers that have returned. -/
structure Errors (c : Calls ι κ) (handlers : ι → Handler) (sent : List (ι × Err)) : Prop where
  nodup : (sent.map Prod.fst).Nodup
  sound : ∀ p ∈ sent, c.error p.1 = some p.2 ∧ (handlers p.1).past = true
  complete : ∀ i err, (handlers i).past = true → c.error i = some err → (i, err) ∈ sent
  reporting : ∀ i err, handlers i = .reporting err → c.error i = some err

variable {handlers : ι → Handler} {sent : List (ι × Err)} {a : Handler}

theorem error_of_handler {o : Outcome} (ho : c.handler i = some o) : c.error i = failure o := by
  rw [Calls.error, ho]
  rfl

variable [DecidableEq ι]

theorem Errors.setHandler (h : Errors c handlers sent)
    (ha : a.past = (handlers i).past) (hrep : ∀ err, a = .reporting err → c.error i = some err) :
    Errors c (update handlers i a) sent := by
  have hpast : ∀ j, (update handlers i a j).past = (handlers j).past :=
    (forall_update_iff handlers fun j x => x.past = (handlers j).past).mpr
      ⟨ha, fun _ _ => rfl⟩
  refine ⟨h.nodup, fun p hp => ?_, fun j err hj => ?_, ?_⟩
  · rw [hpast]
    exact h.sound p hp
  · rw [hpast] at hj
    exact h.complete j err hj
  · exact (forall_update_iff handlers fun j x => ∀ err, x = .reporting err →
      c.error j = some err).mpr ⟨hrep, fun j _ => h.reporting j⟩

theorem Errors.past (h : Errors c handlers sent) (hi : (handlers i).past = false)
    (ha : a.past = true) :
    Errors c (update handlers i a)
      (sent ++ ((c.error i).map fun err => (i, err)).toList) := by
  have hnot : ∀ p ∈ sent, p.1 ≠ i := by
    rintro p hp rfl
    rw [(h.sound p hp).2] at hi
    cases hi
  refine ⟨?_, fun p hp => ?_, fun j err hj herr => ?_, ?_⟩
  · rw [map_append, nodup_append]
    refine ⟨h.nodup, ?_, ?_⟩
    · cases c.error i <;> simp
    · intro x hx y hy
      obtain ⟨p, hp, rfl⟩ := mem_map.mp hx
      obtain ⟨q, hq, rfl⟩ := mem_map.mp hy
      obtain ⟨err, -, rfl⟩ := map_eq_some_iff.mp (mem_toList.mp hq)
      exact hnot p hp
  · rcases mem_append.mp hp with hp | hp
    · rw [update_of_ne (hnot p hp)]
      exact h.sound p hp
    · obtain ⟨err, herr, rfl⟩ := map_eq_some_iff.mp (mem_toList.mp hp)
      rw [update_self]
      exact ⟨herr, ha⟩
  · by_cases hji : j = i
    · subst hji
      refine mem_append_right _ (mem_toList.mpr ?_)
      rw [herr]
      rfl
    · rw [update_of_ne hji] at hj
      exact mem_append_left _ (h.complete j err hj herr)
  · refine (forall_update_iff handlers fun j x => ∀ err, x = .reporting err →
      c.error j = some err).mpr ⟨fun err heq => ?_, fun j _ => h.reporting j⟩
    rw [heq] at ha
    cases ha

variable [DecidableEq κ]

theorem errsCh_nil (h : Trace (closer c) tr s)
    (hbody : s.body ≠ .launching ∧ s.body ≠ .ranging) : s.errsCh = [] := by
  revert hbody
  refine h.invariant
    (I := fun _ s => s.body ≠ .launching ∧ s.body ≠ .ranging → s.errsCh = []) ?_ ?_
  · rintro s rfl -
    rfl
  · intro tr s l s' htr hst ih
    cases hst with
    | enter _ hbody | leave _ hbody | lockBody hbody _ | snapshot hbody | unlockBody hbody
    | beginSync hbody _ _ | finishSync hbody _ | finishedSync hbody _ =>
      rw [hbody] at ih
      exact fun _ => ih ⟨nofun, nofun⟩
    | spawn => exact fun hne => absurd rfl hne.2
    | finishedRange _ hempty _ => exact fun _ => hempty
    | send hi _ _ =>
      intro hne
      rcases (going htr).live _ (by rw [hi]; rfl) with heq | heq
      · exact absurd heq hne.1
      · exact absurd heq hne.2
    | receive hbody _ => exact fun hne => absurd hbody hne.2
    | _ => exact ih

theorem errors (h : Trace (closer c) tr s) :
    Errors c s.handlers (s.errs ++ s.errsCh) := by
  refine h.invariant (I := fun _ s => Errors c s.handlers (s.errs ++ s.errsCh)) ?_ ?_
  · rintro s rfl
    exact ⟨nodup_nil, nofun, nofun, nofun⟩
  · intro tr s l s' htr hst ih
    cases hst with
    | begin hi | exit hi => exact ih.setHandler (by rw [hi]; rfl) nofun
    | @finish i o hi ho =>
      have herror := error_of_handler (c := c) ho
      cases hfail : failure o with
      | none =>
        have hpast := ih.past (i := i) (a := .exiting) (by rw [hi]; rfl) rfl
        rw [herror, hfail, map_none, toList_none, append_nil] at hpast
        exact hpast
      | some err =>
        refine ih.setHandler (by rw [hi]; rfl) fun e he => ?_
        cases he
        rw [herror, hfail]
    | @send i err hi _ _ =>
      have hpast := ih.past (i := i) (a := .exiting) (by rw [hi]; rfl) rfl
      rw [ih.reporting i err hi, append_assoc] at hpast
      exact hpast
    | omitted _ htodo _ | launch _ htodo _ | beginSync _ htodo _ =>
      exact ih.setHandler (by rw [idle_of_todo htr htodo]; rfl) nofun
    | receive _ hch =>
      rw [hch] at ih
      simpa using ih
    | @finishSync i o hbody ho =>
      have hch := errsCh_nil htr (by rw [hbody]; exact ⟨nofun, nofun⟩)
      have hi := ((going htr).inline i).mpr hbody
      have hpast := ih.past (i := i) (a := .done) (by rw [hi]; rfl) rfl
      rw [error_of_handler ho, hch, append_nil] at hpast
      simp only [State.setHandler, hch, append_nil]
      exact hpast
    | _ => exact ih

end Errors

end Skit.Closer
