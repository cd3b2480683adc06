import Skit.Worker.Pool

/-!
# What the pool guarantees

The counters follow the places of the jobs, the mutex has one holder, and a `Shutdown` that closes
the pool meets no `Submit` between its check and its registration. From this invariant the bound
on the jobs, the return of the slots and the drain of a shut pool follow.
-/
namespace Skit.Worker.Pool
open List Function

open Lib

variable {ι κ ζ : Type} [DecidableEq ι]

section Acts

variable {c : Nat} {i : ι} {x x' : Shared ι κ ζ} {l : Action} {a b : Stage} (h : Act c i x l a b x')
include h

theorem Act.sem : x'.sem + a.holdsSlot.toNat = x.sem + b.holdsSlot.toNat := by
  cases h with
  | release hn => rw [hn]; rfl
  | giveBack hn => rw [hn]; rfl
  | _ => rfl

theorem Act.sem_le (hx : x.sem ≤ c) : x'.sem ≤ c := by
  cases h with
  | acquire hlt => exact hlt
  | release hn =>
    rw [hn] at hx
    exact Nat.le_of_succ_le hx
  | giveBack hn =>
    rw [hn] at hx
    exact Nat.le_of_succ_le hx
  | _ => exact hx

theorem Act.wg : x'.wg + a.counted.toNat = x.wg + b.counted.toNat := by
  cases h with
  | done hn => rw [hn]; rfl
  | _ => rfl

theorem Act.running_ne {j : ι} (hj : j ≠ i) : j ∈ x'.running ↔ j ∈ x.running := by
  cases h with
  | track => rw [Finset.mem_insert, or_iff_right hj]
  | delete => rw [Finset.mem_erase, and_iff_right hj]
  | _ => exact Iff.rfl

theorem Act.running_self (hi : i ∈ x.running ↔ a.listed = true) :
    i ∈ x'.running ↔ b.listed = true := by
  cases h with
  | track => exact iff_of_true (Finset.mem_insert_self _ _) rfl
  | delete => exact iff_of_false (Finset.notMem_erase _ _) Bool.false_ne_true
  | _ => exact hi

theorem Act.mem_running {j : ι} (hj : j ∈ x'.running) : j ∈ x.running ∨ l = .track := by
  cases h with
  | track => exact .inr rfl
  | delete => exact .inl (Finset.mem_of_mem_erase hj)
  | _ => exact .inl hj

theorem Act.launched (ha : a.launched = true) : b.launched = true := by
  cases h with
  | _ => first | rfl | cases ha

theorem Act.cancels : x.cancels ⊆ x'.cancels := by
  cases h with
  | cancel => exact Finset.subset_insert _ _
  | drop => exact Finset.subset_insert _ _
  | _ => exact Finset.Subset.refl _

theorem Act.isShutdown : x'.isShutdown = x.isShutdown := by
  cases h with
  | _ => rfl

/-- Who takes the mutex finds it free, and who holds it holds it until it gives it back. -/
def Moves (h : Holder ι κ ζ) (lock : Option (Holder ι κ ζ)) (held held' : Bool)
    (lock' : Option (Holder ι κ ζ)) : Prop :=
  (lock = none ∧ held' = true ∧ lock' = some h) ∨
    (held = true ∧ held' = false ∧ lock' = none) ∨ (held' = held ∧ lock' = lock)

theorem Act.lock_cases : Moves (.job i) x.lock a.inLock b.inLock x'.lock := by
  cases h with
  | lock hn => exact .inl ⟨hn, rfl, rfl⟩
  | relock hn => exact .inl ⟨hn, rfl, rfl⟩
  | unlock => exact .inr (.inl ⟨rfl, rfl, rfl⟩)
  | reunlock => exact .inr (.inl ⟨rfl, rfl, rfl⟩)
  | back => exact .inr (.inl ⟨rfl, rfl, rfl⟩)
  | _ => exact .inr (.inr ⟨rfl, rfl⟩)

/-- A job comes into a place where it may still register, or into the count, only as this says. -/
theorem Act.registers : ((b = .checked ∨ b = .tracked ∨ b = .added) →
      x.isShutdown = false ∨ a = .checked ∨ a = .tracked ∨ a = .added) ∧
    (l = .track → a = .checked) ∧
    (b.counted = true → a = .tracked ∨ a.counted = true) := by
  cases h with
  | check hn => exact ⟨fun _ => .inl hn, nofun, nofun⟩
  | track => exact ⟨fun _ => .inr (.inl rfl), fun _ => rfl, nofun⟩
  | add => exact ⟨fun _ => .inr (.inr (.inl rfl)), nofun, fun _ => .inl rfl⟩
  | done => exact ⟨by simp, nofun, nofun⟩
  | _ => exact ⟨by simp, nofun, fun h => .inr h⟩

theorem Act.begun :
    (l = .start ∧ a.begun = false ∧ b.begun = true) ∨ (l ≠ .start ∧ b.begun = a.begun) := by
  cases h with
  | start => exact .inl ⟨rfl, rfl, rfl⟩
  | _ => exact .inr ⟨nofun, rfl⟩

theorem Act.slot : (l = .acquire ∧ a.early = true ∧ a.holdsSlot = false ∧ b.holdsSlot = true) ∨
      (l = .release ∧ a.holdsSlot = true ∧ b.holdsSlot = false) ∨
      (l ≠ .acquire ∧ l ≠ .release ∧ b.holdsSlot = a.holdsSlot) := by
  cases h with
  | acquire => exact .inl ⟨rfl, rfl, rfl, rfl⟩
  | release => exact .inr (.inl ⟨rfl, rfl, rfl⟩)
  | giveBack => exact .inr (.inl ⟨rfl, rfl, rfl⟩)
  | _ => exact .inr (.inr ⟨nofun, nofun, rfl⟩)

theorem Act.early (hb : b.early = true) : a.early = true ∧ l ≠ .acquire := by
  cases h with
  | call => exact ⟨rfl, nofun⟩
  | enter => exact ⟨rfl, nofun⟩
  | _ => cases hb

end Acts

section Lock

variable {k : κ} {j : ζ} {x x' : Shared ι κ ζ}

section

variable {a b : CancelPhase ι}

theorem CancelAct.lock_cases (h : CancelAct k x a b x') :
    Moves (.cancel k) x.lock a.inLock b.inLock x'.lock := by
  cases h with
  | lock hn => exact .inl ⟨hn, rfl, rfl⟩
  | unlock => exact .inr (.inl ⟨rfl, rfl, rfl⟩)
  | _ => exact .inr (.inr ⟨rfl, rfl⟩)

theorem CancelAct.frame (h : CancelAct k x a b x') :
    x'.sem = x.sem ∧ x'.wg = x.wg ∧ x'.isShutdown = x.isShutdown ∧ x'.running = x.running ∧
      x.cancels ⊆ x'.cancels := by
  cases h with
  | cancel _ => exact ⟨rfl, rfl, rfl, rfl, Finset.subset_insert _ _⟩
  | _ => exact ⟨rfl, rfl, rfl, rfl, Finset.Subset.refl _⟩

end

variable {a b : ShutPhase ι} {s s' : State ι κ ζ}

theorem ShutAct.lock_cases (h : ShutAct j x a b x') :
    Moves (.shutdown j) x.lock a.inLock b.inLock x'.lock := by
  cases h with
  | lock hn => exact .inl ⟨hn, rfl, rfl⟩
  | unlock => exact .inr (.inl ⟨rfl, rfl, rfl⟩)
  | _ => exact .inr (.inr ⟨rfl, rfl⟩)

theorem ShutAct.frame (h : ShutAct j x a b x') :
    x'.sem = x.sem ∧ x'.wg = x.wg ∧ x'.running = x.running ∧ x.cancels ⊆ x'.cancels ∧
      (x.isShutdown = true → x'.isShutdown = true) := by
  cases h with
  | cancel _ => exact ⟨rfl, rfl, rfl, Finset.subset_insert _ _, id⟩
  | close => exact ⟨rfl, rfl, rfl, Finset.Subset.refl _, fun _ => rfl⟩
  | _ => exact ⟨rfl, rfl, rfl, Finset.Subset.refl _, id⟩

/-- What a `Shutdown` has seen at each of its places. -/
theorem ShutAct.phases (h : ShutAct j x a b x') :
    (x'.isShutdown = true → x.isShutdown = true ∨ a.inLock = true) ∧
    (b.hasClosed = true → a.hasClosed = true ∨ x'.isShutdown = true) ∧
    (b.hasDrained = true → a.hasDrained = true ∨ x.wg = 0) := by
  cases h with
  | close => exact ⟨fun _ => .inr rfl, fun _ => .inr rfl, nofun⟩
  | wait hwg => exact ⟨.inl, fun _ => .inl rfl, fun _ => .inr hwg⟩
  | ret => exact ⟨.inl, fun _ => .inl rfl, fun _ => .inl rfl⟩
  | ended => exact ⟨.inl, fun _ => .inl rfl, nofun⟩
  | endedLate => exact ⟨.inl, fun _ => .inl rfl, nofun⟩
  | _ => exact ⟨.inl, .inl, .inl⟩

/-- The loop comes to every job that was in the map when the pool was closed. -/
theorem ShutAct.left (h : ShutAct j x a b x') {i : ι} (hi : i ∈ x.running)
    (ha : a.hasClosed = true → i ∈ a.left ∨ i ∈ x.cancels) (hb : b.hasClosed = true) :
    i ∈ b.left ∨ i ∈ x'.cancels := by
  cases h with
  | close => exact .inl hi
  | @cancel rest i' _ =>
    by_cases hii : i = i'
    · exact .inr (hii ▸ Finset.mem_insert_self _ _)
    · exact (ha rfl).imp (Finset.mem_erase_of_ne_of_mem hii) Finset.mem_insert_of_mem
  | unlock => exact ha rfl
  | wait _ => exact ha rfl
  | ret => exact ha rfl
  | ended => exact ha rfl
  | endedLate => exact ha rfl
  | _ => cases hb

theorem ShutAct.hasUnlocked (h : ShutAct j x a b x') (ha : a.hasUnlocked = true) :
    b.hasUnlocked = true := by
  cases h with
  | _ => first | rfl | cases ha

/-- The party is between its lock and its unlock. -/
def State.inLock (s : State ι κ ζ) : Holder ι κ ζ → Bool
  | .job i => (s.stage i).inLock
  | .cancel k => (s.cancelling k).inLock
  | .shutdown j => (s.shutting j).inLock

def Exclusive (s : State ι κ ζ) : Prop := ∀ h, s.inLock h = true ↔ s.lock = some h

omit [DecidableEq ι] in
theorem Exclusive.move {h : Holder ι κ ζ} (hs : Exclusive s)
    (hne : ∀ h', h' ≠ h → s'.inLock h' = s.inLock h')
    (hmove : Moves h s.lock (s.inLock h) (s'.inLock h) s'.lock) : Exclusive s' := by
  intro h'
  by_cases hh : h' = h
  · subst hh
    obtain ⟨-, hin, htaken⟩ | ⟨-, hout, hfree⟩ | ⟨heq, hlock⟩ := hmove
    · exact iff_of_true hin htaken
    · rw [hout, hfree]
      exact iff_of_false nofun nofun
    · rw [heq, hlock]
      exact hs h'
  · have hother : some h ≠ some h' := fun heq => hh (Option.some.inj heq).symm
    rw [hne h' hh, hs h']
    obtain ⟨hfree, -, htaken⟩ | ⟨hheld, -, hfree⟩ | ⟨-, hlock⟩ := hmove
    · rw [hfree, htaken]
      exact iff_of_false nofun hother
    · rw [(hs h).mp hheld, hfree]
      exact iff_of_false hother nofun
    · rw [hlock]

variable [DecidableEq κ] [DecidableEq ζ] {c : Nat} {l : Label ι κ ζ}

theorem exclusive_step (hst : Step c s l s') (hs : Exclusive s) : Exclusive s' := by
  cases hst with
  | @act i a b x hact =>
    refine hs.move (h := .job i) (fun h' hh => ?_) ?_
    · cases h' with
      | job i' =>
        have hi : i' ≠ i := fun h => hh (h ▸ rfl)
        simp only [State.inLock, update_of_ne hi]
      | _ => rfl
    · simp only [State.inLock, update_self]
      exact hact.lock_cases
  | @cancel k b x hact =>
    refine hs.move (h := .cancel k) (fun h' hh => ?_) ?_
    · cases h' with
      | cancel k' =>
        have hk : k' ≠ k := fun h => hh (h ▸ rfl)
        simp only [State.inLock, update_of_ne hk]
      | _ => rfl
    · simp only [State.inLock, update_self]
      exact hact.lock_cases
  | @shutdown j b x hact =>
    refine hs.move (h := .shutdown j) (fun h' hh => ?_) ?_
    · cases h' with
      | shutdown j' =>
        have hj : j' ≠ j := fun h => hh (h ▸ rfl)
        simp only [State.inLock, update_of_ne hj]
      | _ => rfl
    · simp only [State.inLock, update_self]
      exact hact.lock_cases
  | ret _ _ => exact fun h => by have hh := hs h; cases h <;> exact hh
  | expire => exact fun h => by have hh := hs h; cases h <;> exact hh

end Lock

section Invariant

variable [DecidableEq κ] [DecidableEq ζ] {c : Nat} {s s' : State ι κ ζ} {l : Label ι κ ζ}
  {a : ShutPhase ι} {x : Shared ι κ ζ}

/-- What holds between any two steps. -/
structure Inv (c : Nat) (s : State ι κ ζ) : Prop where
  exclusive : Exclusive s
  sem : Counts (fun i => (s.stage i).holdsSlot = true) s.sem
  semLe : s.sem ≤ c
  wg : Counts (fun i => (s.stage i).counted = true) s.wg
  running : ∀ i, i ∈ s.running ↔ (s.stage i).listed = true
  closed : s.isShutdown = true → ∀ i, s.stage i ≠ .checked ∧ s.stage i ≠ .tracked ∧
    s.stage i ≠ .added
  shut : ∀ j, (s.shutting j).hasClosed = true → s.isShutdown = true
  cancels : ∀ j, (s.shutting j).hasClosed = true →
    ∀ i ∈ s.running, i ∈ (s.shutting j).left ∨ i ∈ s.cancels
  drained : ∀ j, (s.shutting j).hasDrained = true → ∀ i, (s.stage i).counted = false
  answered : ∀ i, s.answered i = true → (s.stage i).launched = true

omit [DecidableEq ι] in
theorem ShutPhase.hasClosed_of_hasUnlocked (h : a.hasUnlocked = true) : a.hasClosed = true := by
  cases a with
  | unlocked => rfl
  | drained => rfl
  | returned ok => rfl
  | _ => cases h

omit [DecidableEq ι] in
theorem ShutPhase.hasClosed_of_hasDrained (h : a.hasDrained = true) : a.hasClosed = true := by
  cases a with
  | drained => rfl
  | returned ok => rfl
  | _ => cases h

omit [DecidableEq ι] [DecidableEq κ] [DecidableEq ζ] in
theorem Inv.all_cancelled (hs : Inv c s) {j : ζ} (hj : (s.shutting j).hasUnlocked = true) :
    s.running ⊆ s.cancels := by
  intro i hi
  refine (hs.cancels j (ShutPhase.hasClosed_of_hasUnlocked hj) i hi).resolve_left fun hleft => ?_
  cases hph : s.shutting j with
  | closed rest => rw [hph] at hj; cases hj
  | _ => rw [hph] at hleft; cases hleft

omit [DecidableEq κ] [DecidableEq ζ] in
theorem Inv.not_track (hs : Inv c s) {i : ι} {a : Stage}
    (hact : Act c i s.toShared .track (s.stage i) a x) : s.isShutdown = false := by
  by_contra hshut
  exact (hs.closed (Bool.not_eq_false _ ▸ hshut) i).1 (hact.registers.2.1 rfl)

theorem inv_act {i : ι} {a : Action} {b : Stage}
    (hact : Act c i s.toShared a (s.stage i) b x) (hs : Inv c s) :
    Inv c { s with toShared := x, stage := update s.stage i b } := by
  refine
    { exclusive := exclusive_step (c := c) (.act hact) hs.exclusive
      sem := counts_update hs.sem rfl hact.sem
      semLe := hact.sem_le hs.semLe
      wg := counts_update hs.wg rfl hact.wg
      running := ?_
      closed := fun hshut => ?_
      shut := fun j hj => hact.isShutdown.trans (hs.shut j hj)
      cancels := fun j hj i' hi' => ?_
      drained := fun j hj => ?_
      answered := ?_ }
  · refine (forall_update_iff s.stage fun j a => j ∈ x.running ↔ a.listed = true).mpr
      ⟨hact.running_self (hs.running i), fun j hj => ?_⟩
    rw [hact.running_ne hj]
    exact hs.running j
  · have hshut' : s.isShutdown = true := hact.isShutdown ▸ hshut
    have hclosed := hs.closed hshut'
    have hnot : ¬ (b = .checked ∨ b = .tracked ∨ b = .added) := by
      intro hb
      obtain hopen | ha | ha | ha := hact.registers.1 hb
      · rw [hopen] at hshut'
        cases hshut'
      · exact (hclosed i).1 ha
      · exact (hclosed i).2.1 ha
      · exact (hclosed i).2.2 ha
    refine (forall_update_iff s.stage fun _ a =>
      a ≠ .checked ∧ a ≠ .tracked ∧ a ≠ .added).mpr ⟨?_, fun j _ => hclosed j⟩
    exact ⟨fun h => hnot (.inl h), fun h => hnot (.inr (.inl h)), fun h => hnot (.inr (.inr h))⟩
  · obtain hrunning | rfl := hact.mem_running hi'
    · exact (hs.cancels j hj i' hrunning).imp_right fun h => hact.cancels h
    · have hfalse := hs.not_track hact
      rw [hs.shut j hj] at hfalse
      cases hfalse
  · refine (forall_update_iff s.stage fun _ a => a.counted = false).mpr
      ⟨?_, fun i' _ => hs.drained j hj i'⟩
    rw [← Bool.not_eq_true]
    intro hb
    obtain ha | ha := hact.registers.2.2 hb
    · exact (hs.closed (hs.shut j (ShutPhase.hasClosed_of_hasDrained hj)) i).2.1 ha
    · rw [hs.drained j hj i] at ha
      cases ha
  · exact (forall_update_iff s.stage fun j a => s.answered j = true →
      a.launched = true).mpr ⟨fun hj => hact.launched (hs.answered i hj), fun j _ => hs.answered j⟩

theorem inv_cancel {k : κ} {b : CancelPhase ι}
    (hact : CancelAct k s.toShared (s.cancelling k) b x) (hs : Inv c s) :
    Inv c { s with toShared := x, cancelling := update s.cancelling k b } := by
  obtain ⟨hsem, hwg, hshut, hrunning, hcancels⟩ := hact.frame
  exact
    { exclusive := exclusive_step (c := c) (.cancel hact) hs.exclusive
      sem := hsem ▸ hs.sem
      semLe := hsem ▸ hs.semLe
      wg := hwg ▸ hs.wg
      running := fun i => hrunning ▸ hs.running i
      closed := fun h => hs.closed (hshut ▸ h)
      shut := fun j hj => hshut.trans (hs.shut j hj)
      cancels := fun j hj i hi =>
        (hs.cancels j hj i (hrunning ▸ hi)).imp_right fun h => hcancels h
      drained := hs.drained
      answered := hs.answered }

theorem inv_shutdown {j : ζ} {b : ShutPhase ι}
    (hact : ShutAct j s.toShared (s.shutting j) b x) (hs : Inv c s) :
    Inv c { s with toShared := x, shutting := update s.shutting j b } := by
  obtain ⟨hsem, hwg, hrunning, hcancels, hshut⟩ := hact.frame
  obtain ⟨hopen, hclosed, hdrained⟩ := hact.phases
  refine
    { exclusive := exclusive_step (c := c) (.shutdown hact) hs.exclusive
      sem := hsem ▸ hs.sem
      semLe := hsem ▸ hs.semLe
      wg := hwg ▸ hs.wg
      running := fun i => hrunning ▸ hs.running i
      closed := fun h i => ?_
      shut := ?_
      cancels := ?_
      drained := ?_
      answered := hs.answered }
  · obtain h | hlock := hopen h
    · exact hs.closed h i
    · -- The mutex is held here, so no `Submit` is between its check and its registration.
      have hheld : s.lock = some (.shutdown j) := (hs.exclusive (.shutdown j)).mp hlock
      have hnot : (s.stage i).inLock = true → False := by
        intro hin
        have hjob := (hs.exclusive (.job i)).mp hin
        rw [hheld] at hjob
        cases hjob
      exact ⟨fun h => hnot (h ▸ rfl), fun h => hnot (h ▸ rfl), fun h => hnot (h ▸ rfl)⟩
  · refine (forall_update_iff s.shutting fun _ a => a.hasClosed = true →
      x.isShutdown = true).mpr ⟨fun hb => ?_, fun j' _ hj' => hshut (hs.shut j' hj')⟩
    obtain h | h := hclosed hb
    · exact hshut (hs.shut j h)
    · exact h
  · rw [hrunning]
    refine (forall_update_iff s.shutting fun _ a => a.hasClosed = true →
      ∀ i ∈ s.running, i ∈ a.left ∨ i ∈ x.cancels).mpr
      ⟨fun hb i hi => hact.left hi (fun ha => hs.cancels j ha i hi) hb, fun j' _ hj' i hi => ?_⟩
    exact (hs.cancels j' hj' i hi).imp_right fun h => hcancels h
  · refine (forall_update_iff s.shutting fun _ a => a.hasDrained = true →
      ∀ i, (s.stage i).counted = false).mpr ⟨fun hb i => ?_, fun j' _ => hs.drained j'⟩
    obtain h | h := hdrained hb
    · exact hs.drained j h i
    · exact Bool.not_eq_true _ ▸ (h ▸ hs.wg).not_of_zero i

theorem inv_step (hst : Step c s l s') (hs : Inv c s) : Inv c s' := by
  cases hst with
  | act hact => exact inv_act hact hs
  | cancel hact => exact inv_cancel hact hs
  | shutdown hact => exact inv_shutdown hact hs
  | @ret i hi hans =>
    refine
      { hs with
        exclusive := exclusive_step (c := c) (.ret hi hans) hs.exclusive
        answered := ?_ }
    intro j hj
    dsimp only at hj
    by_cases hji : j = i
    · exact hji ▸ hi
    · rw [update_of_ne hji] at hj
      exact hs.answered j hj
  | expire =>
    refine { hs with exclusive := exclusive_step (c := c) .expire hs.exclusive, cancels := ?_ }
    exact fun j hj i hi => (hs.cancels j hj i hi).imp_right Finset.mem_insert_of_mem

omit [DecidableEq ι] [DecidableEq κ] [DecidableEq ζ] in
theorem inv_empty : Inv c (empty : State ι κ ζ) where
  exclusive h := iff_of_false (by cases h <;> nofun) nofun
  sem := .zero fun _ => Bool.false_ne_true
  semLe := Nat.zero_le c
  wg := .zero fun _ => Bool.false_ne_true
  running i := iff_of_false (Finset.notMem_empty i) Bool.false_ne_true
  closed h := by cases h
  shut _ h := by cases h
  cancels _ h := by cases h
  drained _ h := by cases h
  answered _ h := by cases h

end Invariant

section Progress

/-- The steps that are left to a call at most. -/
def Stage.rank : Stage → Nat
  | idle => 17
  | called => 16
  | selecting => 15
  | acquired => 14
  | locked => 13
  | checked => 12
  | tracked => 11
  | added => 10
  | launching => 9
  | ready => 8
  | running => 7
  | returned => 6
  | cancelled => 5
  | untracking => 4
  | deleted | refusing => 3
  | untracked | backing => 2
  | done | giving => 1
  | finished | failed => 0

def CancelPhase.rank : CancelPhase ι → Nat
  | .idle => 4
  | .called _ => 3
  | .locked _ => 2
  | .acted _ => 1
  | .ended => 0

/-- The steps up to the unlock, for a map with `jobs` entries. -/
def ShutPhase.rank (jobs : Nat) : ShutPhase ι → Nat
  | .idle | .called | .locked => jobs + 2
  | .closed rest => rest.card + 1
  | _ => 0

def State.rank (s : State ι κ ζ) : Holder ι κ ζ → Nat
  | .job i => (s.stage i).rank
  | .cancel k => (s.cancelling k).rank
  | .shutdown j => (s.shutting j).rank s.running.card

variable {c : Nat} {i : ι} {s : State ι κ ζ}

theorem Act.rank {x x' : Shared ι κ ζ} {l : Action} {a b : Stage} (h : Act c i x l a b x') :
    b.rank < a.rank := by
  cases h with
  | _ => decide

/-- A call with a slot can step on, unless it waits for the mutex. -/
theorem Inv.act_possible (hs : Inv c s) (hslot : (s.stage i).holdsSlot = true)
    (hlock : s.stage i = .acquired ∨ s.stage i = .cancelled → s.lock = none) :
    ∃ a b x, Act c i s.toShared a (s.stage i) b x := by
  have hsem : ∃ n, s.sem = n + 1 := hs.sem.exists_succ hslot
  have hwg : (s.stage i).counted = true → ∃ n, s.wg = n + 1 := fun h => hs.wg.exists_succ h
  generalize s.stage i = a at *
  cases a with
  | acquired => exact ⟨_, _, _, .lock (hlock (.inl rfl))⟩
  | locked =>
    cases hshut : s.isShutdown with
    | false => exact ⟨_, _, _, .check hshut⟩
    | true => exact ⟨_, _, _, .refuse hshut⟩
  | checked => exact ⟨_, _, _, .track⟩
  | tracked => exact ⟨_, _, _, .add⟩
  | added => exact ⟨_, _, _, .unlock⟩
  | launching => exact ⟨_, _, _, .go⟩
  | ready => exact ⟨_, _, _, .start⟩
  | running => exact ⟨_, _, _, .finish⟩
  | returned => exact ⟨_, _, _, .cancel⟩
  | cancelled => exact ⟨_, _, _, .relock (hlock (.inr rfl))⟩
  | untracking => exact ⟨_, _, _, .delete⟩
  | deleted => exact ⟨_, _, _, .reunlock⟩
  | untracked => exact ⟨_, _, _, .done (hwg rfl).choose_spec⟩
  | done => exact ⟨_, _, _, .release hsem.choose_spec⟩
  | refusing => exact ⟨_, _, _, .back⟩
  | backing => exact ⟨_, _, _, .drop⟩
  | giving => exact ⟨_, _, _, .giveBack hsem.choose_spec⟩
  | _ => cases hslot

theorem Stage.holdsSlot_of_inLock {a : Stage} (h : a.inLock = true) :
    a.holdsSlot = true ∧ ¬ (a = .acquired ∨ a = .cancelled) := by
  cases a with
  | _ => first | exact ⟨rfl, by decide⟩ | cases h

variable [DecidableEq κ] [DecidableEq ζ]

/-- The holder of the mutex can step, and comes nearer to giving it back. -/
theorem Inv.holder_moves (hs : Inv c s) {h : Holder ι κ ζ} (hlock : s.lock = some h) :
    ∃ l s', l.party = some h ∧ Step c s l s' ∧ s'.rank h < s.rank h := by
  have hin := (hs.exclusive h).mpr hlock
  cases h with
  | job i =>
    obtain ⟨hslot, hnot⟩ := Stage.holdsSlot_of_inLock hin
    obtain ⟨a, b, x, hact⟩ := hs.act_possible hslot fun h => absurd h hnot
    refine ⟨_, _, rfl, .act hact, ?_⟩
    simp only [State.rank, update_self]
    exact hact.rank
  | cancel k =>
    have hact : ∃ b x, CancelAct k s.toShared (s.cancelling k) b x ∧
        b.rank < (s.cancelling k).rank := by
      simp only [State.inLock] at hin
      cases hph : s.cancelling k with
      | locked i =>
        by_cases hi : i ∈ s.running
        · exact ⟨_, _, .cancel hi, Nat.lt_succ_self 1⟩
        · exact ⟨_, _, .unknown hi, Nat.lt_succ_self 1⟩
      | acted i => exact ⟨_, _, .unlock, Nat.one_pos⟩
      | _ => rw [hph] at hin; cases hin
    obtain ⟨b, x, hact, hrank⟩ := hact
    refine ⟨_, _, rfl, .cancel hact, ?_⟩
    simpa only [State.rank, update_self] using hrank
  | shutdown j =>
    have hact : ∃ b x, ShutAct j s.toShared (s.shutting j) b x ∧
        b.rank x.running.card < (s.shutting j).rank s.running.card := by
      simp only [State.inLock] at hin
      cases hph : s.shutting j with
      | locked => exact ⟨_, _, .close, Nat.lt_succ_self _⟩
      | closed rest =>
        obtain rfl | ⟨i, hi⟩ := rest.eq_empty_or_nonempty
        · exact ⟨_, _, .unlock, Nat.one_pos⟩
        · exact ⟨_, _, .cancel hi, Nat.succ_lt_succ (Finset.card_erase_lt_of_mem hi)⟩
      | _ => rw [hph] at hin; cases hin
    obtain ⟨b, x, hact, hrank⟩ := hact
    refine ⟨_, _, rfl, .shutdown hact, ?_⟩
    simpa only [State.rank, update_self] using hrank

end Progress

section Runs

variable [DecidableEq κ] [DecidableEq ζ] {m : Int} {s : State ι κ ζ} {tr : List (Label ι κ ζ)}
  {i : ι} {stage : Stage} {answered : Bool} {j : ζ}

theorem inv (h : Trace (pool ι κ ζ m) tr s) : Inv (capacity m) s := by
  induction h with
  | init h0 =>
    subst h0
    exact inv_empty
  | step _ hst ih => exact inv_step hst ih

/-- What the run says about a call at its place. -/
structure History (tr : List (Label ι κ ζ)) (i : ι) (stage : Stage) (answered : Bool) : Prop where
  begun : tr.count (.act i .start) = stage.begun.toNat
  slots : tr.count (.act i .acquire) = tr.count (.act i .release) + stage.holdsSlot.toNat
  early : stage.early = true → tr.count (.act i .acquire) = 0
  once : tr.count (.act i .acquire) ≤ 1
  steps : tr.countP (·.party = some (.job i)) + stage.rank ≤ 17
  ret : .ret i ∈ tr → answered = true

theorem History.other (h : History tr i stage answered) {l : Label ι κ ζ}
    (hact : ∀ a, l ≠ .act i a) (hret : l ≠ .ret i) : History (l :: tr) i stage answered := by
  refine ⟨?_, ?_, ?_, ?_, ?_, fun hmem => h.ret ((mem_cons.mp hmem).resolve_left hret.symm)⟩
  · rw [count_cons_of_ne (hact _)]
    exact h.begun
  · rw [count_cons_of_ne (hact _), count_cons_of_ne (hact _)]
    exact h.slots
  · rw [count_cons_of_ne (hact _)]
    exact h.early
  · rw [count_cons_of_ne (hact _)]
    exact h.once
  · rw [countP_cons_of_neg]
    · exact h.steps
    · cases l with
      | act j a =>
        rintro hj
        cases of_decide_eq_true hj
        exact hact a rfl
      | _ => nofun

theorem History.act {c : Nat} {x x' : Shared ι κ ζ} {a : Action} {b : Stage}
    (hact : Act c i x a stage b x') (h : History tr i stage answered) :
    History (.act i a :: tr) i b answered := by
  have hne : ∀ {a'}, a ≠ a' → (Label.act i a :: tr).count (.act i a') = tr.count (.act i a') :=
    fun ha => count_cons_of_ne fun h => ha (Label.act.inj h).2
  have har : Action.acquire ≠ .release := nofun
  have hslot := hact.slot
  refine ⟨?_, ?_, fun hb => ?_, ?_, ?_, fun hmem => ?_⟩
  · obtain ⟨rfl, ha, hb⟩ | ⟨ha, hb⟩ := hact.begun
    · rw [count_cons_self, h.begun, ha, hb]
      rfl
    · rw [hne ha, h.begun, hb]
  · have hslots := h.slots
    obtain ⟨rfl, -, ha, hb⟩ | ⟨rfl, ha, hb⟩ | ⟨hacq, hrel, hb⟩ := hslot
    · rw [count_cons_self, hne har, hb, hslots, ha]
      rfl
    · rw [count_cons_self, hne har.symm, hb, hslots, ha]
      rfl
    · rw [hne hacq, hne hrel, hb]
      exact hslots
  · obtain ⟨ha, hl⟩ := hact.early hb
    rw [hne hl]
    exact h.early ha
  · obtain ⟨rfl, ha, -, -⟩ | ⟨rfl, -, -⟩ | ⟨hacq, -, -⟩ := hslot
    · rw [count_cons_self, h.early ha]
    · rw [hne har.symm]
      exact h.once
    · rw [hne hacq]
      exact h.once
  · have hsteps := h.steps
    have hrank := hact.rank
    rw [countP_cons_of_pos (by exact decide_eq_true rfl)]
    omega
  · exact h.ret ((mem_cons.mp hmem).resolve_left nofun)

theorem history (h : Trace (pool ι κ ζ m) tr s) (i : ι) :
    History tr i (s.stage i) (s.answered i) := by
  induction h with
  | init h0 =>
    subst h0
    exact ⟨rfl, rfl, fun _ => rfl, Nat.zero_le 1, Nat.le_refl 17, nofun⟩
  | step _ hst ih =>
    cases hst with
    | @act j a b x hact =>
      dsimp only
      by_cases hj : i = j
      · subst hj
        rw [update_self]
        exact ih.act hact
      · rw [update_of_ne hj]
        exact ih.other (fun a h => hj (Label.act.inj h).1.symm) nofun
    | @ret j _ _ =>
      dsimp only
      by_cases hj : i = j
      · subst hj
        rw [update_self]
        -- The counts are those of the steps before.
        exact ⟨ih.begun, ih.slots, ih.early, ih.once, ih.steps, fun _ => rfl⟩
      · rw [update_of_ne hj]
        exact ih.other nofun fun h => hj (Label.ret.inj h).symm
    | expire => exact ih.other nofun nofun
    | cancel _ => exact ih.other nofun nofun
    | shutdown _ => exact ih.other nofun nofun

/-- A `Shutdown` that has passed a place which it does not leave is still past it. -/
theorem phase_of_mem {b : ShutPhase ι} (P : ShutPhase ι → Prop) (hb : P b)
    (hP : ∀ {a b : ShutPhase ι} {x x' : Shared ι κ ζ}, ShutAct j x a b x' → P a → P b)
    (h : Trace (pool ι κ ζ m) tr s) (hmem : .shutdown j b ∈ tr) : P (s.shutting j) := by
  induction h with
  | init _ => cases hmem
  | step _ hst ih =>
    cases hst with
    | @shutdown j' b' x hact =>
      dsimp only
      by_cases hj : j = j'
      · subst hj
        rw [update_self]
        rcases mem_cons.mp hmem with heq | hmem
        · exact (Label.shutdown.inj heq).2 ▸ hb
        · exact hP hact (ih hmem)
      · rw [update_of_ne hj]
        exact ih ((mem_cons.mp hmem).resolve_left fun h => hj (Label.shutdown.inj h).1)
    | _ => exact ih ((mem_cons.mp hmem).resolve_left nofun)

theorem hasUnlocked_of_mem (h : Trace (pool ι κ ζ m) tr s)
    (hmem : .shutdown j .unlocked ∈ tr) : (s.shutting j).hasUnlocked = true :=
  phase_of_mem (·.hasUnlocked = true) rfl (fun hact ha => hact.hasUnlocked ha) h hmem

theorem returned_of_mem (h : Trace (pool ι κ ζ m) tr s)
    (hmem : .shutdown j (.returned true) ∈ tr) : s.shutting j = .returned true := by
  refine phase_of_mem (· = .returned true) rfl ?_ h hmem
  rintro a b x x' hact rfl
  cases hact

def Stage.quiet : Stage → Bool
  | idle | finished | failed => true
  | _ => false

/-- What the pool promises in a state that a run ends in: the same holds in every later one. -/
structure Guarantees (m : Int) (tr : List (Label ι κ ζ)) (s : State ι κ ζ) : Prop where
  bounded : ∀ F : Finset ι, (∀ i ∈ F, s.stage i = .running) → (F.card : Int) ≤ max m 1
  /-- A job whose key was returned has been called once, or will be by a step that is possible. -/
  runs : ∀ i, .ret i ∈ tr → tr.count (.act i .start) = 1 ∨
    tr.count (.act i .start) = 0 ∧ ∃ s', (pool ι κ ζ m).step s (.act i .start) s'
  once : ∀ i, tr.count (.act i .start) ≤ 1
  refused : ∀ i, s.stage i = .failed → .ret i ∉ tr ∧ tr.count (.act i .start) = 0 ∧
    ∀ a s', ¬ (pool ι κ ζ m).step s (.act i a) s'
  slots : ∀ i, tr.count (.act i .acquire) ≤ 1 ∧
    tr.count (.act i .acquire) = tr.count (.act i .release) + (s.stage i).holdsSlot.toNat
  /-- A call that has a slot can step on, or waits for the mutex, whose holder can step and
  comes nearer to its unlock. A call makes 17 steps at most, so its slot comes back. -/
  returns : ∀ i, (s.stage i).holdsSlot = true →
    (∃ a s', (pool ι κ ζ m).step s (.act i a) s') ∨
      (s.stage i = .acquired ∨ s.stage i = .cancelled) ∧
        ∃ h l s', s.lock = some h ∧ l.party = some h ∧ (pool ι κ ζ m).step s l s' ∧
          s'.rank h < s.rank h
  steps : ∀ i, tr.countP (·.party = some (.job i)) ≤ 17
  free : (∀ i, (s.stage i).quiet = true) → s.sem = 0
  shut : ∀ j, .shutdown j .unlocked ∈ tr →
    s.running ⊆ s.cancels ∧ ∀ i s', ¬ (pool ι κ ζ m).step s (.act i .track) s'
  drained : ∀ j, .shutdown j (.returned true) ∈ tr →
    ∀ i, s.stage i ≠ .running ∧ ∀ s', ¬ (pool ι κ ζ m).step s (.act i .start) s'

theorem ready_of_launched {a : Stage} (hl : a.launched = true) (hb : a.begun = false) :
    a = .ready := by
  cases a with
  | ready => rfl
  | _ => first | exact absurd hl Bool.false_ne_true | exact absurd hb.symm Bool.false_ne_true

theorem Stage.holdsSlot_of_quiet {a : Stage} (h : a.quiet = true) : a.holdsSlot ≠ true := by
  cases a with
  | _ => first | exact Bool.false_ne_true | cases h

/-- Whatever the calls and jobs do and in whatever order, the pool keeps all of it. -/
theorem pool_guarantees (h : Trace (pool ι κ ζ m) tr s) : Guarantees m tr s := by
  have hinv := inv h
  refine ⟨fun F hF => ?_, fun i hret => ?_, fun i => ?_, fun i hfail => ?_, fun i => ?_,
    fun i hslot => ?_, fun i => ?_, fun hq => ?_,
    fun j hj => ⟨hinv.all_cancelled (hasUnlocked_of_mem h hj), fun i s' hst => ?_⟩,
    fun j hj i => ?_⟩
  · have hcard := hinv.sem.card_le (F := F) fun i hi => by rw [hF i hi]; rfl
    have hcap : (capacity m : Int) = max m 1 := Int.toNat_of_nonneg (by omega)
    have hsem := hinv.semLe
    omega
  · have hl := hinv.answered i ((history h i).ret hret)
    rw [(history h i).begun]
    cases hb : (s.stage i).begun with
    | true => exact .inl rfl
    | false =>
      have hstart : Act (capacity m) i s.toShared .start (s.stage i) .running s.toShared := by
        rw [ready_of_launched hl hb]
        exact .start
      exact .inr ⟨rfl, _, .act hstart⟩
  · rw [(history h i).begun]
    exact Bool.toNat_le _
  · refine ⟨fun hret => ?_, ?_, fun a s' hst => ?_⟩
    · have hl := hinv.answered i ((history h i).ret hret)
      rw [hfail] at hl
      cases hl
    · rw [(history h i).begun, hfail]
      rfl
    · cases hst with
      | act hact =>
        rw [hfail] at hact
        cases hact
  · exact ⟨(history h i).once, (history h i).slots⟩
  · by_cases hwait : (s.stage i = .acquired ∨ s.stage i = .cancelled) ∧ s.lock ≠ none
    · obtain ⟨h, hlock⟩ := Option.ne_none_iff_exists'.mp hwait.2
      obtain ⟨l, s', hl, hst, hrank⟩ := hinv.holder_moves hlock
      exact .inr ⟨hwait.1, h, l, s', hlock, hl, hst, hrank⟩
    · have hfree : s.stage i = .acquired ∨ s.stage i = .cancelled → s.lock = none :=
        fun hst => by_contra fun hlock => hwait ⟨hst, hlock⟩
      obtain ⟨a, b, x, hact⟩ := hinv.act_possible hslot hfree
      exact .inl ⟨a, _, .act hact⟩
  · exact (Nat.le_add_right _ _).trans (history h i).steps
  · exact hinv.sem.eq_zero fun i => Stage.holdsSlot_of_quiet (hq i)
  · cases hst with
    | act hact =>
      have hopen := hinv.not_track hact
      have hunlocked := hasUnlocked_of_mem h hj
      rw [hinv.shut j (ShutPhase.hasClosed_of_hasUnlocked hunlocked)] at hopen
      cases hopen
  · have hout := hinv.drained j (by rw [returned_of_mem h hj]; rfl) i
    refine ⟨fun hrun => ?_, fun s' hst => ?_⟩
    · rw [hrun] at hout
      cases hout
    · cases hst with
      | act hact =>
        generalize s.stage i = a at hact hout
        cases hact
        cases hout

/-- One job is submitted to a pool of no concurrency, the pool is shut, the job runs to its end
and the `Shutdown` returns. -/
theorem pool_guarantees_shutdown :
    ∃ (tr : List (Label Unit Unit Unit)) (s : State Unit Unit Unit),
      Trace (pool Unit Unit Unit 0) tr s ∧ .ret () ∈ tr ∧ .shutdown () (.returned true) ∈ tr ∧
        Guarantees 0 tr s := by
  have h₁ := (Trace.init (M := pool Unit Unit Unit 0) rfl).step (.act (i := ()) .call)
  have h₂ := (h₁.step (.act (i := ()) (.enter rfl))).step (.act (i := ()) (.acquire Nat.one_pos))
  have h₃ := (h₂.step (.act (i := ()) (.lock rfl))).step (.act (i := ()) (.check rfl))
  have h₄ := ((h₃.step (.act (i := ()) .track)).step (.act (i := ()) .add)).step
    (.act (i := ()) .unlock)
  have h₅ := (h₄.step (.act (i := ()) .go)).step (.ret (i := ()) rfl rfl)
  have h₆ := (h₅.step (.shutdown (j := ()) .call)).step (.shutdown (j := ()) (.lock rfl))
  have h₇ := (h₆.step (.shutdown (j := ()) .close)).step
    (.shutdown (j := ()) (.cancel (i := ()) (Finset.mem_insert_self _ _)))
  have h₈ := (h₇.step (.shutdown (j := ()) .unlock)).step
    (.act (i := ()) .start)
  have h₉ := (h₈.step (.act (i := ()) .finish)).step (.act (i := ()) .cancel)
  have h₁₀ := (h₉.step (.act (i := ()) (.relock rfl))).step (.act (i := ()) .delete)
  have h₁₁ := (h₁₀.step (.act (i := ()) .reunlock)).step (.act (i := ()) (.done rfl))
  have h₁₂ := (h₁₁.step (.act (i := ()) (.release rfl))).step (.shutdown (j := ()) (.wait rfl))
  have h₁₃ := h₁₂.step (.shutdown (j := ()) .ret)
  exact ⟨_, _, h₁₃, by decide, by decide, pool_guarantees h₁₃⟩

end Runs

end Skit.Worker.Pool
