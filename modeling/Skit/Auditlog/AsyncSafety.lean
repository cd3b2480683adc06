import Skit.Auditlog.Async

/-!
# What the asynchronous recorder keeps

Three things are said of every run of `AsyncRecorder`. The shutdown handshake is an invariant
of the state (`Inv`): once `closing` is set no call is about to send, and a worker that drains
knows that. Every shard keeps its accounts (`Accounts`): what was sent to it is in its queue,
in the write of its worker, or written, in the order of the sends. And every call is told by
its labels (`Told`): whether its entry was enqueued or dropped.
-/
namespace Skit.Auditlog.Async
open Lib List Function State Producer

variable {ι : Type} {cfg : AsyncConfig} {s s' : State ι} {l : Label ι}

section Parties

/-- The moves of one call of `Record`. -/
inductive Own (i : ι) : Producer → Label ι → Producer → Prop
  | call : Own i .idle (.call i) .called
  | panic : Own i .idle (.call i) .panicked
  | rlock : Own i .called (.rlock i) .checking
  | refused : Own i .checking (.check i) .dropping
  | admitted : Own i .checking (.check i) .sending
  | send (k : Nat) : Own i .sending (.send i k) (.unlocking true)
  | skip : Own i .sending (.skip i) .dropping
  | drop : Own i .dropping (.drop i) (.unlocking false)
  | ret (sent : Bool) : Own i (.unlocking sent) (.ret i) (.returned sent)

/-- The call that a label is a step of. -/
def Label.producer : Label ι → Option ι
  | .call i | .rlock i | .check i | .send i _ | .skip i | .drop i | .ret i => some i
  | _ => none

variable [DecidableEq ι] {entry : ι → Model}

theorem setProducer_own {i j : ι} {p : Producer} (hl : l.producer = some j)
    (hown : Own j (s.producers j) l p) :
    ((s.setProducer j p).producers i = s.producers i ∧ l.producer ≠ some i) ∨
      Own i (s.producers i) l ((s.setProducer j p).producers i) := by
  by_cases hij : i = j
  · subst hij
    exact .inr (by simpa [setProducer] using hown)
  · refine .inl ⟨update_of_ne hij _ _, ?_⟩
    rw [hl]
    exact fun h => hij (Option.some.inj h).symm

theorem Step.own (h : Step cfg entry s l s') (i : ι) :
    (s'.producers i = s.producers i ∧ l.producer ≠ some i) ∨
      Own i (s.producers i) l (s'.producers i) := by
  cases h with
  | call hp _ => exact setProducer_own rfl (hp ▸ .call)
  | panic hp _ => exact setProducer_own rfl (hp ▸ .panic)
  | rlock hp _ => exact setProducer_own rfl (hp ▸ .rlock)
  | refused hp _ => exact setProducer_own rfl (hp ▸ .refused)
  | admitted hp _ => exact setProducer_own rfl (hp ▸ .admitted)
  | send hp _ _ => exact setProducer_own rfl (hp ▸ .send _)
  | done hp _ _ => exact setProducer_own rfl (hp ▸ .skip)
  | full hp _ _ _ => exact setProducer_own rfl (hp ▸ .skip)
  | drop hp => exact setProducer_own rfl (hp ▸ .drop)
  | ret hp => exact setProducer_own rfl (hp ▸ .ret _)
  | _ => exact .inl ⟨rfl, by simp [Label.producer]⟩

end Parties

section Handshake

/-- What the shutdown handshake keeps. -/
structure Inv (cfg : AsyncConfig) (s : State ι) : Prop where
  starter : s.starter = .idle ↔ s.coordinator = .idle
  workers_idle : s.starter = .idle → ∀ k, s.workers k = .idle
  workers_range : ∀ k, cfg.shards ≤ k → s.workers k = .idle
  workers_started : s.starter ≠ .idle → ∀ k < cfg.shards, s.workers k ≠ .idle
  done : s.done = true ↔ s.coordinator ≠ .idle ∧ s.coordinator ≠ .waiting
  closing : s.closing = true ↔
    s.coordinator = .marked ∨ s.coordinator = .unlocked ∨ s.coordinator = .finished
  drainReady : s.drainReady = true ↔ s.coordinator = .finished
  quiet : s.coordinator = .locked ∨ s.coordinator = .marked → ∀ i, (s.producers i).holds = false
  not_sending : s.closing = true → ∀ i, s.producers i ≠ .sending
  draining : ∀ k, s.workers k = .draining ∨ (∃ i, s.workers k = .flushing i) ∨
    s.workers k = .returned → s.drainReady = true
  emptied : ∀ k, s.workers k = .returned → s.queues k = []
  joined : s.starter = .returned → ∀ k < cfg.shards, s.workers k = .returned

theorem Inv.new : Inv cfg (State.new : State ι) := by
  constructor <;> simp [State.new, holds]

variable {k : Nat} {c : Coordinator}

theorem Inv.setQueue {q : List ι} (h : Inv cfg s) (hk : s.workers k ≠ .returned) :
    Inv cfg (s.setQueue k q) := by
  refine { h with emptied := fun k' hr => ?_ }
  have hne : k' ≠ k := by
    rintro rfl
    exact hk hr
  simpa [State.setQueue, update_of_ne hne] using h.emptied k' hr

theorem Inv.shard_lt (h : Inv cfg s) (hk : s.workers k ≠ .idle) : k < cfg.shards := by
  by_contra hge
  exact hk (h.workers_range k (Nat.not_lt.mp hge))

theorem Inv.setWorker {w : Worker ι} (h : Inv cfg s) (hidle : s.workers k ≠ .idle)
    (hret : s.workers k ≠ .returned) (hw : w ≠ .idle)
    (hd : w = .draining ∨ (∃ i, w = .flushing i) ∨ w = .returned → s.drainReady = true)
    (he : w = .returned → s.queues k = []) : Inv cfg (s.setWorker k w) := by
  have hlt := h.shard_lt hidle
  have hstarted : s.starter ≠ .idle := fun hs => hidle (h.workers_idle hs k)
  have hself : (s.setWorker k w).workers k = w := update_self ..
  have hother {k' : Nat} (hk : k' ≠ k) : (s.setWorker k w).workers k' = s.workers k' :=
    update_of_ne hk ..
  refine { h with
    workers_idle := fun hs => absurd hs hstarted
    workers_range := fun k' hk' => ?_
    workers_started := fun hs k' hk' => ?_
    draining := fun k' hk' => ?_
    emptied := fun k' hk' => ?_
    joined := fun hs => absurd (h.joined hs k hlt) hret }
  · rw [hother (by omega)]
    exact h.workers_range k' hk'
  · by_cases hk : k' = k
    · rw [hk, hself]
      exact hw
    · rw [hother hk]
      exact h.workers_started hs k' hk'
  · by_cases hk : k' = k
    · rw [hk, hself] at hk'
      exact hd hk'
    · rw [hother hk] at hk'
      exact h.draining k' hk'
  · by_cases hk : k' = k
    · rw [hk, hself] at hk'
      rw [hk]
      exact he hk'
    · rw [hother hk] at hk'
      exact h.emptied k' hk'

/-- The coordinator moves on. -/
theorem Inv.setCoordinator {done closing drainReady : Bool} (h : Inv cfg s)
    (hc : s.coordinator ≠ .idle) (hc' : c ≠ .idle) (hdone : done = true ↔ c ≠ .idle ∧ c ≠ .waiting)
    (hclosing : closing = true ↔ c = .marked ∨ c = .unlocked ∨ c = .finished)
    (hready : drainReady = true ↔ c = .finished)
    (hquiet : c = .locked ∨ c = .marked → ∀ i, (s.producers i).holds = false)
    (hsending : closing = true → ∀ i, s.producers i ≠ .sending)
    (hkept : s.drainReady = true → drainReady = true) :
    Inv cfg
      { s with coordinator := c, done := done, closing := closing, drainReady := drainReady } :=
  { h with
    starter := by simpa [hc'] using mt h.starter.mp hc
    done := hdone
    closing := hclosing
    drainReady := hready
    quiet := hquiet
    not_sending := hsending
    draining := fun k hk => hkept (h.draining k hk) }

theorem Coordinator.writes_of_locked (h : c = .locked ∨ c = .marked) : c.writes = true := by
  rcases h with rfl | rfl <;> rfl

theorem Inv.not_returned {i : ι} (h : Inv cfg s) (hp : s.producers i = .sending) (k : Nat) :
    s.workers k ≠ .returned := by
  intro hw
  have hfinished := h.drainReady.mp (h.draining k (.inr (.inr hw)))
  exact h.not_sending (h.closing.mpr (.inr (.inr hfinished))) i hp

variable [DecidableEq ι] {entry : ι → Model}

/-- A call moves: it holds the read lock only if it did or no writer is there, and is about to
send only if `closing` is not set. -/
theorem Inv.setProducer {i : ι} {p : Producer} (h : Inv cfg s)
    (hq : p.holds = true → (s.producers i).holds = true ∨ s.coordinator.writes = false)
    (hs : p = .sending → s.closing = false) : Inv cfg (s.setProducer i p) := by
  have hself : (s.setProducer i p).producers i = p := update_self ..
  have hother {j : ι} (hj : j ≠ i) : (s.setProducer i p).producers j = s.producers j :=
    update_of_ne hj ..
  refine { h with quiet := fun hc j => ?_, not_sending := fun hc j => ?_ }
  · by_cases hj : j = i
    · rw [hj, hself, Bool.eq_false_iff]
      intro hp
      obtain hold | hfree := hq hp
      · exact Bool.false_ne_true ((h.quiet hc i).symm.trans hold)
      · exact Bool.false_ne_true (hfree.symm.trans (Coordinator.writes_of_locked hc))
    · rw [hother hj]
      exact h.quiet hc j
  · by_cases hj : j = i
    · rw [hj, hself]
      intro hp
      exact Bool.false_ne_true ((hs hp).symm.trans hc)
    · rw [hother hj]
      exact h.not_sending hc j

theorem Inv.step (h : Inv cfg s) (hst : Step cfg entry s l s') : Inv cfg s' := by
  cases hst with
  | call hp hk => exact h.setProducer (by simp [holds]) (by simp)
  | panic hp hk => exact h.setProducer (by simp [holds]) (by simp)
  | rlock hp hw => exact h.setProducer (fun _ => .inr hw) (by simp)
  | refused hp hc => exact h.setProducer (fun _ => .inl (by simp [hp, holds])) (by simp)
  | admitted hp hc => exact h.setProducer (fun _ => .inl (by simp [hp, holds])) fun _ => hc
  | @send i k hp hk hq =>
    have hset : Inv cfg (s.setProducer i (.unlocking true)) :=
      h.setProducer (fun _ => .inl (by simp [hp, holds])) (by simp)
    exact hset.setQueue (h.not_returned hp k)
  | done hp hb hd => exact h.setProducer (fun _ => .inl (by simp [hp, holds])) (by simp)
  | full hp hb hk hq => exact h.setProducer (fun _ => .inl (by simp [hp, holds])) (by simp)
  | drop hp => exact h.setProducer (fun _ => .inl (by simp [hp, holds])) (by simp)
  | ret hp => exact h.setProducer (by simp [holds]) (by simp)
  | start hs =>
    have hc := h.starter.mp hs
    exact { h with
      starter := by simp
      workers_idle := by simp
      workers_range := fun k hk => by simp [Nat.not_lt.mpr hk]
      workers_started := fun _ k hk => by simp [hk]
      done := by simpa [hc] using h.done
      closing := by simpa [hc] using h.closing
      drainReady := by simpa [hc] using h.drainReady
      quiet := by simp
      draining := fun k hk => by by_cases hlt : k < cfg.shards <;> simp [hlt] at hk
      emptied := fun k hk => by by_cases hlt : k < cfg.shards <;> simp [hlt] at hk
      joined := by simp }
  | join hs hall => exact { h with
      starter := by simpa [hs] using h.starter
      workers_idle := by simp
      workers_started := fun _ k hk => by simp [hall k hk]
      joined := fun _ => hall }
  | cancel hc => exact { h with }
  | closeDone hc _ =>
    exact h.setCoordinator (by simp [hc]) (by simp) (by simp) (by simpa [hc] using h.closing)
      (by simpa [hc] using h.drainReady) (by simp) h.not_sending id
  | lock hc =>
    exact h.setCoordinator (by simp [hc]) (by simp) (by simpa [hc] using h.done)
      (by simpa [hc] using h.closing) (by simpa [hc] using h.drainReady) (by simp) h.not_sending id
  | locked hc hall =>
    exact h.setCoordinator (by simp [hc]) (by simp) (by simpa [hc] using h.done)
      (by simpa [hc] using h.closing) (by simpa [hc] using h.drainReady) (fun _ => hall)
      h.not_sending id
  | mark hc =>
    -- no call holds the read lock, so none is about to send
    have hquiet := h.quiet (.inl hc)
    refine h.setCoordinator (by simp [hc]) (by simp) (by simpa [hc] using h.done) (by simp)
      (by simpa [hc] using h.drainReady) (fun _ => hquiet) (fun _ i hp => ?_) id
    simpa [hp, holds] using hquiet i
  | unlock hc =>
    exact h.setCoordinator (by simp [hc]) (by simp) (by simpa [hc] using h.done)
      (by simpa [hc] using h.closing) (by simpa [hc] using h.drainReady) (by simp) h.not_sending id
  | closeDrain hc =>
    exact h.setCoordinator (by simp [hc]) (by simp) (by simpa [hc] using h.done)
      (by simpa [hc] using h.closing) (by simp) (by simp) h.not_sending (by simp)
  | @receive k i q hw hq =>
    have hset : Inv cfg (s.setWorker k (.writing i)) :=
      h.setWorker (by simp [hw]) (by simp [hw]) (by simp) (by simp) (by simp)
    exact hset.setQueue (by simp [State.setWorker])
  | finish hw => exact h.setWorker (by simp [hw]) (by simp [hw]) (by simp) (by simp) (by simp)
  | stop hw _ => exact h.setWorker (by simp [hw]) (by simp [hw]) (by simp) (by simp) (by simp)
  | ready hw hd => exact h.setWorker (by simp [hw]) (by simp [hw]) (by simp) (fun _ => hd) (by simp)
  | @flush k i q hw hq =>
    have hd := h.draining k (.inl hw)
    have hset : Inv cfg (s.setWorker k (.flushing i)) :=
      h.setWorker (by simp [hw]) (by simp [hw]) (by simp) (fun _ => hd) (by simp)
    exact hset.setQueue (by simp [State.setWorker])
  | flushed hw =>
    have hd := h.draining _ (.inr (.inl ⟨_, hw⟩))
    exact h.setWorker (by simp [hw]) (by simp [hw]) (by simp) (fun _ => hd) (by simp)
  | exit hw hq =>
    have hd := h.draining _ (.inl hw)
    exact h.setWorker (by simp [hw]) (by simp [hw]) (by simp) (fun _ => hd) (fun _ => hq)

end Handshake

section Shards

/-- The shard that a label moves an entry of. -/
def Label.shard : Label ι → Option Nat
  | .send _ k | .receive k _ | .finish k _ => some k
  | _ => none

/-- What a step does to the queue of a shard and to the entry that its worker writes: nothing,
or an entry enters the queue, goes from the queue to the worker, or leaves the worker. -/
inductive Shard (k : Nat) (q : List ι) (cur : List ι) : Label ι → List ι → List ι → Prop
  | other {l : Label ι} (hl : l.shard ≠ some k) : Shard k q cur l q cur
  | send (i : ι) : Shard k q cur (.send i k) (q ++ [i]) cur
  | receive (i : ι) (q' : List ι) (hq : q = i :: q') (hc : cur = []) :
      Shard k q cur (.receive k i) q' [i]
  | finish (i : ι) (hc : cur = [i]) : Shard k q cur (.finish k i) q []

theorem Shard.kept {k : Nat} {q q' cur cur' : List ι} (hl : l.shard ≠ some k) (hq : q' = q)
    (hc : cur' = cur) : Shard k q cur l q' cur' := by
  subst hq hc
  exact .other hl

variable {w : Worker ι} {k k' : Nat}

theorem shard_setWorker (hl : l.shard = none) (hw : w.current = (s.workers k').current) :
    Shard k (s.queues k) (s.workers k).current l ((s.setWorker k' w).queues k)
      ((s.setWorker k' w).workers k).current := by
  refine .kept (by simp [hl]) rfl ?_
  by_cases hk : k = k'
  · subst hk
    simpa [State.setWorker] using hw
  · simp [State.setWorker, update_of_ne hk]

theorem shard_receive {i : ι} {q : List ι}
    (hw : (s.workers k').current = []) (hq : s.queues k' = i :: q) (hw' : w.current = [i]) :
    Shard k (s.queues k) (s.workers k).current (.receive k' i)
      (((s.setWorker k' w).setQueue k' q).queues k)
      (((s.setWorker k' w).setQueue k' q).workers k).current := by
  by_cases hk : k = k'
  · subst hk
    simpa [State.setQueue, State.setWorker, hw'] using Shard.receive i q hq hw
  · refine .kept (by simp [Label.shard, Ne.symm hk]) ?_ ?_
    · simp [State.setQueue, State.setWorker, update_of_ne hk]
    · simp [State.setQueue, State.setWorker, update_of_ne hk]

theorem shard_finish {i : ι} (hw : (s.workers k').current = [i]) (hw' : w.current = []) :
    Shard k (s.queues k) (s.workers k).current (.finish k' i) ((s.setWorker k' w).queues k)
      ((s.setWorker k' w).workers k).current := by
  by_cases hk : k = k'
  · subst hk
    simpa [State.setWorker, hw'] using Shard.finish i hw
  · refine .kept (by simp [Label.shard, Ne.symm hk]) rfl ?_
    simp [State.setWorker, update_of_ne hk]

variable [DecidableEq ι] {entry : ι → Model}

theorem Step.shard (h : Step cfg entry s l s') (hi : Inv cfg s) (k : Nat) :
    Shard k (s.queues k) (s.workers k).current l (s'.queues k) (s'.workers k).current := by
  cases h with
  | @send i k' hp hk hq =>
    by_cases hkk : k = k'
    · subst hkk
      simpa [State.setQueue, setProducer] using Shard.send i
    · refine .kept (by simp [Label.shard, Ne.symm hkk]) ?_ rfl
      simp [State.setQueue, setProducer, update_of_ne hkk]
  | start hs =>
    refine .kept (by simp [Label.shard]) rfl ?_
    rw [hi.workers_idle hs k]
    dsimp only
    split_ifs <;> rfl
  | receive hw hq => exact shard_receive (by simp [hw, Worker.current]) hq rfl
  | flush hw hq => exact shard_receive (by simp [hw, Worker.current]) hq rfl
  | finish hw => exact shard_finish (by simp [hw, Worker.current]) rfl
  | flushed hw => exact shard_finish (by simp [hw, Worker.current]) rfl
  | stop hw _ => exact shard_setWorker rfl (by simp [hw, Worker.current])
  | ready hw _ => exact shard_setWorker rfl (by simp [hw, Worker.current])
  | exit hw _ => exact shard_setWorker rfl (by simp [hw, Worker.current])
  | _ => exact .kept (by simp [Label.shard]) rfl rfl

end Shards

section Accounts

/-- The entry that a label sends, with its shard; likewise for the begin and the end of a
write. -/
def Label.sent : Label ι → Option (Nat × ι)
  | .send i k => some (k, i)
  | _ => none

def Label.received : Label ι → Option (Nat × ι)
  | .receive k i => some (k, i)
  | _ => none

def Label.finished : Label ι → Option (Nat × ι)
  | .finish k i => some (k, i)
  | _ => none

/-- The entries that the labels of a shard move, latest first. -/
def moved (f : Label ι → Option (Nat × ι)) (k : Nat) (tr : List (Label ι)) : List ι :=
  tr.filterMap fun l => (f l).bind fun p => if p.1 = k then some p.2 else none

variable {f : Label ι → Option (Nat × ι)} {k : Nat} {i : ι} {tr r : List (Label ι)}

theorem mem_moved : i ∈ moved f k tr ↔ ∃ l ∈ tr, f l = some (k, i) := by
  simp only [moved, mem_filterMap]
  refine exists_congr fun l => and_congr_right fun _ => ?_
  cases f l with
  | none => simp
  | some p => by_cases hk : p.1 = k <;> simp [hk, Prod.ext_iff]

theorem moved_cons_none (h : f l = none) : moved f k (l :: tr) = moved f k tr := by
  simp [moved, h]

theorem moved_cons_self (h : f l = some (k, i)) : moved f k (l :: tr) = i :: moved f k tr := by
  simp [moved, h]

theorem moved_cons_other {k' : Nat} (h : f l = some (k', i)) (hk : k' ≠ k) :
    moved f k (l :: tr) = moved f k tr := by
  simp [moved, h, hk]

variable [DecidableEq ι] {entry : ι → Model}

theorem inv_of_trace (h : Trace (recorder cfg entry) tr s) : Inv cfg s := by
  refine h.invariant (I := fun _ s => Inv cfg s) ?_ fun _ _ _ _ _ hst hi => hi.step hst
  rintro s rfl
  exact .new

/-- What was sent to a shard is in its queue or was received, and what was received is being
written or was written, all in the order of the sends. -/
structure Accounts (k : Nat) (tr : List (Label ι)) (q cur : List ι) : Prop where
  sent : moved Label.sent k tr = q.reverse ++ moved Label.received k tr
  received : moved Label.received k tr = cur ++ moved Label.finished k tr

omit [DecidableEq ι] in
theorem Accounts.step {q q' cur cur' : List ι} (h : Accounts k tr q cur)
    (hs : Shard k q cur l q' cur') : Accounts k (l :: tr) q' cur' := by
  cases hs with
  | other hl =>
    have hkept {f : Label ι → Option (Nat × ι)} (hf : ∀ p, f l = some p → l.shard = some p.1) :
        moved f k (l :: tr) = moved f k tr := by
      cases hp : f l with
      | none => exact moved_cons_none hp
      | some p => exact moved_cons_other hp fun hk => hl (hk ▸ hf p hp)
    constructor
    · rw [hkept, hkept, h.sent] <;> intro p hp <;> cases l <;> cases hp <;> rfl
    · rw [hkept, hkept, h.received] <;> intro p hp <;> cases l <;> cases hp <;> rfl
  | send i =>
    constructor
    · rw [moved_cons_self rfl, moved_cons_none rfl, h.sent]
      simp
    · rw [moved_cons_none rfl, moved_cons_none rfl, h.received]
  | receive i _ hq hc =>
    constructor
    · rw [moved_cons_none rfl, moved_cons_self rfl, h.sent, hq]
      simp
    · rw [moved_cons_self rfl, moved_cons_none rfl, h.received, hc]
      simp
  | finish i hc =>
    constructor
    · rw [moved_cons_none rfl, moved_cons_none rfl, h.sent]
    · rw [moved_cons_none rfl, moved_cons_self rfl, h.received, hc]
      simp

theorem accounts (h : Trace (recorder cfg entry) tr s) (k : Nat) :
    Accounts k tr (s.queues k) (s.workers k).current := by
  refine h.invariant (I := fun tr s => Accounts k tr (s.queues k) (s.workers k).current) ?_ ?_
  · rintro s rfl
    exact ⟨rfl, rfl⟩
  · exact fun tr s l s' h hst ih => ih.step (hst.shard (inv_of_trace h) k)

end Accounts

section Counts

def Producer.sent : Producer → Nat
  | .unlocking true | .returned true => 1
  | _ => 0

def Producer.dropped : Producer → Nat
  | .unlocking false | .returned false => 1
  | _ => 0

variable [DecidableEq ι] {entry : ι → Model} {f : Label ι → Option (Nat × ι)} {k : Nat} {i j : ι}
  {tr r : List (Label ι)}

/-- How many labels move the entry. -/
def times (f : Label ι → Option (Nat × ι)) (i : ι) (tr : List (Label ι)) : Nat :=
  tr.countP fun l => (f l).map Prod.snd = some i

/-- How often the entry of a call was enqueued, how often a write of it began and ended, and
how often it was dropped. -/
def enqueued (i : ι) (tr : List (Label ι)) : Nat := times Label.sent i tr

def begun (i : ι) (tr : List (Label ι)) : Nat := times Label.received i tr

def written (i : ι) (tr : List (Label ι)) : Nat := times Label.finished i tr

def dropped (i : ι) (tr : List (Label ι)) : Nat := tr.count (.drop i)

theorem times_eq_count (h : ∀ l ∈ tr, ∀ k', f l = some (k', i) → k' = k) :
    times f i tr = (moved f k tr).count i := by
  rw [moved, count_filterMap, times]
  refine countP_congr fun l hl => ?_
  cases hf : f l with
  | none => simp
  | some p =>
    by_cases hp : p.2 = i
    · have hk := h l hl p.1 (by rw [hf, ← hp])
      simp [hp, hk]
    · by_cases hk : p.1 = k <;> simp [hp, hk]

/-- The labels of a call are told by where it stands. -/
structure Told (i : ι) (tr : List (Label ι)) (p : Producer) : Prop where
  enqueued : enqueued i tr = p.sent
  dropped : dropped i tr = p.dropped
  called : .call i ∈ tr ↔ p ≠ .idle
  returned : .ret i ∈ tr ↔ ∃ sent, p = .returned sent

theorem Told.other {p : Producer} (h : Told i tr p) (hl : l.producer ≠ some i) :
    Told i (l :: tr) p := by
  have hne {l' : Label ι} (hl' : l'.producer = some i) : l' ≠ l := by
    rintro rfl
    exact hl hl'
  have hsent : l.sent.map Prod.snd ≠ some i := by
    cases l with
    | send j k => exact hl
    | _ => exact nofun
  refine ⟨?_, ?_, ?_, ?_⟩
  · rw [← h.enqueued, Async.enqueued, times, countP_cons_of_neg (by simpa using hsent)]
    rfl
  · rw [← h.dropped]
    exact count_cons_of_ne (hne rfl).symm
  · have hcall : Label.call i ≠ l := hne rfl
    simp [hcall, h.called]
  · have hret : Label.ret i ≠ l := hne rfl
    simp [hret, h.returned]

theorem Told.own {p p' : Producer} (h : Told i tr p) (ho : Own i p l p') : Told i (l :: tr) p' := by
  obtain ⟨henq, hdrop, hcall, hret⟩ := h
  rw [Async.enqueued, times] at henq
  rw [Async.dropped] at hdrop
  refine ⟨?_, ?_, ?_, ?_⟩
  · rw [Async.enqueued, times, countP_cons, henq]
    cases ho with
    | ret sent => cases sent <;> rfl
    | _ => simp [Label.sent, Producer.sent]
  · rw [Async.dropped, count_cons, hdrop]
    cases ho with
    | ret sent => cases sent <;> rfl
    | _ => simp [Producer.dropped]
  · cases ho with
    | call | panic => simp
    | _ => simpa using hcall
  · cases ho with
    | ret sent => simp
    | _ => simpa using hret

section

variable (h : Trace (recorder cfg entry) tr s)
include h

theorem told (i : ι) : Told i tr (s.producers i) := by
  refine h.invariant (I := fun tr s => Told i tr (s.producers i)) ?_ ?_
  · rintro s rfl
    constructor <;> simp [State.new, enqueued, dropped, times, Producer.sent, Producer.dropped]
  · intro tr s l s' _ hst ih
    rcases hst.own i with ⟨hp, hl⟩ | ho
    · rw [hp]
      exact ih.other hl
    · exact ih.own ho

theorem shardFor_of_sent (hm : i ∈ moved Label.sent k tr) :
    shardFor cfg.shards (entry i) = some k := by
  obtain ⟨l, hl, hf⟩ := mem_moved.mp hm
  obtain ⟨p, r, rfl⟩ := append_of_mem hl
  obtain ⟨s₀, s₁, -, hst⟩ := h.at_label (suffix_append p _)
  cases hst <;> cases hf
  assumption

theorem shardFor_of_received
    (hm : i ∈ moved Label.received k tr) : shardFor cfg.shards (entry i) = some k := by
  refine shardFor_of_sent h ?_
  rw [(accounts h k).sent]
  exact mem_append_right _ hm

theorem shardFor_of_finished
    (hm : i ∈ moved Label.finished k tr) : shardFor cfg.shards (entry i) = some k := by
  refine shardFor_of_received h ?_
  rw [(accounts h k).received]
  exact mem_append_right _ hm

end

theorem times_of_home (hk : shardFor cfg.shards (entry i) = some k)
    (hhome : ∀ k, i ∈ moved f k tr → shardFor cfg.shards (entry i) = some k) :
    times f i tr = (moved f k tr).count i := by
  refine times_eq_count fun l hl k' hf => ?_
  have hk' := hhome k' (mem_moved.mpr ⟨l, hl, hf⟩)
  exact Option.some.inj (hk'.symm.trans hk)

theorem times_of_homeless (hk : shardFor cfg.shards (entry i) = none)
    (hhome : ∀ k, i ∈ moved f k tr → shardFor cfg.shards (entry i) = some k) :
    times f i tr = 0 := by
  refine countP_eq_zero.mpr fun l hl => ?_
  cases hf : f l with
  | none => simp
  | some p =>
    simp only [Option.map_some, Option.some.injEq, decide_eq_true_eq]
    rintro rfl
    simp [hhome p.1 (mem_moved.mpr ⟨l, hl, hf⟩)] at hk

/-- An entry that was enqueued is in the queue, in a write, or written. -/
theorem balance (h : Trace (recorder cfg entry) tr s)
    (hk : shardFor cfg.shards (entry i) = some k) :
    enqueued i tr = (s.queues k).count i + begun i tr ∧
      begun i tr = (s.workers k).current.count i + written i tr := by
  have hacc := accounts h k
  rw [enqueued, begun, written, times_of_home hk fun _ => shardFor_of_sent h,
    times_of_home hk fun _ => shardFor_of_received h,
    times_of_home hk fun _ => shardFor_of_finished h]
  refine ⟨?_, ?_⟩
  · rw [hacc.sent, count_append, count_reverse]
  · rw [hacc.received, count_append]

theorem homeless (h : Trace (recorder cfg entry) tr s)
    (hk : shardFor cfg.shards (entry i) = none) :
    enqueued i tr = 0 ∧ begun i tr = 0 ∧ written i tr = 0 :=
  ⟨times_of_homeless hk fun _ => shardFor_of_sent h,
    times_of_homeless hk fun _ => shardFor_of_received h,
    times_of_homeless hk fun _ => shardFor_of_finished h⟩

end Counts

end Skit.Auditlog.Async
