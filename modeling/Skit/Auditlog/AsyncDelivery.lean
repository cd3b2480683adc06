import Skit.Auditlog.AsyncSafety
import Skit.Lib.Suffix
import Mathlib.Algebra.BigOperators.Group.Finset.Basic

/-!
# Delivery by the asynchronous recorder

What becomes of the entries of `AsyncRecorder`: each is written once or dropped once, those
of one model in the order of the calls, none after `Start` has returned; and after the
cancellation there is always a party that can move, until all have finished.
-/
namespace Skit.Auditlog.Async
open Lib List Function Producer

variable {ι : Type} [DecidableEq ι] {cfg : AsyncConfig} {entry : ι → Model} {s s' : State ι}
  {l : Label ι} {tr r r' : List (Label ι)} {i j : ι} {k : Nat}

section Returned

theorem shards_pos (cfg : AsyncConfig) : 0 < cfg.shards := by
  unfold AsyncConfig.shards
  split_ifs <;> omega

variable (h : Trace (recorder cfg entry) tr s)
include h

theorem join_mem_iff : .join ∈ tr ↔ s.starter = .returned := by
  refine h.invariant (I := fun tr s => .join ∈ tr ↔ s.starter = .returned) ?_ ?_
  · rintro s rfl
    simp [State.new]
  · intro tr s l s' _ hst ih
    cases hst with
    | start hs => simpa [hs] using ih
    | join hs _ => simp
    | _ => simpa [State.setProducer, State.setQueue, State.setWorker] using ih

theorem closing_of_join (hj : .join ∈ tr) : s.closing = true := by
  have hi := inv_of_trace h
  have hw := hi.joined ((join_mem_iff h).mp hj) 0 (shards_pos cfg)
  exact hi.closing.mpr (.inr (.inr (hi.drainReady.mp (hi.draining 0 (.inr (.inr hw))))))

theorem written_of_join (hj : .join ∈ tr) (i : ι) : written i tr = enqueued i tr := by
  have hi := inv_of_trace h
  cases hk : shardFor cfg.shards (entry i) with
  | none => rw [(homeless h hk).1, (homeless h hk).2.2]
  | some k =>
    have hw := hi.joined ((join_mem_iff h).mp hj) k (shardFor_lt hk)
    obtain ⟨hsent, hbegun⟩ := balance h hk
    rw [hi.emptied k hw] at hsent
    rw [hw] at hbegun
    simpa [Worker.current, hbegun] using hsent.symm

end Returned

section Once

theorem Producer.sent_add_dropped_le (p : Producer) : p.sent + p.dropped ≤ 1 := by
  cases p with
  | unlocking sent => cases sent <;> decide
  | returned sent => cases sent <;> decide
  | _ => decide

theorem written_le (h : Trace (recorder cfg entry) tr s) (i : ι) :
    written i tr ≤ begun i tr ∧ begun i tr ≤ enqueued i tr := by
  cases hk : shardFor cfg.shards (entry i) with
  | none =>
    obtain ⟨h1, h2, h3⟩ := homeless h hk
    omega
  | some k =>
    obtain ⟨h1, h2⟩ := balance h hk
    omega

/-- A call that returned enqueued its entry or dropped it, once, and not both. -/
theorem outcome_of_ret (h : Trace (recorder cfg entry) tr s) (hr : .ret i ∈ tr) :
    (enqueued i tr = 1 ∧ dropped i tr = 0) ∨ (enqueued i tr = 0 ∧ dropped i tr = 1) := by
  have ht := told h i
  obtain ⟨sent, hp⟩ := ht.returned.mp hr
  rw [ht.enqueued, ht.dropped, hp]
  cases sent with
  | true => exact .inl ⟨rfl, rfl⟩
  | false => exact .inr ⟨rfl, rfl⟩

end Once

section Order

variable (h : Trace (recorder cfg entry) tr s)
include h

theorem not_called_before (hc : .call j :: r <:+ tr) : .call j ∉ r := by
  obtain ⟨s₀, s₁, h₀, hst⟩ := h.at_label hc
  have hidle : s₀.producers j = .idle := by cases hst <;> assumption
  exact fun hm => (told h₀ j).called.mp hm hidle

theorem suffix_of_called (hc : .call j :: r <:+ tr)
    (hr : r' <:+ tr) (hmem : .call j ∈ r') : r <:+ r' := by
  rcases suffix_or_suffix_of_suffix hc hr with hs | hs
  · exact (suffix_cons _ r).trans hs
  · rcases suffix_cons_iff.mp hs with rfl | hs
    · exact suffix_cons _ r
    · exact absurd (hs.subset hmem) (not_called_before h hc)

theorem called_of_sent (hs : .send i k ∈ tr) : .call i ∈ tr := by
  have ht := told h i
  refine ht.called.mpr fun hp => ?_
  have hzero : enqueued i tr = 0 := by rw [ht.enqueued, hp]; rfl
  exact countP_eq_zero.mp hzero _ hs (by simp [Label.sent])

theorem enqueued_of_ret (hr : r <:+ tr) (hret : .ret i ∈ r) : enqueued i tr = enqueued i r := by
  induction h with
  | init => rw [suffix_nil.mp hr]
  | @step tr s s' l h hst ih =>
    rcases suffix_cons_iff.mp hr with rfl | hr
    · rfl
    · have ht := told h i
      obtain ⟨sent, hp⟩ := ht.returned.mp (hr.subset hret)
      rcases hst.own i with ⟨-, hl⟩ | ho
      · rw [(ht.other hl).enqueued, ← ht.enqueued, ih hr]
      · rw [hp] at ho
        cases ho

theorem sent_of_enqueued (hk : shardFor cfg.shards (entry i) = some k) (he : enqueued i tr = 1) :
    i ∈ moved Label.sent k tr := by
  rw [enqueued, times_of_home hk fun _ => shardFor_of_sent h] at he
  exact count_pos_iff.mp (by omega)

theorem sent_at_receive (hst : Step cfg entry s (.receive k j) s') :
    ∃ q, moved Label.sent k tr = q ++ j :: moved Label.finished k tr := by
  have hacc := accounts h k
  have hsent := hacc.sent
  rw [hacc.received] at hsent
  cases hst with
  | @receive _ _ q hw hq | @flush _ _ q hw hq =>
    refine ⟨q.reverse, ?_⟩
    rw [hsent, hq, hw]
    simp [Worker.current]

/-- Entries of one model are written in the order of their calls. -/
theorem finished_before (hij : entry i = entry j)
    (hc : .call j :: r <:+ tr) (hret : .ret i ∈ r) (he : enqueued i tr = 1)
    (hr' : .receive k j :: r' <:+ tr) : .finish k i ∈ r' := by
  obtain ⟨s₁, s₂, h₁, hst⟩ := h.at_label hr'
  obtain ⟨s₀, h₀⟩ := h.of_suffix ((suffix_cons _ r).trans hc)
  obtain ⟨q, hq⟩ := sent_at_receive h₁ hst
  have hjsent : j ∈ moved Label.sent k r' := by simp [hq]
  have hk : shardFor cfg.shards (entry i) = some k := hij ▸ shardFor_of_sent h₁ hjsent
  -- what was sent when `j` was called is the earlier part of what was sent at its write
  have hsuf : r <:+ r' := by
    obtain ⟨l, hl, hs⟩ := mem_moved.mp hjsent
    cases l <;> cases hs
    exact suffix_of_called h hc ((suffix_cons _ r').trans hr') (called_of_sent h₁ hl)
  have hi : i ∈ moved Label.sent k r := by
    have hrtr : r <:+ tr := (suffix_cons _ r).trans hc
    exact sent_of_enqueued h₀ hk (enqueued_of_ret h hrtr hret ▸ he)
  have hj : j ∉ moved Label.sent k r := by
    intro hm
    obtain ⟨l, hl, hs⟩ := mem_moved.mp hm
    cases l <;> cases hs
    exact not_called_before h hc (called_of_sent h₀ hl)
  obtain ⟨p, hp⟩ : moved Label.sent k r <:+ q ++ j :: moved Label.finished k r' := by
    rw [← hq]
    exact hsuf.filterMap _
  have hfin : i ∈ moved Label.finished k r' := by
    rcases append_eq_append_iff.mp hp with ⟨m, rfl, hm⟩ | ⟨m, rfl, hm⟩
    · exact absurd (by simp [hm]) hj
    · cases m with
      | nil =>
        rw [nil_append] at hm
        exact absurd (by simp [← hm]) hj
      | cons x m =>
        obtain ⟨-, hm⟩ := List.cons.inj hm
        exact hm ▸ mem_append_right m hi
  obtain ⟨l, hl, hf⟩ := mem_moved.mp hfin
  cases l <;> cases hf
  exact hl

theorem eq_of_writing (hij : entry i = entry j)
    (hi : written i tr < begun i tr) (hj : written j tr < begun j tr) : i = j := by
  cases hk : shardFor cfg.shards (entry i) with
  | none =>
    obtain ⟨-, h2, h3⟩ := homeless h hk
    omega
  | some k =>
    have hbi := (balance h hk).2
    have hbj := (balance h (hij ▸ hk)).2
    have hmi : i ∈ (s.workers k).current := count_pos_iff.mp (by omega)
    have hmj : j ∈ (s.workers k).current := count_pos_iff.mp (by omega)
    cases hw : s.workers k <;> rw [hw] at hmi hmj <;> simp_all [Worker.current]

theorem enqueued_after_join (hc : .call j :: r <:+ tr) (hj : .join ∈ r) : enqueued j tr = 0 := by
  refine countP_eq_zero.mpr fun l hl hs => ?_
  cases l with
  | send j' k =>
    obtain rfl : j' = j := by simpa [Label.sent] using hs
    obtain ⟨p, r₁, rfl⟩ := append_of_mem hl
    obtain ⟨s₁, s₂, h₁, hst⟩ := h.at_label (suffix_append p _)
    have hsending : s₁.producers j' = .sending := by cases hst; assumption
    have hcall : .call j' ∈ r₁ := (told h₁ j').called.mpr (by simp [hsending])
    have hsuf := suffix_of_called h hc
      ((suffix_cons _ r₁).trans (suffix_append p _)) hcall
    exact (inv_of_trace h₁).not_sending (closing_of_join h₁ (hsuf.subset hj)) j' hsending
  | _ => simp [Label.sent] at hs

end Order

section Progress

/-- The call has not begun, or is over. -/
def Producer.ended : Producer → Bool
  | .idle | .returned _ | .panicked => true
  | _ => false

/-- Every party is done. -/
structure Finished (cfg : AsyncConfig) (s : State ι) : Prop where
  producers : ∀ i, (s.producers i).ended = true
  coordinator : s.coordinator = .finished
  workers : ∀ k < cfg.shards, s.workers k = .returned
  starter : s.starter = .returned

/-- The label is a new call or the cancellation, which the recorder does not do itself. -/
def Label.outside : Label ι → Bool
  | .call _ | .cancel => true
  | _ => false

/-- A party of the recorder can move. -/
def Moves (cfg : AsyncConfig) (entry : ι → Model) (s : State ι) : Prop :=
  ∃ l s', l.outside = false ∧ Step cfg entry s l s'

theorem Step.moves (h : Step cfg entry s l s') (hl : l.outside = false) : Moves cfg entry s :=
  ⟨l, s', hl, h⟩

theorem shardFor_of_begun (h : Trace (recorder cfg entry) tr s) (i : ι) :
    (s.producers i).ended = true ∨ ∃ k, shardFor cfg.shards (entry i) = some k := by
  cases hk : shardFor cfg.shards (entry i) with
  | some k => exact .inr ⟨k, rfl⟩
  | none =>
    refine .inl (h.invariant (I := fun _ s => (s.producers i).ended = true) ?_ ?_)
    · rintro s rfl
      rfl
    · intro tr s l s' _ hst ih
      rcases hst.own i with ⟨hp, -⟩ | ho
      · rwa [hp]
      · generalize hp : s.producers i = p at ho ih
        generalize hp' : s'.producers i = p' at ho ⊢
        cases ho with
        | call =>
          cases hst with
          | call _ hk' => simp [hk] at hk'
          | panic _ _ => simp [State.setProducer] at hp'
        | panic => rfl
        | _ => simp [Producer.ended] at ih

theorem moves_of_producer (hk : shardFor cfg.shards (entry i) = some k)
    (hp : (s.producers i).ended = false) (hd : s.done = true)
    (hw : s.producers i = .called → s.coordinator.writes = false) : Moves cfg entry s := by
  cases hpi : s.producers i with
  | idle | returned _ | panicked => simp [hpi, Producer.ended] at hp
  | called => exact (Step.rlock hpi (hw hpi)).moves rfl
  | checking =>
    cases hc : s.closing with
    | true => exact (Step.refused hpi hc).moves rfl
    | false => exact (Step.admitted hpi hc).moves rfl
  | sending =>
    cases hb : cfg.blockOnFull with
    | true => exact (Step.done hpi hb hd).moves rfl
    | false =>
      by_cases hq : (s.queues k).length < cfg.capacity
      · exact (Step.send hpi hk hq).moves rfl
      · exact (Step.full hpi hb hk (Nat.not_lt.mp hq)).moves rfl
  | dropping => exact (Step.drop hpi).moves rfl
  | unlocking _ => exact (Step.ret hpi).moves rfl

theorem moves_of_worker (hc : s.canceled = true) (hd : s.drainReady = true)
    (hidle : s.workers k ≠ .idle) (hret : s.workers k ≠ .returned) : Moves cfg entry s := by
  cases hw : s.workers k with
  | idle => exact absurd hw hidle
  | select => exact (Step.stop hw hc).moves rfl
  | writing i => exact (Step.finish hw).moves rfl
  | waiting => exact (Step.ready hw hd).moves rfl
  | draining =>
    cases hq : s.queues k with
    | nil => exact (Step.exit hw hq).moves rfl
    | cons i q => exact (Step.flush hw hq).moves rfl
  | flushing i => exact (Step.flushed hw).moves rfl
  | returned => exact absurd hw hret

/-- After the cancellation there is no deadlock. -/
theorem moves_of_canceled (h : Trace (recorder cfg entry) tr s) (hc : s.canceled = true)
    (hf : ¬ Finished cfg s) : Moves cfg entry s := by
  have hi := inv_of_trace h
  have hproducer {i : ι} (hp : (s.producers i).ended = false) (hd : s.done = true)
      (hw : s.producers i = .called → s.coordinator.writes = false) : Moves cfg entry s := by
    obtain ⟨k, hk⟩ := (shardFor_of_begun h i).resolve_left (by simp [hp])
    exact moves_of_producer hk hp hd hw
  cases hco : s.coordinator with
  | idle => exact (Step.start (hi.starter.mpr hco)).moves rfl
  | waiting => exact (Step.closeDone hco hc).moves rfl
  | closed => exact (Step.lock hco).moves rfl
  | locking =>
    -- the calls that hold the read lock do not wait for anyone
    by_cases hall : ∀ i, (s.producers i).holds = false
    · exact (Step.locked hco hall).moves rfl
    · obtain ⟨i, hholds⟩ := not_forall.mp hall
      refine hproducer (i := i) ?_ (hi.done.mpr (by simp [hco])) fun hp => ?_
      · cases hp : s.producers i <;> simp [hp, holds] at hholds <;> rfl
      · simp [hp, holds] at hholds
  | locked => exact (Step.mark hco).moves rfl
  | marked => exact (Step.unlock hco).moves rfl
  | unlocked => exact (Step.closeDrain hco).moves rfl
  | finished =>
    have hstarted : s.starter ≠ .idle := fun hs => by simp [hi.starter.mp hs] at hco
    by_cases hworkers : ∀ k < cfg.shards, s.workers k = .returned
    · cases hs : s.starter with
      | idle => exact absurd hs hstarted
      | waiting => exact (Step.join hs hworkers).moves rfl
      | returned =>
        obtain ⟨i, hp⟩ : ∃ i, ¬ (s.producers i).ended = true := by
          by_contra hall
          exact hf ⟨by simpa using hall, hco, hworkers, hs⟩
        refine hproducer (i := i) (by simpa using hp) (hi.done.mpr (by simp [hco])) fun _ => ?_
        rw [hco]
        rfl
    · push Not at hworkers
      obtain ⟨k, hk, hret⟩ := hworkers
      exact moves_of_worker hc (hi.drainReady.mpr hco) (hi.workers_started hstarted k hk) hret

end Progress

section Bound
open Finset

/-- How many steps a party still has, at most; an entry in a queue stands for the two steps
of its write. -/
def Producer.rank : Producer → Nat
  | .idle | .returned _ | .panicked => 0
  | .called => 6
  | .checking => 5
  | .sending => 4
  | .dropping => 2
  | .unlocking _ => 1

def Worker.rank : Worker ι → Nat
  | .idle | .select => 3
  | .writing _ => 4
  | .waiting => 2
  | .draining => 1
  | .flushing _ => 2
  | .returned => 0

def Coordinator.rank : Coordinator → Nat
  | .idle | .waiting => 6
  | .closed => 5
  | .locking => 4
  | .locked => 3
  | .marked => 2
  | .unlocked => 1
  | .finished => 0

def Starter.rank : Starter → Nat
  | .idle => 2
  | .waiting => 1
  | .returned => 0

/-- The steps that are left when the calls of `P` have been made. -/
def State.rank (cfg : AsyncConfig) (P : Finset ι) (s : State ι) : Nat :=
  ∑ i ∈ P, (s.producers i).rank +
    ∑ k ∈ range cfg.shards, (2 * (s.queues k).length + (s.workers k).rank) +
    s.coordinator.rank + s.starter.rank + (!s.canceled).toNat

theorem sum_move {α : Type} [DecidableEq α] {P : Finset α} {f g : α → Nat} {a : α} (ha : a ∈ P)
    (h : ∀ x, x ≠ a → g x = f x) : ∑ x ∈ P, g x + f a = ∑ x ∈ P, f x + g a := by
  have hrest : ∑ x ∈ P.erase a, g x = ∑ x ∈ P.erase a, f x :=
    sum_congr rfl fun x hx => h x (ne_of_mem_erase hx)
  rw [← add_sum_erase P g ha, ← add_sum_erase P f ha, hrest]
  omega

variable {P : Finset ι} {p : Producer} {w : Worker ι}

theorem rank_setProducer (hi : i ∈ P) :
    (s.setProducer i p).rank cfg P + (s.producers i).rank = s.rank cfg P + p.rank := by
  have hsum := sum_move (f := fun x => (s.producers x).rank)
    (g := fun x => ((s.setProducer i p).producers x).rank) hi
    fun x hx => by simp [State.setProducer, update_of_ne hx]
  simp only [State.setProducer, update_self] at hsum
  simp only [State.rank, State.setProducer]
  omega

omit [DecidableEq ι] in
theorem rank_setWorker (hk : k < cfg.shards) :
    (s.setWorker k w).rank cfg P + (s.workers k).rank = s.rank cfg P + w.rank := by
  have hsum := sum_move (f := fun x => 2 * (s.queues x).length + (s.workers x).rank)
    (g := fun x => 2 * (s.queues x).length + ((s.setWorker k w).workers x).rank)
    (Finset.mem_range.mpr hk) fun x hx => by simp [State.setWorker, update_of_ne hx]
  simp only [State.setWorker, update_self] at hsum
  simp only [State.rank, State.setWorker]
  omega

omit [DecidableEq ι] in
theorem rank_setQueue {q : List ι} (hk : k < cfg.shards) :
    (s.setQueue k q).rank cfg P + 2 * (s.queues k).length = s.rank cfg P + 2 * q.length := by
  have hsum := sum_move (f := fun x => 2 * (s.queues x).length + (s.workers x).rank)
    (g := fun x => 2 * ((s.setQueue k q).queues x).length + (s.workers x).rank)
    (Finset.mem_range.mpr hk) fun x hx => by simp [State.setQueue, update_of_ne hx]
  simp only [State.setQueue, update_self] at hsum
  simp only [State.rank, State.setQueue]
  omega

theorem rank_setProducer_lt (hi : i ∈ P) (hlt : p.rank < (s.producers i).rank) :
    (s.setProducer i p).rank cfg P < s.rank cfg P := by
  have heq : (s.setProducer i p).rank cfg P + _ = _ := rank_setProducer hi
  omega

theorem rank_send_lt (hi : i ∈ P) (hk : k < cfg.shards) (hp : s.producers i = .sending) :
    ((s.setProducer i (.unlocking true)).setQueue k (s.queues k ++ [i])).rank cfg P <
      s.rank cfg P := by
  have heq : (s.setProducer i (.unlocking true)).rank cfg P + _ = _ := rank_setProducer hi
  have heq' := rank_setQueue (s := s.setProducer i (.unlocking true)) (P := P)
    (q := s.queues k ++ [i]) hk
  simp only [State.setProducer, hp, Producer.rank, length_append, length_singleton]
    at heq heq' ⊢
  omega

omit [DecidableEq ι] in
theorem rank_setWorker_lt (hk : k < cfg.shards)
    (hlt : w.rank < (s.workers k).rank) : (s.setWorker k w).rank cfg P < s.rank cfg P := by
  have heq := rank_setWorker (s := s) (P := P) (w := w) hk
  omega

omit [DecidableEq ι] in
theorem rank_receive_lt {q : List ι} (hk : k < cfg.shards)
    (hq : s.queues k = i :: q) (hlt : w.rank < (s.workers k).rank + 2) :
    ((s.setWorker k w).setQueue k q).rank cfg P < s.rank cfg P := by
  have heq := rank_setWorker (s := s) (P := P) (w := w) hk
  have heq' := rank_setQueue (s := s.setWorker k w) (P := P) (q := q) hk
  simp only [State.setWorker, hq, length_cons] at heq heq' ⊢
  omega

theorem Step.rank_lt (h : Step cfg entry s l s') (hi : Inv cfg s)
    (hP : ∀ i ∉ P, s.producers i = .idle) (hl : ∀ i, l ≠ .call i) :
    s'.rank cfg P < s.rank cfg P := by
  have hmem {i : ι} (hp : s.producers i ≠ .idle) : i ∈ P := by
    by_contra hi
    exact hp (hP i hi)
  have hproducer {i : ι} {p : Producer} (hp : s.producers i ≠ .idle)
      (hlt : p.rank < (s.producers i).rank) : (s.setProducer i p).rank cfg P < s.rank cfg P :=
    rank_setProducer_lt (hmem hp) hlt
  have hworker {k : Nat} {w : Worker ι} (hw : s.workers k ≠ .idle)
      (hlt : w.rank < (s.workers k).rank) : (s.setWorker k w).rank cfg P < s.rank cfg P :=
    rank_setWorker_lt (hi.shard_lt hw) hlt
  cases h with
  | call | panic => exact absurd rfl (hl _)
  | rlock hp _ => exact hproducer (by simp [hp]) (by simp [hp, Producer.rank])
  | refused hp _ => exact hproducer (by simp [hp]) (by simp [hp, Producer.rank])
  | admitted hp _ => exact hproducer (by simp [hp]) (by simp [hp, Producer.rank])
  | done hp _ _ => exact hproducer (by simp [hp]) (by simp [hp, Producer.rank])
  | full hp _ _ _ => exact hproducer (by simp [hp]) (by simp [hp, Producer.rank])
  | drop hp => exact hproducer (by simp [hp]) (by simp [hp, Producer.rank])
  | ret hp => exact hproducer (by simp [hp]) (by simp [hp, Producer.rank])
  | send hp hk _ => exact rank_send_lt (hmem (by simp [hp])) (shardFor_lt hk) hp
  | start hs =>
    have hsum : ∑ k ∈ range cfg.shards, (2 * (s.queues k).length +
          (if k < cfg.shards then Worker.select else Worker.idle : Worker ι).rank) =
        ∑ k ∈ range cfg.shards, (2 * (s.queues k).length + (s.workers k).rank) := by
      refine sum_congr rfl fun k hk => ?_
      rw [hi.workers_idle hs k, if_pos (Finset.mem_range.mp hk)]
      rfl
    simp only [State.rank, hs, hi.starter.mp hs, Starter.rank, Coordinator.rank]
    omega
  | join hs _ =>
    simp only [State.rank, hs, Starter.rank]
    omega
  | cancel hc => simp [State.rank, hc]
  | closeDone hc _ | lock hc | locked hc _ | mark hc | unlock hc | closeDrain hc =>
    simp only [State.rank, hc, Coordinator.rank]
    omega
  | receive hw hq =>
    exact rank_receive_lt (hi.shard_lt (by simp [hw])) hq (by simp [hw, Worker.rank])
  | flush hw hq =>
    exact rank_receive_lt (hi.shard_lt (by simp [hw])) hq (by simp [hw, Worker.rank])
  | finish hw => exact hworker (by simp [hw]) (by simp [hw, Worker.rank])
  | flushed hw => exact hworker (by simp [hw]) (by simp [hw, Worker.rank])
  | stop hw _ => exact hworker (by simp [hw]) (by simp [hw, Worker.rank])
  | ready hw _ => exact hworker (by simp [hw]) (by simp [hw, Worker.rank])
  | exit hw _ => exact hworker (by simp [hw]) (by simp [hw, Worker.rank])

def Label.isCall : Label ι → Bool
  | .call _ => true
  | _ => false

/-- `P` has the calls made so far, and the run has used up the steps that are not left. -/
structure Spent (cfg : AsyncConfig) (P : Finset ι) (tr : List (Label ι)) (s : State ι) : Prop where
  idle : ∀ i ∉ P, s.producers i = .idle
  length : tr.length + s.rank cfg P ≤ 7 * tr.countP Label.isCall + (3 * cfg.shards + 9)

omit [DecidableEq ι] in
theorem Spent.new : Spent cfg ∅ [] (State.new : State ι) := by
  refine ⟨fun i _ => rfl, ?_⟩
  simp [State.rank, State.new, Worker.rank, Coordinator.rank, Starter.rank]
  omega

theorem Spent.call (h : Spent cfg P tr s) (hp : s.producers i = .idle)
    (hrank : p.rank ≤ 6) : Spent cfg (insert i P) (.call i :: tr) (s.setProducer i p) := by
  refine ⟨fun j hj => ?_, ?_⟩
  · rw [mem_insert, not_or] at hj
    simpa [State.setProducer, update_of_ne hj.1] using h.idle j hj.2
  · have heq : (s.setProducer i p).rank cfg (insert i P) + _ = _ :=
      rank_setProducer (mem_insert_self i P)
    have hins : s.rank cfg (insert i P) = s.rank cfg P := by
      simp only [State.rank]
      rw [sum_insert_zero (by simp [hp, Producer.rank])]
    have hlen := h.length
    rw [countP_cons_of_pos rfl, length_cons]
    omega

theorem Spent.step (h : Spent cfg P tr s) (hi : Inv cfg s) (hst : Step cfg entry s l s') :
    ∃ P, Spent cfg P (l :: tr) s' := by
  by_cases hl : ∀ i, l ≠ .call i
  · have hlt := hst.rank_lt hi h.idle hl
    have hlen := h.length
    have hcount : (l :: tr).countP Label.isCall = tr.countP Label.isCall := by
      refine countP_cons_of_neg ?_
      cases l with
      | call i => exact absurd rfl (hl i)
      | _ => simp [Label.isCall]
    refine ⟨P, fun i hi => ?_, by rw [hcount, length_cons]; omega⟩
    rcases hst.own i with ⟨hp, hown⟩ | ho
    · rw [hp]
      exact h.idle i hi
    · rw [h.idle i hi] at ho
      generalize s'.producers i = p at ho ⊢
      cases ho <;> exact absurd rfl (hl i)
  · push Not at hl
    obtain ⟨i, rfl⟩ := hl
    cases hst with
    | call hp _ => exact ⟨_, h.call hp (by decide)⟩
    | panic hp _ => exact ⟨_, h.call hp (by decide)⟩

theorem length_le (h : Trace (recorder cfg entry) tr s) :
    tr.length ≤ 7 * tr.countP Label.isCall + (3 * cfg.shards + 9) := by
  obtain ⟨P, hP⟩ : ∃ P, Spent cfg P tr s := by
    refine h.invariant (I := fun tr s => ∃ P, Spent cfg P tr s) ?_ ?_
    · rintro s rfl
      exact ⟨∅, .new⟩
    · rintro tr s l s' h hst ⟨P, hP⟩
      exact hP.step (inv_of_trace h) hst
  exact le_trans (Nat.le_add_right _ _) hP.length

end Bound

/-- Whatever the interleaving, an entry is enqueued or dropped once and written at most once,
and it is written when `Start` has returned; a later call drops. Entries of one model are
written one at a time, in the order of calls that did not overlap. After the cancellation some
party can move until all are done, and a run that makes no more calls comes to an end. -/
theorem nothing_lost_or_duplicated (h : Trace (recorder cfg entry) tr s) :
    (∀ i, (.ret i ∈ tr →
          (enqueued i tr = 1 ∧ dropped i tr = 0) ∨ (enqueued i tr = 0 ∧ dropped i tr = 1)) ∧
        written i tr ≤ begun i tr ∧ begun i tr ≤ enqueued i tr ∧
        enqueued i tr + dropped i tr ≤ 1 ∧ (.join ∈ tr → written i tr = enqueued i tr)) ∧
      (∀ j r, .call j :: r <:+ tr → .join ∈ r →
        enqueued j tr = 0 ∧ (.ret j ∈ tr → dropped j tr = 1)) ∧
      (∀ i j, entry i = entry j →
        (∀ r r' k, .call j :: r <:+ tr → .ret i ∈ r → enqueued i tr = 1 →
          .receive k j :: r' <:+ tr → .finish k i ∈ r') ∧
        (written i tr < begun i tr → written j tr < begun j tr → i = j)) ∧
      (s.canceled = true → ¬ Finished cfg s → Moves cfg entry s) ∧
      tr.length ≤ 7 * tr.countP Label.isCall + (3 * cfg.shards + 9) := by
  refine ⟨fun i => ⟨outcome_of_ret h, (written_le h i).1, (written_le h i).2, ?_,
    fun hj => written_of_join h hj i⟩, fun j r hc hj => ⟨enqueued_after_join h hc hj, fun hr => ?_⟩,
    fun i j hij => ⟨fun r r' k hc hret he hr' => finished_before h hij hc hret he hr',
      eq_of_writing h hij⟩, moves_of_canceled h, length_le h⟩
  · rw [(told h i).enqueued, (told h i).dropped]
    exact sent_add_dropped_le _
  · have hzero := enqueued_after_join h hc hj
    rcases outcome_of_ret h hr with ⟨hone, -⟩ | ⟨-, hone⟩
    · omega
    · exact hone

section Life

/-- One shard. -/
def lifeConfig : AsyncConfig := ⟨1, 2, true⟩

def lifeEntry (_ : Fin 3) : Model := ⟨"user", "7"⟩

theorem shardFor_one (m : Model) : shardFor 1 m = some 0 := by
  have hone : (UInt32.ofNat 1).toNat = 1 := rfl
  unfold shardFor
  rw [if_neg (by decide), UInt32.toNat_mod, hone, Nat.mod_one]

theorem returned_of_only {workers : Nat → Worker (Fin 3)} (h : workers 0 = .returned) :
    ∀ k < lifeConfig.shards, workers k = .returned := by
  intro k hk
  have hzero : k = 0 := Nat.lt_one_iff.mp hk
  rw [hzero, h]

/-- A call before `Start` and one during it, a cancellation, and a call after `Start` has
returned. -/
def life : List (Label (Fin 3)) :=
  [.ret 2, .drop 2, .check 2, .rlock 2, .call 2, .join, .exit 0, .finish 0 1, .receive 0 1,
    .ready 0, .closeDrain, .unlock, .mark, .locked, .lock, .closeDone, .stop 0, .cancel,
    .finish 0 0, .ret 1, .send 1 0, .check 1, .rlock 1, .call 1, .receive 0 0, .start, .ret 0,
    .send 0 0, .check 0, .rlock 0, .call 0]

theorem life_trace : ∃ s, Trace (recorder lifeConfig lifeEntry) life s := by
  have h := Trace.init (M := recorder lifeConfig lifeEntry) rfl
  replace h := h.step (Step.call (i := 0) rfl (shardFor_one _))
  replace h := h.step (Step.rlock (i := 0) rfl rfl)
  replace h := h.step (Step.admitted (i := 0) rfl rfl)
  replace h := h.step (Step.send (i := 0) rfl (shardFor_one _) (by decide))
  replace h := h.step (Step.ret (i := 0) rfl)
  replace h := h.step (Step.start rfl)
  replace h := h.step (Step.receive (k := 0) rfl rfl)
  replace h := h.step (Step.call (i := 1) rfl (shardFor_one _))
  replace h := h.step (Step.rlock (i := 1) rfl rfl)
  replace h := h.step (Step.admitted (i := 1) rfl rfl)
  replace h := h.step (Step.send (i := 1) rfl (shardFor_one _) (by decide))
  replace h := h.step (Step.ret (i := 1) rfl)
  replace h := h.step (Step.finish (k := 0) rfl)
  replace h := h.step (Step.cancel rfl)
  replace h := h.step (Step.stop (k := 0) rfl rfl)
  replace h := h.step (Step.closeDone rfl rfl)
  replace h := h.step (Step.lock rfl)
  replace h := h.step (Step.locked rfl (by decide))
  replace h := h.step (Step.mark rfl)
  replace h := h.step (Step.unlock rfl)
  replace h := h.step (Step.closeDrain rfl)
  replace h := h.step (Step.ready (k := 0) rfl rfl)
  replace h := h.step (Step.flush (k := 0) rfl rfl)
  replace h := h.step (Step.flushed (k := 0) rfl)
  replace h := h.step (Step.exit (k := 0) rfl rfl)
  replace h := h.step (Step.join rfl (returned_of_only rfl))
  replace h := h.step (Step.call (i := 2) rfl (shardFor_one _))
  replace h := h.step (Step.rlock (i := 2) rfl rfl)
  replace h := h.step (Step.refused (i := 2) rfl rfl)
  replace h := h.step (Step.drop (i := 2) rfl)
  replace h := h.step (Step.ret (i := 2) rfl)
  exact ⟨_, h⟩

theorem nothing_lost_or_duplicated_life :
    (∃ s, Trace (recorder lifeConfig lifeEntry) life s) ∧ written 0 life = 1 ∧
      written 1 life = 1 ∧ dropped 2 life = 1 ∧ .finish 0 0 ∈ life.drop 9 := by
  obtain ⟨s, h⟩ := life_trace
  obtain ⟨hone, hlate, horder, -, -⟩ := nothing_lost_or_duplicated h
  have hjoin : .join ∈ life := by decide
  refine ⟨⟨s, h⟩, ?_, ?_, ?_, ?_⟩
  · rw [(hone 0).2.2.2.2 hjoin]
    decide
  · rw [(hone 1).2.2.2.2 hjoin]
    decide
  · exact (hlate 2 (life.drop 5) (drop_suffix 4 life) (by decide)).2 (by decide)
  · exact (horder 0 1 rfl).1 (life.drop 24) (life.drop 9) 0 (drop_suffix 23 life) (by decide)
      (by decide) (drop_suffix 8 life)

end Life

end Skit.Auditlog.Async
