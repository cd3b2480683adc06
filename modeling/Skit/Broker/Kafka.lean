import Skit.Broker.Message
import Skit.Lib.Loop
import Skit.Lib.Suffix

/-!
# The Kafka consumer

Each reader of a consumer runs `consume`: it fetches a record, handles it and commits
its offset. The retries of `handle` are bounded, the loop of `consume` is not. Nothing
is assumed of the answers of the calls: a fetch may return a record on a canceled
context, and a commit counts whether or not it returns an error.

A commit covers every earlier offset of its partition. The results say when each
record that a commit covers has reached a terminal state.
-/
namespace Skit.Broker.Kafka
open Lib List

/-- `maxRetries` bounds the retries of one record in place. -/
def maxRetries : Nat := 5

/-- A record as `kafka-go` delivers it. -/
structure Record where
  topic : String
  partition : Int
  offset : Int
  value : List UInt8
  headers : List (String × String)
  deriving DecidableEq

/-- The calls of a reader. `wait` is the wait before a retry; it answers whether the
context was done first. -/
inductive Call
  | fetchMessage
  | ctxErr
  | dispatch (m : Message)
  | wait
  | commitMessages (msg : Record)
  deriving DecidableEq

abbrev Ans : Call → Type
  | .fetchMessage => Except Err Record
  | .ctxErr => Bool
  | .dispatch _ => Verdict
  | .wait => Bool
  | .commitMessages _ => Option Err

/-- The call `o`, returning its answer. -/
abbrev ask (o : Call) : Prog Call Ans (Ans o) := Prog.ask o

def headers (hs : List (String × String)) : Headers :=
  hs.foldl (fun out h => out.put h.1 h.2) []

def delivery (msg : Record) : Delivery := ⟨msg.value, headers msg.headers, msg.topic⟩

/-- An error is logged unless the context is done. -/
def commit (msg : Record) : Prog Call Ans Unit := do
  let err ← ask (Call.commitMessages msg)
  if Option.isSome err then
    let _ ← ask Call.ctxErr
  return ()

/-- The attempts of `handle`, of which `left` may still be retried. -/
def attempts (msg : Record) (m : Message) (left : Nat) : Prog Call Ans Unit := do
  let verdict ← ask (Call.dispatch m)
  if guard verdict = .requeue then
    match left with
    | 0 => commit msg
    | left + 1 =>
      if ← ask Call.wait then
        return () -- shutdown: leave uncommitted
      else
        attempts msg m left
  else
    commit msg

/-- `handle` commits a record that the envelope rejects. -/
def handle (env : Unmarshal) (msg : Record) : Prog Call Ans Unit :=
  match decode env (delivery msg) with
  | .error _ => commit msg
  | .ok m => attempts msg m maxRetries

/-- One round of `consume`; the result says whether to go on. -/
def consume (env : Unmarshal) : Prog Call Ans Bool := do
  match ← ask Call.fetchMessage with
  | Except.error err =>
    let done ← ask Call.ctxErr
    return !(done || err.is "context canceled" || err.is "EOF")
  | Except.ok msg =>
    handle env msg
    return true

section Deliveries

abbrev Ev := Event Int Call Ans

/-- The action a dispatch ended with. -/
def verdict : Ev → Option Action
  | ⟨_, .dispatch _, v⟩ => some (guard v)
  | _ => none

/-- The wait before a retry was cut short. -/
def isCut : Ev → Bool
  | ⟨_, .wait, done⟩ => done
  | _ => false

/-- `seg` follows a fetch of `msg` in `h`, with no other fetch in it. -/
def Delivered (msg : Record) (seg h : List Ev) : Prop :=
  (∃ t r, seg ++ ⟨t, .fetchMessage, .ok msg⟩ :: r <:+ h) ∧ ∀ ev ∈ seg, ev.op ≠ .fetchMessage

/-- The envelope rejects the record, its handling ended with an action other than
`requeue`, or its retries were exhausted. -/
def Finished (env : Unmarshal) (msg : Record) (seg : List Ev) : Prop :=
  (∃ err, decode env (delivery msg) = .error err) ∨
  (∃ ev ∈ seg, ∃ action, verdict ev = some action ∧ action ≠ .requeue) ∨
  maxRetries < seg.countP (verdict · = some .requeue)

/-- A delivery of the record has reached a terminal state. -/
def Terminal (env : Unmarshal) (msg : Record) (h : List Ev) : Prop :=
  ∃ seg, Delivered msg seg h ∧ Finished env msg seg

/-- A delivery of the record was given up while it waited for a retry. -/
def Abandoned (msg : Record) (h : List Ev) : Prop :=
  ∃ seg, Delivered msg seg h ∧ ∃ ev ∈ seg, isCut ev = true

variable {env : Unmarshal} {msg : Record} {seg h h' : List Ev}

theorem Delivered.mono (hd : Delivered msg seg h) (hs : h <:+ h') : Delivered msg seg h' := by
  obtain ⟨⟨t, r, hr⟩, hq⟩ := hd
  exact ⟨⟨t, r, hr.trans hs⟩, hq⟩

theorem Terminal.mono (ht : Terminal env msg h) (hs : h <:+ h') : Terminal env msg h' := by
  obtain ⟨seg, hd, hf⟩ := ht
  exact ⟨seg, hd.mono hs, hf⟩

theorem Abandoned.mono (ha : Abandoned msg h) (hs : h <:+ h') : Abandoned msg h' := by
  obtain ⟨seg, hd, hc⟩ := ha
  exact ⟨seg, hd.mono hs, hc⟩

theorem Abandoned.exists_cut (ha : Abandoned msg h) : ∃ ev ∈ h, isCut ev = true := by
  obtain ⟨seg, ⟨⟨t, r, hs⟩, -⟩, ev, hev, hc⟩ := ha
  exact ⟨ev, hs.mem (mem_append_left _ hev), hc⟩

theorem Delivered.of_fetched {b : Record} {t : Int} {X : List Ev}
    (hd : Delivered msg seg (X ++ ⟨t, .fetchMessage, .ok b⟩ :: h))
    (hX : ∀ ev ∈ X, ev.op ≠ .fetchMessage) (hne : b ≠ msg) : Delivered msg seg h := by
  obtain ⟨⟨t', r, hs⟩, hq⟩ := hd
  refine ⟨⟨t', r, ?_⟩, hq⟩
  have hr : (⟨t', .fetchMessage, .ok msg⟩ : Ev) :: r <:+ h := by
    rcases mem_or_suffix_of_append ((suffix_append _ _).trans hs) with hm | hr
    · exact absurd rfl (hX _ hm)
    · rcases suffix_cons_iff.mp hr with heq | hr
      · have hop := (List.cons.inj heq).1
        simp only [Event.mk.injEq, heq_eq_eq, Except.ok.injEq, true_and] at hop
        exact absurd hop.2.symm hne
      · exact hr
  have hno : ¬ (⟨t, .fetchMessage, .ok b⟩ : Ev) :: h <:+
      seg ++ ⟨t', .fetchMessage, .ok msg⟩ :: r := by
    intro hb
    rcases mem_or_suffix_of_append hb with hm | hb
    · exact absurd rfl (hq _ hm)
    · have := (hb.trans hr).length_le
      simp at this
  rcases suffix_or_suffix_of_suffix hs (suffix_append X _) with hh | hh
  · rcases suffix_cons_iff.mp hh with heq | hh
    · exact absurd (heq ▸ suffix_refl _) hno
    · exact hh
  · exact absurd hh hno

/-- Every record fetched so far was finished or given up. -/
def Clean (env : Unmarshal) (h : List Ev) : Prop :=
  ∀ t msg, ⟨t, .fetchMessage, .ok msg⟩ ∈ h → Terminal env msg h ∨ Abandoned msg h

/-- The reader is at the record `msg`, with `seg` since it was fetched. -/
structure Handling (env : Unmarshal) (msg : Record) (seg h : List Ev) : Prop where
  quiet : ∀ ev ∈ seg, ev.op ≠ .fetchMessage
  split : ∃ t r, h = seg ++ ⟨t, .fetchMessage, .ok msg⟩ :: r ∧ Clean env r

section

variable (hh : Handling env msg seg h)
include hh

theorem Handling.delivered : Delivered msg seg h := by
  obtain ⟨hq, t, r, rfl, -⟩ := hh
  exact ⟨⟨t, r, suffix_refl _⟩, hq⟩

theorem Handling.push (ev : Ev) (hev : ev.op ≠ .fetchMessage) :
    Handling env msg (ev :: seg) (ev :: h) := by
  obtain ⟨hq, t, r, rfl, hc⟩ := hh
  exact ⟨forall_mem_cons.mpr ⟨hev, hq⟩, t, r, rfl, hc⟩

theorem Handling.clean (ht : Terminal env msg h ∨ Abandoned msg h) : Clean env h := by
  obtain ⟨hq, t, r, rfl, hc⟩ := hh
  intro t' msg' hm
  rcases mem_append.mp hm with hm | hm
  · exact absurd rfl (hq _ hm)
  rcases mem_cons.mp hm with heq | hm
  · cases heq
    exact ht
  · have hs : r <:+ seg ++ ⟨t, .fetchMessage, .ok msg⟩ :: r :=
      (suffix_cons _ _).trans (suffix_append _ _)
    exact (hc t' msg' hm).imp (·.mono hs) (·.mono hs)

/-- A reader commits a record only at the end of its delivery. -/
def Admits (env : Unmarshal) (h : List Ev) : Call → Prop
  | .commitMessages msg => ∃ seg, Handling env msg seg h ∧ Finished env msg seg
  | _ => True

theorem wp_commit (hf : Finished env msg seg) :
    wp (Admits env) (fun _ => Clean env) (commit msg) h := by
  have hterm : Terminal env msg h := ⟨seg, hh.delivered, hf⟩
  refine ⟨⟨seg, hh, hf⟩, fun t err => ?_⟩
  have hh := hh.push ⟨t, .commitMessages msg, err⟩ nofun
  cases err with
  | none => exact hh.clean (.inl (hterm.mono (suffix_cons _ _)))
  | some err =>
    refine ⟨trivial, fun t' done => ?_⟩
    have hh := hh.push ⟨t', .ctxErr, done⟩ nofun
    exact hh.clean (.inl (hterm.mono ⟨[_, _], rfl⟩))

/-- A verdict other than `requeue` is final. -/
theorem wp_commit_of_verdict {m : Message} {v : Verdict} {t : Int} (hv : guard v ≠ .requeue) :
    wp (Admits env) (fun _ => Clean env) (commit msg) (⟨t, .dispatch m, v⟩ :: h) :=
  wp_commit (hh.push _ nofun) (.inr (.inl ⟨_, mem_cons_self, guard v, rfl, hv⟩))

theorem wp_attempts {m : Message} {left : Nat}
    (hleft : seg.countP (verdict · = some .requeue) + left = maxRetries) :
    wp (Admits env) (fun _ => Clean env) (attempts msg m left) h := by
  induction left generalizing seg h with
  | zero =>
    refine ⟨trivial, fun t v => ?_⟩
    change wp _ _ (if guard v = .requeue then commit msg else commit msg) _
    split_ifs with hv
    · refine wp_commit (hh.push _ nofun) (.inr (.inr ?_))
      rw [countP_cons_of_pos (by simp [verdict, hv])]
      omega
    · exact wp_commit_of_verdict hh hv
  | succ left ih =>
    refine ⟨trivial, fun t v => ?_⟩
    change wp _ _ (if guard v = .requeue then _ else commit msg) _
    split_ifs with hv
    · refine ⟨trivial, fun t' done => ?_⟩
      have hh := (hh.push ⟨t, .dispatch m, v⟩ nofun).push ⟨t', .wait, done⟩ nofun
      cases done with
      | true => exact hh.clean (.inr ⟨_, hh.delivered, _, mem_cons_self, rfl⟩)
      | false =>
        refine ih hh ?_
        rw [countP_cons_of_neg (by simp [verdict]),
          countP_cons_of_pos (by simp [verdict, hv])]
        omega
    · exact wp_commit_of_verdict hh hv

end

theorem wp_consume (hc : Clean env h) :
    wp (Admits env) (fun on h' => on = true → Clean env h') (consume env) h := by
  refine ⟨trivial, fun t a => ?_⟩
  cases a with
  | error err =>
    refine ⟨trivial, fun t' done _ t₀ msg hm => ?_⟩
    have hm : ⟨t₀, .fetchMessage, .ok msg⟩ ∈ h := by simpa using hm
    exact (hc t₀ msg hm).imp (·.mono ⟨[_, _], rfl⟩) (·.mono ⟨[_, _], rfl⟩)
  | ok msg =>
    have hh : Handling env msg [] (⟨t, .fetchMessage, .ok msg⟩ :: h) := ⟨by simp, t, h, rfl, hc⟩
    change wp _ _ (handle env msg >>= fun _ => pure true) _
    rw [wp_bind]
    refine wp_mono (Q := fun _ => Clean env) (fun _ _ hc _ => hc) ?_
    unfold handle
    split
    · exact wp_commit hh (.inl ⟨_, ‹_›⟩)
    · exact wp_attempts hh rfl

end Deliveries

section Readers

variable {ι : Type} [DecidableEq ι]

/-- The events of the readers of a consumer, latest first. -/
abbrev Trace (ι : Type) := List (ι × Ev)

/-- Every reader runs `consume`. -/
def Consuming (env : Unmarshal) (tr : Trace ι) : Prop :=
  ∀ i, ∃ q, Loop (consume env) (thread i tr) q

def SamePartition (a b : Record) : Prop := a.topic = b.topic ∧ a.partition = b.partition

/-- Each reader is assigned partitions of its own. -/
def DisjointReaders (tr : Trace ι) : Prop :=
  ∀ i j t t' a b, (i, ⟨t, .fetchMessage, .ok a⟩) ∈ tr → (j, ⟨t', .fetchMessage, .ok b⟩) ∈ tr →
    SamePartition a b → i = j

/-- A reader that gave up a record fetches no further record of its partition. -/
def StopsFetching (tr : Trace ι) : Prop :=
  ∀ i t a b r, (i, ⟨t, .fetchMessage, .ok b⟩) :: r <:+ tr → Abandoned a (thread i r) →
    ¬ SamePartition a b

variable {env : Unmarshal} {tr : Trace ι}

/-- At least once: at a commit every record of its partition that was fetched so far,
among them those with a smaller offset, has reached a terminal state. -/
theorem commit_covers_terminal (hrun : Consuming env tr) (hdis : DisjointReaders tr)
    (hstop : StopsFetching tr) {i j : ι} {t t' : Int} {a b : Record} {err : Option Err}
    {r : Trace ι} (hcommit : (i, ⟨t, .commitMessages b, err⟩) :: r <:+ tr)
    (hfetch : (j, ⟨t', .fetchMessage, .ok a⟩) ∈ r) (hpart : SamePartition a b) :
    Terminal env a (thread j r) := by
  obtain ⟨q, hloop⟩ := hrun i
  have hs := thread_suffix (i := i) hcommit
  rw [thread_cons_self] at hs
  obtain ⟨seg, ⟨hq, t₀, r₀, hh, hclean⟩, hf⟩ :=
    hloop.admitted (I := Clean env) (J := Admits env) (by simp [Clean]) (fun _ => wp_consume) hs
  have hr : r <:+ tr := (suffix_cons _ _).trans hcommit
  have hb : (i, ⟨t₀, .fetchMessage, .ok b⟩) ∈ r := mem_thread.mp (by simp [hh])
  obtain rfl := hdis i j t₀ t' b a (hr.mem hb) (hr.mem hfetch) ⟨hpart.1.symm, hpart.2.symm⟩
  have hmem := mem_thread.mpr hfetch
  rw [hh] at hmem
  rcases mem_append.mp hmem with hmem | hmem
  · exact absurd rfl (hq _ hmem)
  rcases mem_cons.mp hmem with heq | hmem
  · cases heq
    rw [hh]
    exact ⟨seg, ⟨⟨_, r₀, suffix_refl _⟩, hq⟩, hf⟩
  · have hsuf : (⟨t₀, .fetchMessage, .ok b⟩ : Ev) :: r₀ <:+ thread i r := by
      rw [hh]
      exact suffix_append _ _
    rcases hclean t' a hmem with hterm | habandoned
    · exact hterm.mono ((suffix_cons _ _).trans hsuf)
    · obtain ⟨r₁, hr₁, hthread⟩ := exists_suffix_of_thread hsuf
      exact absurd hpart (hstop i t₀ a b r₁ (hr₁.trans hr) (hthread ▸ habandoned))

end Readers

section Shutdown

variable {ι : Type}

/-- The records of a partition are fetched in the order of their offsets. -/
def InOrder (tr : Trace ι) : Prop :=
  tr.Pairwise fun later earlier => ∀ i j t t' a b, later = (i, ⟨t, .fetchMessage, .ok b⟩) →
    earlier = (j, ⟨t', .fetchMessage, .ok a⟩) → SamePartition a b → a.offset < b.offset

/-- The context is canceled at `instant`: from then on it has an error, and only
then a wait is cut short. -/
def CanceledAt (instant : Int) (tr : Trace ι) : Prop :=
  ∀ x ∈ tr, match x.2 with
    | ⟨t, .ctxErr, done⟩ => done = true ↔ instant ≤ t
    | ⟨t, .wait, done⟩ => done = true → instant ≤ t
    | _ => True

/-- Every body is a message. -/
def unmarshalAll (body : List UInt8) (headers : Headers) : Except Err Message :=
  .ok ⟨"", "", "", 0, "", body, "", headers⟩

def record (offset : Int) : Record := ⟨"orders", 0, offset, [], []⟩

def dispatched : Message := ⟨"", "", "", 0, "", [], "orders", []⟩

/-- The record at offset 0 waits for its retry when the context is canceled; the next
fetch returns the record at offset 1, which is acknowledged. -/
def shutdownTrace : Trace Unit :=
  [((), ⟨1, .commitMessages (record 1), none⟩),
    ((), ⟨1, .dispatch dispatched, .returned .ack⟩),
    ((), ⟨1, .fetchMessage, .ok (record 1)⟩),
    ((), ⟨1, .wait, true⟩),
    ((), ⟨0, .dispatch dispatched, .returned .requeue⟩),
    ((), ⟨0, .fetchMessage, .ok (record 0)⟩)]

theorem shutdownTrace_consuming : Consuming unmarshalAll shutdownTrace := by
  have hfirst : Loop (consume unmarshalAll) (thread () (shutdownTrace.drop 3)) (.ret true) :=
    Loop.start.exec (Exec.start.of_play (thread () (shutdownTrace.drop 3)).reverse rfl)
  have hsecond : Loop (consume unmarshalAll) (thread () shutdownTrace) (.ret true) :=
    hfirst.again.exec (Exec.start.of_play (thread () (shutdownTrace.take 3)).reverse rfl)
  exact fun _ => ⟨_, hsecond⟩

/-- The commit of offset 1 covers the record at offset 0, which was neither handled nor
rejected nor retried to the end. -/
theorem commit_covers_abandoned : ∃ (env : Unmarshal) (tr r : Trace Unit) (instant t : Int),
    Consuming env tr ∧ DisjointReaders tr ∧ InOrder tr ∧ CanceledAt instant tr ∧
    ((), ⟨t, .commitMessages (record 1), none⟩) :: r <:+ tr ∧
    ((), ⟨0, .fetchMessage, .ok (record 0)⟩) ∈ r ∧ SamePartition (record 0) (record 1) ∧
    (record 0).offset ≤ (record 1).offset ∧ ¬ Terminal env (record 0) (thread () r) := by
  refine ⟨unmarshalAll, shutdownTrace, _, 1, 1, shutdownTrace_consuming,
    fun _ _ _ _ _ _ _ _ _ => rfl, ?_, ?_, suffix_refl _, by simp, ⟨rfl, rfl⟩, by decide, ?_⟩
  · simp [InOrder, shutdownTrace, record]
  · simp [CanceledAt, shutdownTrace]
  · rintro ⟨seg, hd, hf⟩
    obtain ⟨⟨t, r, hs⟩, -⟩ := Delivered.of_fetched
      (X := [⟨1, .dispatch dispatched, .returned .ack⟩]) hd (by simp) (by decide)
    have hmem : ∀ ev ∈ seg, ev ∈ thread () (shutdownTrace.drop 3) := fun ev hev =>
      hs.mem (mem_append_left _ hev)
    rcases hf with ⟨err, hrej⟩ | ⟨ev, hev, action, hv, hne⟩ | hcount
    · cases hrej
    · have hrequeue : ∀ ev ∈ thread () (shutdownTrace.drop 3), ∀ action, verdict ev = some action →
          action = .requeue := by
        simp [thread, shutdownTrace, verdict, guard]
      exact hne (hrequeue ev (hmem ev hev) action hv)
    · have := hs.length_le
      simp at this
      have := countP_le_length (p := (verdict · = some .requeue)) (l := seg)
      unfold maxRetries at hcount
      omega

/-- A record is retried after a panic and acknowledged, and the next one as well. -/
def retriedTrace : Trace Unit :=
  [((), ⟨2, .commitMessages (record 1), none⟩),
    ((), ⟨2, .dispatch dispatched, .returned .ack⟩),
    ((), ⟨2, .fetchMessage, .ok (record 1)⟩),
    ((), ⟨2, .commitMessages (record 0), none⟩),
    ((), ⟨2, .dispatch dispatched, .returned .ack⟩),
    ((), ⟨2, .wait, false⟩),
    ((), ⟨1, .dispatch dispatched, .panicked "nil map"⟩),
    ((), ⟨0, .fetchMessage, .ok (record 0)⟩)]

theorem commit_covers_terminal_retried : Terminal unmarshalAll (record 0)
    (thread () retriedTrace.tail) := by
  have hfirst : Loop (consume unmarshalAll) (thread () (retriedTrace.drop 3)) (.ret true) :=
    Loop.start.exec (Exec.start.of_play (thread () (retriedTrace.drop 3)).reverse rfl)
  have hsecond : Loop (consume unmarshalAll) (thread () retriedTrace) (.ret true) :=
    hfirst.again.exec (Exec.start.of_play (thread () (retriedTrace.take 3)).reverse rfl)
  have hstop : StopsFetching retriedTrace := by
    intro i t a b r hr habandoned
    obtain ⟨ev, hev, hcut⟩ := habandoned.exists_cut
    have hnone : ∀ x ∈ retriedTrace, isCut x.2 = false := by decide
    rw [hnone _ (hr.mem (mem_cons_of_mem _ (mem_thread.mp hev)))] at hcut
    cases hcut
  have hcommit : ((), ⟨2, .commitMessages (record 1), none⟩) :: retriedTrace.tail <:+
      retriedTrace := suffix_refl _
  have hfetch : ((), ⟨0, .fetchMessage, .ok (record 0)⟩) ∈ retriedTrace.tail := by
    simp [retriedTrace]
  exact commit_covers_terminal (fun _ => ⟨_, hsecond⟩) (fun _ _ _ _ _ _ _ _ _ => rfl) hstop
    hcommit hfetch ⟨rfl, rfl⟩

end Shutdown

end Skit.Broker.Kafka
