import Skit.Broker.Message
import Skit.Queue.Delivery
import Skit.Queue.Halt

/-!
# Publishing events

`outbox.Handler` publishes the event of a task. What the world answers is how
`Publish` ends on the message it is given. The decoding of an envelope is left open:
the results hold for every `decode`.

A relay is the workers of a queue of events with no limit on attempts. Over whole
runs of relays an outage of the broker loses no event: only a permanent error kills
a task, only a publish removes one, and the first publish that fails stops its batch.
-/
namespace Skit.Outbox
open Lib Worker Queue

structure Envelope where
  id : String
  time : Int
  contentType : String
  headers : Broker.Headers
  data : List UInt8

/-- How `Publish` ends on a message. -/
abbrev Publisher := Broker.Message → Outcome

def message (topic : String) (t : Task) (env : Envelope) : Broker.Message where
  id := env.id
  type := t.kind
  source := ""
  time := env.time
  contentType := env.contentType
  data := env.data
  topic := topic
  headers := env.headers

/-- `Handler`: an envelope that does not decode and an error marked permanent go to
the dead letters, any other error stops the batch. -/
def handler (decode : List UInt8 → Except Err Envelope) (topic : String) (t : Task)
    (pub : Publisher) : Outcome :=
  match decode t.payload with
  | .error err => .returned (permanent (some
      (.wrap ("outbox: decode envelope of " ++ t.kind ++ ": " ++ err.error) err)))
  | .ok env =>
    match pub (message topic t env) with
    | .panicked v => .panicked v
    | .returned err => .returned (if Broker.isPermanent err then permanent err else halt err)

/-- `Config` of a queue of events. -/
def config (name : String) : Queue.Config := ⟨name, 0, 100, 5 * second, 2 * second⟩

/-- The workers of a queue of events, with the default `OnPanic` and a backoff that
sets no `MaxAttempts`. -/
structure Relay where
  cfg : Queue.Config
  topic : String
  backoff : Backoff
  noLimit : backoff.maxAttempts ≤ 0
  sanitize : String → String

def Relay.consumer (decode : List UInt8 → Except Err Envelope) (relay : Relay) :
    Consumer Publisher where
  cfg := relay.cfg
  h := handler decode relay.topic
  backoff := relay.backoff
  onPanic := false
  sanitize := relay.sanitize

section Outcomes

variable (decode : List UInt8 → Except Err Envelope) (relay : Relay)
  (a : Attempt Int Leased Publisher)

/-- The envelope of the task does not decode. -/
def Undecodable : Prop := ∃ err, decode a.item.payload = .error err

/-- The attempt published the event of its task, and `Publish` ended as `out`. -/
def Published (out : Outcome) : Prop :=
  ∃ env, decode a.item.payload = .ok env ∧ a.answer (message relay.topic a.item.toTask env) = out

/-- `Publish` returned an error that is not marked `broker.Permanent` and carries no
recovered panic. -/
def Outage : Prop :=
  ∃ err, Published decode relay a (.returned (some err)) ∧ Broker.isPermanent (some err) = false ∧
    err.asPanic = none

theorem handler_cases : Undecodable decode a ∨ ∃ out, Published decode relay a out ∧
    handler decode relay.topic a.item.toTask a.answer = match out with
      | .panicked v => .panicked v
      | .returned err =>
        .returned (if Broker.isPermanent err then permanent err else halt err) := by
  unfold handler
  cases hd : decode a.item.payload with
  | error err => exact .inl ⟨err, hd⟩
  | ok env => exact .inr ⟨_, ⟨env, hd, rfl⟩, rfl⟩

variable {decode relay a}

/-- Only a permanent error makes a permanent outcome. -/
theorem permanent_outcome {e : Err} (ho : a.outcome (relay.consumer decode).processor = some e)
    (hp : isPermanent e = true) : Undecodable decode a ∨
      ∃ err, Published decode relay a (.returned (some err)) ∧
        (Broker.isPermanent (some err) = true ∨ isPermanent err = true) := by
  rcases handler_cases decode relay a with hu | ⟨out, hpub, hh⟩
  · exact .inl hu
  right
  have herr : a.err (relay.consumer decode).processor = some e := by
    unfold Attempt.outcome at ho
    split at ho
    · exact ho
    · have : e = .panicError _ := (Option.some.inj ho).symm
      rw [this] at hp
      cases hp
  change safetickCall (handler decode relay.topic a.item.toTask a.answer) = some e at herr
  rw [hh] at herr
  cases out with
  | panicked v =>
    rw [← Option.some.inj herr] at hp
    cases hp
  | returned err =>
    cases err with
    | none => cases herr
    | some err =>
      refine ⟨err, hpub, ?_⟩
      cases hb : Broker.isPermanent (some err) with
      | true => exact .inl rfl
      | false =>
        simp only [hb, Bool.false_eq_true, if_false] at herr
        obtain rfl : Err.halt err = e := Option.some.inj herr
        exact .inr hp

/-- The handler returns nil only when the publish did. -/
theorem published_of_returned
    (hh : handler decode relay.topic a.item.toTask a.answer = .returned none) :
    Published decode relay a (.returned none) := by
  rcases handler_cases decode relay a with ⟨err, hd⟩ | ⟨out, hpub, he⟩
  · unfold handler at hh
    rw [hd] at hh
    cases hh
  · rw [he] at hh
    cases out with
    | panicked v => cases hh
    | returned err =>
      cases err with
      | none => exact hpub
      | some err => cases hb : Broker.isPermanent (some err) <;> simp [hb, permanent, halt] at hh

theorem Outage.stops (ho : Outage decode relay a) :
    (relay.consumer decode).processor.stops (a.outcome (relay.consumer decode).processor) =
      true := by
  obtain ⟨err, ⟨env, hd, hpub⟩, hb, hpanic⟩ := ho
  have herr : a.err (relay.consumer decode).processor = some (.halt err) := by
    change safetickCall (handler decode relay.topic a.item.toTask a.answer) = _
    simp [handler, hd, hpub, hb, halt, safetickCall]
  have hnone : a.panic (relay.consumer decode).processor = none := by
    rw [Attempt.panic, herr]
    exact hpanic
  rw [Attempt.outcome, hnone, herr]
  rfl

end Outcomes

section Outages

variable {ι : Type} [DecidableEq ι] {decode : List UInt8 → Except Err Envelope} {relay : ι → Relay}
  {tr : Trace ι Publisher}
  {c : Moment ι Publisher}

/-- `e` records an attempt of drain `i` as failed by an outage; `r` came before it. -/
def RecordsOutage (decode : List UInt8 → Except Err Envelope) (relay : ι → Relay)
    (e : Point ι Publisher) (r : Trace ι Publisher) (i : ι)
    (a : Attempt Int Leased Publisher) : Prop :=
  ∃ ev t h, e.act = .proc i ev ∧ ev.op.marked = some a.item ∧
    hist i r = ⟨t, .withTimeout markTimeout, ()⟩ ::
      (a.events ((relay i).consumer decode).processor ++ h) ∧
    Outage decode (relay i) a

/-- An outage of the broker loses no event. A task dies only if its envelope does not
decode or a publish of it returned a permanent error; a task that is not dead leaves
the table only after a publish of it returned nil; and the batch of a publish that
failed without a mark goes no further, the tasks after it going back as they were. -/
theorem outage_loses_nothing (h : Run (workers fun i => (relay i).consumer decode) tr c) :
    (∀ e r id row row', e :: r <:+ tr → e.pre.table.find id = some row → row.doneAt = none →
      e.post.table.find id = some row' → row'.doneAt ≠ none →
      ∃ i, ∃ a : Attempt Int Leased Publisher, a.item.id = id ∧
        Attempted ((relay i).consumer decode) a (hist i r) ∧ (Undecodable decode a ∨
          ∃ err, Published decode (relay i) a (.returned (some err)) ∧
            (Broker.isPermanent (some err) = true ∨ isPermanent err = true))) ∧
    (∀ e r id row, e :: r <:+ tr → e.pre.table.find id = some row → row.doneAt = none →
      e.post.table.find id = none → ∃ i, ∃ a : Attempt Int Leased Publisher, a.item.id = id ∧
        Attempted ((relay i).consumer decode) a (hist i r) ∧
        Published decode (relay i) a (.returned none)) ∧
    (∀ e r i a, e :: r <:+ tr → RecordsOutage decode relay e r i a →
      ∃ rest, StopsBatch (fun i => (relay i).consumer decode) tr c e r i a.item rest) := by
  refine ⟨?_, ?_, ?_⟩
  · intro e r id row row' he hpre halive hpost hdead
    obtain ⟨d, hd⟩ := Option.ne_none_iff_exists'.mp hdead
    obtain ⟨a, ⟨i, t, msg, terminal, err, -, hid, hatt, hwhy⟩, -⟩ :=
      killed_of_dies h he hpost hd fun row₀ hf₀ => by
        rwa [← Option.some.inj (hpre.symm.trans hf₀)]
    refine ⟨i, a, hid, hatt, ?_⟩
    rcases hwhy with ⟨x, ho, hp⟩ | ⟨hpos, -⟩
    · exact permanent_outcome ho hp
    · exact absurd (relay i).noLimit (not_le.mpr hpos)
  · intro e r id row he hpre halive hpost
    obtain ⟨row', hpre', -, hleft⟩ := left_of_gone h he hpre hpost
    obtain rfl := Option.some.inj (hpre.symm.trans hpre')
    rcases hleft with ⟨i, t, err, a, -, hid, -, -, hatt, hh | ⟨-, hc, -⟩⟩ | ⟨hdead, -⟩
    · exact ⟨i, a, hid, hatt, published_of_returned hh⟩
    · cases hc
    · exact absurd halive hdead
  · rintro e r i a he ⟨ev, t, h', ha, hm, hh, hout⟩
    exact stopsBatch_of_stops h he ha hm hh hout.stops

end Outages

section Rejected

theorem unlimited : (0 : Int) ≤ 0 := le_refl 0

def eventsRelay : Relay where
  cfg := (config "events").withDefaults
  topic := "orders"
  backoff := ⟨0, fun _ => 2 * second, fun _ => two_seconds_nonneg⟩
  noLimit := unlimited
  sanitize := fun msg => msg

/-- Every payload decodes. -/
def decodeAll (data : List UInt8) : Except Err Envelope := .ok ⟨"", 0, "", [], data⟩

def eventTask (id : Nat) : Leased := ⟨⟨id, "events", "created", "", [], 0, 0, 0, ""⟩, "a"⟩

def event : Params := ⟨"events", "created", "", [], 0⟩

/-- Two events are claimed, the publish of the first returns `err`, which is recorded,
and the second is released. -/
def rejectedScript (err : Err) (terminal : Bool) :
    Script Unit Int (Call Leased) (Ans Leased Publisher) Env Store :=
  [(.env 0 (.schedule event 0 0), (·.run (.schedule event 0 0))),
    (.env 0 (.schedule event 0 0), (·.run (.schedule event 0 0))),
    (.proc () ⟨0, .now, 0⟩, id),
    (.proc () ⟨0, .claim 0 100, .ok [eventTask 1, eventTask 2]⟩,
      (·.run ((eventsRelay.consumer decodeAll).claim 0 100 "a" fun _ => false))),
    (.proc () ⟨0, .ctxErr, false⟩, id), (.proc () ⟨0, .now, 0⟩, id),
    (.proc () ⟨0, .now, 0⟩, id), (.proc () ⟨0, .withTimeout (5 * second), ()⟩, id),
    (.proc () ⟨0, .handle (eventTask 1), ()⟩, id),
    (.proc () ⟨1, .handled (eventTask 1), fun _ => .returned (some err)⟩, id),
    (.proc () ⟨1, .cancel, ()⟩, id), (.proc () ⟨1, .withTimeout markTimeout, ()⟩, id),
    (.proc () ⟨1, .markFailed (eventTask 1) "refused" terminal 0, none⟩,
      (·.run ((eventsRelay.consumer decodeAll).markFailed (eventTask 1) "refused" terminal 0))),
    (.proc () ⟨1, .cancel, ()⟩, id), (.proc () ⟨1, .withTimeout markTimeout, ()⟩, id),
    (.proc () ⟨1, .release [eventTask 2], none⟩, (·.run (.release [eventTask 2])))]

def rejectedRun (err : Err) (terminal : Bool) : Trace Unit Publisher :=
  (rejectedScript err terminal).record ⟨.empty, []⟩ []

theorem rejectedScript_fits (err : Err) (terminal : Bool) :
    (rejectedScript err terminal).Fits (workers fun _ => eventsRelay.consumer decodeAll)
      ⟨.empty, []⟩ := by
  refine ⟨rfl, rfl, .inside rfl, .replied (.claim "a" fun _ => false) ?_ .claim, .inside rfl,
    .inside rfl, .inside rfl, .inside rfl, .inside rfl, .inside rfl, .inside rfl, .inside rfl,
    .replied .markFailed ?_ .markFailed, .inside rfl, .inside rfl,
    .replied .release trivial .release, trivial⟩
  · simp [Consumer.claim, Sent, Drawn, Store.run, Stmt.entry, Stmt.draws]
  · simp [Consumer.markFailed, Sent, eventTask]

theorem rejectedRun_runs (err : Err) (terminal : Bool)
    (hplay : ((rejectedScript err terminal).playAll
      (workers fun _ => eventsRelay.consumer decodeAll).prog).isSome = true) :
    ∃ c, Run (workers fun _ => eventsRelay.consumer decodeAll) (rejectedRun err terminal) c :=
  (Run.init rfl).extend hplay (rejectedScript_fits err terminal)
    (by simp [rejectedScript, Act.time]) (by simp)

/-- An error that is marked `queue.Permanent` and not `broker.Permanent` kills the task
as well. -/
theorem dead_without_broker_permanent : ∃ (tr : Trace Unit Publisher)
    (c : Moment Unit Publisher)
    (err : Err),
    Run (workers fun _ => eventsRelay.consumer decodeAll) tr c ∧
    Broker.isPermanent (some err) = false ∧
    (∀ e ∈ tr, ∀ t task pub, e.act = .proc () ⟨t, .handled task, pub⟩ →
      ∀ m, pub m = .returned (some err)) ∧
    ∃ e r, e :: r <:+ tr ∧ (e.pre.table.find 1).map (·.doneAt) = some none ∧
      (e.post.table.find 1).map (·.doneAt) = some (some 0) := by
  obtain ⟨c, h⟩ := rejectedRun_runs (.permanent (.text "refused")) true (by decide +kernel)
  refine ⟨_, c, .permanent (.text "refused"), h, by decide, ?_, _, _,
    List.drop_suffix 3 (rejectedRun (.permanent (.text "refused")) true),
    by decide +kernel, by decide +kernel⟩
  intro e he t task pub ha
  simp only [rejectedRun, rejectedScript, Script.record, List.mem_cons, List.not_mem_nil,
    or_false] at he
  obtain rfl | rfl | rfl | rfl | rfl | rfl | rfl | rfl | rfl | rfl | rfl | rfl | rfl | rfl | rfl |
    rfl := he <;> cases ha
  exact fun _ => rfl

/-- The attempt on the first event. -/
def refusedAttempt : Attempt Int Leased Publisher where
  item := eventTask 1
  polled := 0
  checked := 0
  check := 0
  read := 0
  now := 0
  opened := 0
  began := 0
  ended := 1
  answer := fun _ => .returned (some (.text "refused"))
  closed := 1
  asked := 1
  verdict := none

/-- A refused publish without a mark stops the batch: the second event is released as it
was claimed. -/
theorem outage_loses_nothing_released : ∃ e r c,
    StopsBatch (fun _ => eventsRelay.consumer decodeAll) (rejectedRun (.text "refused") false) c e r
      () (eventTask 1) [eventTask 2] := by
  obtain ⟨c, h⟩ := rejectedRun_runs (.text "refused") false (by decide +kernel)
  have hmark := List.drop_suffix 3 (rejectedRun (.text "refused") false)
  obtain ⟨rest, hrest⟩ := (outage_loses_nothing h).2.2 _ _ ()
    refusedAttempt hmark ⟨_, 1, _, rfl, rfl, rfl, .text "refused", ⟨_, rfl, rfl⟩, rfl, rfl⟩
  obtain rfl : [eventTask 2] = rest := hrest.released _ _ _ [eventTask 2]
    (List.drop_suffix 2 (rejectedRun (.text "refused") false).tail) (List.suffix_refl _) rfl rfl
  exact ⟨_, _, c, hrest⟩

end Rejected

end Skit.Outbox
