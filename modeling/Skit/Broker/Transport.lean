import Skit.Broker.Envelope
import Skit.Broker.Kafka

/-!
# Messages on the wire

What the publishers of Kafka and RabbitMQ send and what their consumers make of it. A map is known
by what is looked up in it; the order of an iteration over it is any. The transports deliver
unchanged what is sent, and then a message arrives as it was: the body by the envelope, the headers
by the header table, with the content type of the envelope and, for RabbitMQ, the routing key.
-/
namespace Skit.Broker
open Lib List Option

section Maps

variable {β : Type} {k k' : String} {h src dst : Headers} {l : List (String × β)}

/-- `maps.Copy`. -/
def Headers.copy (dst src : Headers) : Headers :=
  src ++ dst.filter fun e => (src.lookup e.1).isNone

/-- The entries of a map in the order of an iteration. -/
def Enumerates (entries map : List (String × β)) : Prop :=
  (entries.map Prod.fst).Nodup ∧ ∀ k, entries.lookup k = map.lookup k

theorem lookup_kept {p : String → Bool} (hk : p k = true) :
    (l.filter fun e => p e.1).lookup k = l.lookup k := by
  induction l with
  | nil => rfl
  | cons e l ih =>
    by_cases he : p e.1 = true
    · rw [filter_cons, if_pos he, lookup_cons, lookup_cons, ih]
    · have hne : (k == e.1) = false := by
        rw [beq_eq_false_iff_ne]
        rintro rfl
        exact he hk
      rw [filter_cons, if_neg he, ih, lookup_cons, hne]

theorem Headers.lookup_put (h : Headers) (key value k : String) :
    (h.put key value).lookup k = if k = key then some value else h.lookup k := by
  rw [Headers.put, lookup_cons]
  split_ifs with hk
  · rw [hk, beq_self_eq_true]
  · rw [beq_eq_false_iff_ne.mpr hk]
    exact lookup_kept (p := fun k => decide (k ≠ key)) (decide_eq_true hk)

theorem Headers.lookup_copy (dst src : Headers) (k : String) :
    (dst.copy src).lookup k = (src.lookup k).or (dst.lookup k) := by
  rw [Headers.copy, lookup_append]
  cases hsrc : src.lookup k with
  | none => rw [lookup_kept (p := fun k => (src.lookup k).isNone) (by rw [hsrc]; rfl)]
  | some v => rfl

theorem lookup_filterMap {γ : Type} (g : β → Option γ) (h : (l.map Prod.fst).Nodup) (k : String) :
    (l.filterMap fun e => (g e.2).map fun c => (e.1, c)).lookup k = (l.lookup k).bind g := by
  induction l with
  | nil => rfl
  | cons e l ih =>
    obtain ⟨hmem, hnodup⟩ := nodup_cons.mp h
    rw [lookup_cons, filterMap_cons]
    cases hg : g e.2 with
    | none =>
      rw [map_none]
      dsimp only
      rw [ih hnodup]
      cases hk : k == e.1 with
      | false => rfl
      | true =>
        have hnone : l.lookup k = none := by
          by_contra hsome
          exact hmem (beq_iff_eq.mp hk ▸ mem_names_iff.mpr hsome)
        rw [hnone]
        exact hg.symm
    | some c =>
      rw [map_some]
      dsimp only
      rw [lookup_cons, ih hnodup]
      cases k == e.1 with
      | false => rfl
      | true => exact hg.symm

end Maps

/-- The headers that go out: those of the envelope over those of the message. -/
def wire (m : Message) (env : Headers) : Headers := (Headers.copy [] m.headers).copy env

namespace Kafka

/-- A record to write. -/
structure Outgoing where
  topic : String
  value : List UInt8
  headers : Headers

/-- `Publisher.send` up to the write. -/
def send (offset : Int) (m : Message) : Except Err Outgoing :=
  match marshal offset m with
  | .error err => .error (.wrap ("kafka publish: " ++ err.error) err)
  | .ok (body, env) => .ok ⟨m.topic, body, wire m env⟩

theorem lookup_headers {hs : List (String × String)} (h : (hs.map Prod.fst).Nodup) (k : String) :
    (headers hs).lookup k = hs.lookup k := by
  have hfold (out : Headers) :
      (hs.foldl (fun out h => out.put h.1 h.2) out).lookup k = (hs.lookup k).or (out.lookup k) := by
    induction hs generalizing out with
    | nil => rfl
    | cons e hs ih =>
      obtain ⟨hmem, hnodup⟩ := nodup_cons.mp h
      rw [foldl_cons, ih hnodup, Headers.lookup_put, lookup_cons]
      by_cases hk : k = e.1
      · have hnone : hs.lookup e.1 = none := by
          by_contra hsome
          exact hmem (mem_names_iff.mpr hsome)
        rw [if_pos hk, hk, hnone, beq_self_eq_true]
        rfl
      · have hne : (k == e.1) = false := by simpa using hk
        rw [if_neg hk, hne]
  rw [headers, hfold, lookup_nil, or_none]

end Kafka

namespace Rabbitmq

def routingKeyHeader : String := "routing-key"

def defaultExchange : String := "amq.default"

/-- A value of an `amqp.Table`. -/
inductive TableValue
  | string (s : String)
  | other
  deriving DecidableEq

def TableValue.asString : TableValue → Option String
  | string s => some s
  | other => none

/-- What is published, and what is delivered. -/
structure Publishing where
  exchange : String
  routingKey : String
  body : List UInt8
  contentType : String
  headers : List (String × TableValue)

def amqpHeaders (wire : Headers) : List (String × TableValue) × String :=
  ((wire.filter fun e => e.1 ≠ contentTypeHeader).map fun e => (e.1, .string e.2),
    (wire.lookup contentTypeHeader).getD "")

/-- `Publisher.send` up to the confirmation. -/
def send (offset : Int) (m : Message) (routingKey : String) : Except Err Publishing :=
  match marshal offset m with
  | .error err => .error (.wrap ("rabbitmq publish: " ++ err.error) err)
  | .ok (body, env) =>
    let (table, contentType) := amqpHeaders (wire m env)
    .ok ⟨if m.topic = defaultExchange then "" else m.topic, routingKey, body, contentType, table⟩

def headers (t : List (String × TableValue)) (contentType routingKey : String) : Headers :=
  if t = [] ∧ contentType = "" ∧ routingKey = "" then []
  else
    let out : Headers := t.filterMap fun e => e.2.asString.map fun s => (e.1, s)
    let out := if contentType ≠ "" then out.put contentTypeHeader contentType else out
    if routingKey ≠ "" then out.put routingKeyHeader routingKey else out

/-- The delivery that `dispatch` makes. -/
def delivery (d : Publishing) : Delivery :=
  ⟨d.body, headers d.headers d.contentType d.routingKey, d.exchange⟩

/-- The header table is projected to what was put in it. -/
theorem lookup_headers {wire : Headers} {t : List (String × TableValue)} {routingKey : String}
    (ht : Enumerates t (amqpHeaders wire).1) (hct : (amqpHeaders wire).2 ≠ "")
    (hrk : routingKey ≠ "") (k : String) :
    (headers t (amqpHeaders wire).2 routingKey).lookup k =
      if k = routingKeyHeader then some routingKey else wire.lookup k := by
  rw [headers, if_neg fun h => hct h.2.1, if_pos hrk, Headers.lookup_put, if_pos hct,
    Headers.lookup_put]
  split_ifs with hk hk'
  · rfl
  · cases hwire : wire.lookup contentTypeHeader with
    | none =>
      rw [amqpHeaders, hwire] at hct
      exact absurd rfl hct
    | some v => rw [amqpHeaders, hk', hwire]; rfl
  · rw [lookup_filterMap TableValue.asString ht.1, ht.2, amqpHeaders,
      lookup_map TableValue.string, bind_map,
      lookup_kept (p := fun k => decide (k ≠ contentTypeHeader)) (decide_eq_true hk')]
    cases wire.lookup k <;> rfl

end Rabbitmq

section Survival

variable {offset : Int} {m : Message}

/-- The message that arrives, but for its topic and its headers. -/
structure Survives (m m' : Message) : Prop where
  id : m'.id = m.id
  type : m'.type = m.type
  source : m'.source = m.source
  contentType : m'.contentType = m.contentType
  time : m'.time = m.time
  data : SameData m.contentType m.data m'.data

/-- The headers of a message with the content type of the envelope. -/
def enveloped (m : Message) (k : String) : Option String :=
  if k = contentTypeHeader then some contentTypeCloudEvents else m.headers.lookup k

theorem lookup_wire (k : String) :
    (wire m [(contentTypeHeader, contentTypeCloudEvents)]).lookup k = enveloped m k := by
  rw [wire, Headers.lookup_copy, Headers.lookup_copy, lookup_nil, or_none, enveloped,
    lookup_cons]
  split_ifs with hk
  · rw [hk, beq_self_eq_true]
    rfl
  · rw [beq_eq_false_iff_ne.mpr hk]
    rfl

/-- A delivery of the body is decoded to the message with the headers of the delivery. -/
theorem decode_survives (hid : m.id ≠ "") (hmin : offset % 60 = 0) {body : List UInt8}
    {env : Headers} (h : marshal offset m = .ok (body, env)) (hs : Headers) (topic : String) :
    ∃ m', decode unmarshal ⟨body, hs, topic⟩ = .ok m' ∧ Survives m m' ∧ m'.headers = hs := by
  obtain ⟨got, hgot, hdata⟩ := unmarshal_marshal hid hmin h hs
  refine ⟨{ m with data := got, headers := hs, topic := topic }, ?_,
    ⟨rfl, rfl, rfl, rfl, rfl, hdata⟩, rfl⟩
  rw [decode]
  dsimp only
  rw [hgot]

/-- A message survives the wire. -/
theorem message_survives (hid : m.id ≠ "") (hmin : offset % 60 = 0) {body : List UInt8}
    {env : Headers} (h : marshal offset m = .ok (body, env)) :
    (∃ ms, CloudEvent.parseBody body = some ms ∧
      (ms.lookup "data" = none ∨ ms.lookup "data_base64" = none)) ∧
    (∃ out, Kafka.send offset m = .ok out ∧
      ∀ hs partition recordOffset, Enumerates hs out.headers → ∃ m',
        decode unmarshal (Kafka.delivery ⟨out.topic, partition, recordOffset, out.value, hs⟩) =
          .ok m' ∧ Survives m m' ∧ ∀ k, m'.headers.lookup k = enveloped m k) ∧
    ∀ routingKey, routingKey ≠ "" → ∃ out, Rabbitmq.send offset m routingKey = .ok out ∧
      ∀ table, Enumerates table out.headers → ∃ m',
        decode unmarshal (Rabbitmq.delivery { out with headers := table }) = .ok m' ∧
          Survives m m' ∧ ∀ k, m'.headers.lookup k =
            if k = Rabbitmq.routingKeyHeader then some routingKey else enveloped m k := by
  have henv : env = [(contentTypeHeader, contentTypeCloudEvents)] := (marshal_ok h).2.2
  refine ⟨marshal_one_data h, ⟨_, by rw [Kafka.send, h], fun hs partition recordOffset hhs => ?_⟩,
    fun routingKey hrk => ⟨_, by rw [Rabbitmq.send, h], fun table htable => ?_⟩⟩
  · obtain ⟨m', hdecode, hsurvives, hheaders⟩ :=
      decode_survives hid hmin h (Kafka.headers hs) m.topic
    refine ⟨m', hdecode, hsurvives, fun k => ?_⟩
    rw [hheaders, Kafka.lookup_headers hhs.1, hhs.2, henv, lookup_wire]
  · obtain ⟨m', hdecode, hsurvives, hheaders⟩ := decode_survives hid hmin h
      (Rabbitmq.headers table (Rabbitmq.amqpHeaders (wire m env)).2 routingKey)
      (if m.topic = Rabbitmq.defaultExchange then "" else m.topic)
    have hct : (Rabbitmq.amqpHeaders (wire m env)).2 ≠ "" := by
      rw [henv, Rabbitmq.amqpHeaders, lookup_wire, enveloped, if_pos rfl]
      exact (by decide : contentTypeCloudEvents ≠ "")
    refine ⟨m', hdecode, hsurvives, fun k => ?_⟩
    rw [hheaders, Rabbitmq.lookup_headers htable hct hrk, henv, lookup_wire]

def ordered : Message where
  id := "7"
  type := "order.created"
  source := "shop"
  time := 1700000000123000000
  contentType := "application/json"
  data := Errs.text "[1, 2]"
  topic := "orders"
  headers := [("content-type", "application/json"), ("tenant", "a")]

theorem message_survives_ordered : ∃ out m', Kafka.send 7200 ordered = .ok out ∧
    decode unmarshal (Kafka.delivery ⟨out.topic, 0, 0, out.value,
      [("content-type", "application/cloudevents+json"), ("tenant", "a")]⟩) = .ok m' ∧
    m'.time = 1700000000123000000 ∧ m'.headers.lookup "tenant" = some "a" := by
  have hok : (marshal 7200 ordered).toOption.isSome = true := by decide +kernel
  cases h : marshal 7200 ordered with
  | error err =>
    rw [h] at hok
    cases hok
  | ok sent =>
    obtain ⟨body, env⟩ := sent
    obtain ⟨-, ⟨out, hout, hkafka⟩, -⟩ := message_survives (by decide) (by decide) h
    have hheaders : out.headers = wire ordered [(contentTypeHeader, contentTypeCloudEvents)] := by
      rw [Kafka.send, h, (marshal_ok h).2.2] at hout
      cases hout
      rfl
    have hwire : Enumerates [("content-type", "application/cloudevents+json"), ("tenant", "a")]
        out.headers := by
      rw [hheaders]
      refine ⟨by decide, fun k => ?_⟩
      rfl
    obtain ⟨m', hdecode, hsurvives, hlookup⟩ := hkafka _ 0 0 hwire
    exact ⟨out, m', hout, hdecode, hsurvives.time, hlookup "tenant"⟩

end Survival

end Skit.Broker
