import Skit.Broker.Message
import Skit.Errs.Sanitize
import Skit.Lib.Base64
import Skit.Lib.JsonText
import Skit.Lib.MediaType
import Skit.Lib.Timestamp

/-!
# The CloudEvents envelope

`CloudEvents` packs a message into a JSON object and unpacks it again: JSON data goes under `data`
as it is, other data in base64 under `data_base64`. The time of a message is an instant here, and
the zone that it is written in is a parameter.
-/
namespace Skit.Broker
open Lib JsonText Errs Calendar List Option

section Definitions

def contentTypeHeader : String := "content-type"

def contentTypeCloudEvents : String := "application/cloudevents+json"

/-- How deep `jsontext` lets a text be nested. -/
def maxNestingDepth : Nat := 10000

def jsonData (ct : String) : Bool :=
  if ct = "" then true
  else
    match MediaType.parseMediaType ct.toList with
    | none => false
    | some mt => ['/', 'j', 's', 'o', 'n'].isSuffixOf mt || ['+', 'j', 's', 'o', 'n'].isSuffixOf mt

example : jsonData "Application/VND.api+JSON; charset=utf-8" = true ∧
    jsonData "application/json; charset" = false := by decide +kernel

/-- Nil slices are `none`. -/
structure CloudEvent where
  specVersion : String
  id : String
  type : String
  source : String
  time : Time
  dataContentType : String
  data : Option (List UInt8)
  dataBase64 : Option (List UInt8)

/-- The tree of a JSON value inside the envelope. -/
def parseData (raw : List UInt8) : Option Tree :=
  (utf8 raw).bind fun s => parse (maxNestingDepth - 1) s.toList

namespace CloudEvent

def marshalData : Option (List UInt8) → Except String (List (String × Tree))
  | none => .ok []
  | some raw =>
    match parseData raw with
    | none => .error "jsontext: invalid value"
    | some t => .ok [("data", t)]

/-- A member with `omitempty`. -/
def omitEmpty (name s : String) : List (String × Tree) := if s = "" then [] else [(name, .str s)]

/-- The attributes that are always there. -/
def required (ce : CloudEvent) (time : List Char) : List (String × Tree) :=
  [("specversion", .str ce.specVersion), ("id", .str ce.id), ("type", .str ce.type),
    ("source", .str ce.source), ("time", .str (String.ofList time))]

def members (ce : CloudEvent) (time : List Char) (data : List (String × Tree)) :
    List (String × Tree) :=
  ce.required time ++ omitEmpty "datacontenttype" ce.dataContentType ++ data ++
    omitEmpty "data_base64" (String.ofList (Base64.stdEncode (ce.dataBase64.getD [])))

/-- `json.Marshal`. -/
def encode (offset : Int) (ce : CloudEvent) : Except String (List UInt8) :=
  match marshalTime offset ce.time with
  | .error msg => .error msg
  | .ok time =>
    match marshalData ce.data with
    | .error msg => .error msg
    | .ok data => .ok (text (String.ofList (print (.obj (ce.members time data)))))

/-- The members of an object with their texts. -/
abbrev Members := List (String × (Tree × List Char))

def mismatch (name : String) : String := "json: cannot unmarshal into Go struct field " ++ name

/-- A member that is missing or null leaves the zero value. -/
def field {α : Type} (ms : Members) (name : String) (zero : α) (read : String → Option α) :
    Except String α :=
  match ms.lookup name with
  | none => .ok zero
  | some (.null, _) => .ok zero
  | some (.str s, _) =>
    match read s with
    | none => .error (mismatch name)
    | some a => .ok a
  | some _ => .error (mismatch name)

def ofMembers (ms : Members) : Except String CloudEvent := do
  let specVersion ← field ms "specversion" "" some
  let id ← field ms "id" "" some
  let type ← field ms "type" "" some
  let source ← field ms "source" "" some
  let time ← field ms "time" (Time.date 1 1 1) fun s => unmarshalTime s.toList
  let dataContentType ← field ms "datacontenttype" "" some
  let dataBase64 ← field ms "data_base64" none fun s => (Base64.stdDecode s.toList).map some
  .ok {
    specVersion, id, type, source, time, dataContentType, dataBase64
    data := (ms.lookup "data").map fun v => text (String.ofList v.2)
  }

/-- The members of a body. A null is an object without members. -/
def parseBody (body : List UInt8) : Option Members :=
  (utf8 body).bind fun s =>
    match parse 0 s.toList with
    | some .null => some []
    | _ => parseObject (maxNestingDepth - 1) s.toList

/-- `json.Unmarshal`. -/
def decode (body : List UInt8) : Except String CloudEvent :=
  match parseBody body with
  | none => .error "jsontext: invalid value"
  | some ms => ofMembers ms

end CloudEvent

/-- The envelope that `Marshal` fills for a message. -/
def cloudEvent (m : Message) : CloudEvent where
  specVersion := "1.0"
  id := m.id
  type := m.type
  source := m.source
  time := m.time
  dataContentType := m.contentType
  data :=
    if !jsonData m.contentType then none
    else if m.data = [] then some (text "null")
    else some m.data
  dataBase64 := if !jsonData m.contentType then some m.data else none

/-- `CloudEvents.Marshal` of a message whose time is in the zone at `offset`. -/
def marshal (offset : Int) (m : Message) : Except Err (List UInt8 × Headers) :=
  if m.type = "" then
    .error (.brokerPermanent (.text "broker: marshal cloudevent: type is required"))
  else
    match (cloudEvent m).encode offset with
    | .error msg =>
      .error (.brokerPermanent (.wrap ("broker: marshal cloudevent: " ++ msg) (.text msg)))
    | .ok body => .ok (body, [(contentTypeHeader, contentTypeCloudEvents)])

/-- `CloudEvents.Unmarshal`. -/
def unmarshal : Unmarshal := fun body _ =>
  match CloudEvent.decode body with
  | .error msg => .error (.wrap ("broker: unmarshal cloudevent: " ++ msg) (.text msg))
  | .ok ce =>
    if ce.specVersion = "" ∨ ce.id = "" ∨ ce.type = "" then
      .error (.text "broker: unmarshal cloudevent: missing required envelope fields")
    else
      .ok {
        id := ce.id
        type := ce.type
        source := ce.source
        time := ce.time
        contentType := ce.dataContentType
        data := ce.dataBase64.getD (ce.data.getD [])
        topic := ""
        headers := []
      }

end Definitions

section RoundTrip

namespace CloudEvent

variable {ce : CloudEvent} {ms : Members} {name s : String} {α : Type} {zero a : α}
  {read : String → Option α} {raw time : List Char} {data : List (String × Tree)}
  {m : String × Tree}

theorem field_str (h : ms.lookup name = some (.str s, raw)) (hread : read s = some a) :
    field ms name zero read = .ok a := by
  rw [field, h]
  dsimp only
  rw [hread]

theorem field_none (h : ms.lookup name = none) : field ms name zero read = .ok zero := by
  rw [field, h]

theorem marshalData_ok {d : Option (List UInt8)} (h : marshalData d = .ok data) :
    d = none ∧ data = [] ∨ ∃ bs t, d = some bs ∧ parseData bs = some t ∧ data = [("data", t)] := by
  unfold marshalData at h
  split at h
  · cases h
    exact .inl ⟨rfl, rfl⟩
  · next bs =>
    split at h
    · cases h
    · next t ht =>
      cases h
      exact .inr ⟨bs, t, rfl, ht, rfl⟩

theorem names_data (h : marshalData ce.data = .ok data) :
    data.map Prod.fst = [] ∨ data.map Prod.fst = ["data"] := by
  obtain ⟨-, rfl⟩ | ⟨bs, t, -, -, rfl⟩ := marshalData_ok h
  · exact .inl rfl
  · exact .inr rfl

theorem names_omitEmpty (name s : String) :
    (omitEmpty name s).map Prod.fst = [] ∨ (omitEmpty name s).map Prod.fst = [name] := by
  unfold omitEmpty
  split_ifs
  · exact .inl rfl
  · exact .inr rfl

theorem names_members (h : marshalData ce.data = .ok data) :
    ((ce.members time data).map Prod.fst).Nodup := by
  have hreq : (ce.required time).map Prod.fst = ["specversion", "id", "type", "source", "time"] :=
    rfl
  rw [members, map_append, map_append, map_append, hreq]
  rcases names_omitEmpty "datacontenttype" ce.dataContentType with hct | hct <;>
    rcases names_data h with hd | hd <;>
    rcases names_omitEmpty "data_base64" (String.ofList (Base64.stdEncode
      (ce.dataBase64.getD []))) with hb | hb <;> rw [hct, hd, hb] <;> simp

theorem mem_omitEmpty (h : m ∈ omitEmpty name s) : m.2 = .str s := by
  unfold omitEmpty at h
  split_ifs at h
  · cases h
  · rw [mem_singleton] at h
    rw [h]

theorem mem_members (h : m ∈ ce.members time data) : (∃ s, m.2 = .str s) ∨ m ∈ data := by
  rw [members, mem_append, mem_append, mem_append] at h
  rcases h with ((h | h) | h) | h
  · simp only [required, mem_cons, not_mem_nil, or_false] at h
    rcases h with rfl | rfl | rfl | rfl | rfl <;> exact .inl ⟨_, rfl⟩
  · exact .inl ⟨_, mem_omitEmpty h⟩
  · exact .inr h
  · exact .inl ⟨_, mem_omitEmpty h⟩

theorem members_printable (h : marshalData ce.data = .ok data)
    (hm : m ∈ ce.members time data) : Printable m.2 ∧ m.2.depth ≤ maxNestingDepth - 1 := by
  obtain ⟨s, hs⟩ | hdata := mem_members hm
  · rw [hs]
    exact ⟨⟨nofun, rfl⟩, Nat.zero_le _⟩
  · obtain ⟨-, rfl⟩ | ⟨bs, t, -, ht, rfl⟩ := marshalData_ok h
    · cases hdata
    · obtain rfl := mem_singleton.mp hdata
      obtain ⟨s, -, hparse⟩ := bind_eq_some_iff.mp ht
      exact parse_printable hparse

theorem parseBody_members (h : marshalData ce.data = .ok data) :
    parseBody (text (String.ofList (print (.obj (ce.members time data))))) =
      some ((ce.members time data).map fun m => (m.1, (m.2, print m.2))) := by
  have hobj : Printable (.obj (ce.members time data)) :=
    printable_obj (names_members h) fun m hm => (members_printable h hm).1
  have hread := parseObject_print hobj fun m hm => (members_printable h hm).2
  have hnull : parse 0 (print (.obj (ce.members time data))) = none := rfl
  rw [parseBody, utf8_text, Option.bind_some, String.toList_ofList, hread, hnull]

theorem lookup_omitEmpty (name s name' : String) : (omitEmpty name s).lookup name' =
    if name' = name ∧ s ≠ "" then some (.str s) else none := by
  unfold omitEmpty
  split_ifs with hs hname hname
  · exact absurd hs hname.2
  · rfl
  · rw [hname.1, lookup_cons, beq_self_eq_true]
  · have hne : (name' == name) = false := by
      simpa using fun heq => hname ⟨heq, hs⟩
    rw [lookup_cons, hne]
    rfl

theorem lookup_data (h : marshalData ce.data = .ok data) (hname : name ≠ "data") :
    data.lookup name = none := by
  obtain ⟨-, rfl⟩ | ⟨bs, t, -, -, rfl⟩ := marshalData_ok h
  · rfl
  · have hne : (name == "data") = false := by simpa using hname
    rw [lookup_cons, hne]
    rfl

theorem field_members {name s : String}
    (hs : (ce.members time data).lookup name = some (.str s)) (hread : read s = some a) :
    field ((ce.members time data).map fun m => (m.1, (m.2, print m.2))) name zero read = .ok a :=
  field_str (by rw [lookup_map fun t => (t, print t), hs]; rfl) hread

theorem field_missing (hs : (ce.members time data).lookup name = none) :
    field ((ce.members time data).map fun m => (m.1, (m.2, print m.2))) name zero read =
      .ok zero :=
  field_none (by rw [lookup_map fun t => (t, print t), hs]; rfl)

theorem lookup_required (hname : ((ce.required time).lookup name).isSome = true) :
    (ce.members time data).lookup name = (ce.required time).lookup name := by
  obtain ⟨t, ht⟩ := isSome_iff_exists.mp hname
  rw [members, lookup_append, lookup_append, lookup_append, ht]
  rfl

theorem lookup_optional (hname : (ce.required time).lookup name = none) :
    (ce.members time data).lookup name =
      ((omitEmpty "datacontenttype" ce.dataContentType).lookup name).or
        ((data.lookup name).or ((omitEmpty "data_base64" (String.ofList
          (Base64.stdEncode (ce.dataBase64.getD [])))).lookup name)) := by
  rw [members, lookup_append, lookup_append, lookup_append, hname, Option.none_or,
    Option.or_assoc]

theorem lookup_dataContentType (h : marshalData ce.data = .ok data) :
    (ce.members time data).lookup "datacontenttype" =
      if ce.dataContentType = "" then none else some (.str ce.dataContentType) := by
  rw [lookup_optional (by simp [required]), lookup_data h (by decide), lookup_omitEmpty,
    lookup_omitEmpty]
  by_cases hempty : ce.dataContentType = "" <;> simp [hempty]

theorem lookup_dataBase64 (h : marshalData ce.data = .ok data) :
    (ce.members time data).lookup "data_base64" =
      if ce.dataBase64.getD [] = [] then none
      else some (.str (String.ofList (Base64.stdEncode (ce.dataBase64.getD [])))) := by
  rw [lookup_optional (by simp [required]), lookup_data h (by decide), lookup_omitEmpty,
    lookup_omitEmpty]
  by_cases hempty : ce.dataBase64.getD [] = [] <;> simp [Base64.stdEncode_eq_nil_iff, hempty]

theorem lookup_data_members : (ce.members time data).lookup "data" = data.lookup "data" := by
  rw [lookup_optional (by simp [required]), lookup_omitEmpty, lookup_omitEmpty]
  simp

/-- The envelope is read back; what it had of data is its text without blanks. -/
theorem ofMembers_members (h : marshalData ce.data = .ok data)
    (htime : unmarshalTime time = some ce.time) :
    ofMembers ((ce.members time data).map fun m => (m.1, (m.2, print m.2))) =
      .ok { ce with
        data := (data.lookup "data").map fun t => text (String.ofList (print t))
        dataBase64 := if ce.dataBase64.getD [] = [] then none else ce.dataBase64 } := by
  have hct : field ((ce.members time data).map fun m => (m.1, (m.2, print m.2)))
      "datacontenttype" "" some = .ok ce.dataContentType := by
    by_cases hempty : ce.dataContentType = ""
    · rw [field_missing (by rw [lookup_dataContentType h, if_pos hempty]), hempty]
    · exact field_members (by rw [lookup_dataContentType h, if_neg hempty]) rfl
  have hbase64 : field ((ce.members time data).map fun m => (m.1, (m.2, print m.2)))
      "data_base64" none (fun s => (Base64.stdDecode s.toList).map some) =
        .ok (if ce.dataBase64.getD [] = [] then none else ce.dataBase64) := by
    by_cases hempty : ce.dataBase64.getD [] = []
    · rw [field_missing (by rw [lookup_dataBase64 h, if_pos hempty]), if_pos hempty]
    · refine field_members (by rw [lookup_dataBase64 h, if_neg hempty]) ?_
      rw [String.toList_ofList, Base64.stdDecode_stdEncode, if_neg hempty]
      cases hd : ce.dataBase64 with
      | none => rw [hd] at hempty; exact absurd rfl hempty
      | some bs => rfl
  have hreq {name s : String} {α : Type} {zero a : α} {read : String → Option α}
      (hs : (ce.required time).lookup name = some (.str s)) (hread : read s = some a) :
      field ((ce.members time data).map fun m => (m.1, (m.2, print m.2))) name zero read =
        .ok a :=
    field_members (by rw [lookup_required (by rw [hs]; rfl), hs]) hread
  rw [ofMembers, hreq rfl rfl, hreq rfl rfl, hreq rfl rfl, hreq rfl rfl,
    hreq rfl (by rwa [String.toList_ofList]), hct, hbase64,
    lookup_map fun t => (t, print t), lookup_data_members]
  simp only [bind, Except.bind, Option.map_map]
  rfl

theorem encode_ok {offset : Int} {body : List UInt8} (h : ce.encode offset = .ok body) :
    ∃ time data, marshalTime offset ce.time = .ok time ∧ marshalData ce.data = .ok data ∧
      body = text (String.ofList (print (.obj (ce.members time data)))) := by
  unfold encode at h
  split at h
  · cases h
  · next time htime =>
    split at h
    · cases h
    · next data hdata => exact ⟨time, data, htime, hdata, (Except.ok.inj h).symm⟩

end CloudEvent

variable {offset : Int} {m : Message} {body : List UInt8} {env : Headers}

theorem marshal_ok (h : marshal offset m = .ok (body, env)) :
    m.type ≠ "" ∧ (cloudEvent m).encode offset = .ok body ∧
      env = [(contentTypeHeader, contentTypeCloudEvents)] := by
  unfold marshal at h
  split_ifs at h with htype
  split at h
  · cases h
  · next hbody =>
    cases h
    exact ⟨htype, hbody, rfl⟩

/-- Data that is not JSON is the same, JSON data is the same JSON, and empty JSON data is null. -/
def SameData (ct : String) (sent got : List UInt8) : Prop :=
  if jsonData ct then
    if sent = [] then got = text "null" else ∃ t, parseData sent = some t ∧ parseData got = some t
  else got = sent

/-- What the envelope has of the data, and not both kinds of it. -/
theorem cloudEvent_data {data : List (String × Tree)}
    (h : CloudEvent.marshalData (cloudEvent m).data = .ok data) :
    SameData m.contentType m.data
      ((if (cloudEvent m).dataBase64.getD [] = [] then none else (cloudEvent m).dataBase64).getD
        (((data.lookup "data").map fun t => text (String.ofList (print t))).getD [])) ∧
    (data.lookup "data" = none ∨ (cloudEvent m).dataBase64.getD [] = []) := by
  unfold SameData
  cases hjson : jsonData m.contentType with
  | false =>
    have hdata : (cloudEvent m).data = none := by simp [cloudEvent, hjson]
    have hbase64 : (cloudEvent m).dataBase64 = some m.data := by simp [cloudEvent, hjson]
    obtain ⟨-, rfl⟩ | ⟨bs, t, hsome, -, -⟩ := CloudEvent.marshalData_ok h
    · refine ⟨?_, .inl rfl⟩
      rw [hbase64]
      by_cases hempty : m.data = [] <;> simp [hempty]
    · rw [hdata] at hsome
      cases hsome
  | true =>
    have hbase64 : (cloudEvent m).dataBase64 = none := by simp [cloudEvent, hjson]
    have hdata : (cloudEvent m).data = if m.data = [] then some (text "null") else some m.data := by
      simp [cloudEvent, hjson]
    obtain ⟨hnone, -⟩ | ⟨bs, t, hsome, ht, rfl⟩ := CloudEvent.marshalData_ok h
    · rw [hdata] at hnone
      split_ifs at hnone
    · refine ⟨?_, .inr (by rw [hbase64]; rfl)⟩
      have hgot : (([("data", t)] : List (String × Tree)).lookup "data").map
          (fun t => text (String.ofList (print t))) = some (text (String.ofList (print t))) := rfl
      rw [hbase64, hgot]
      rw [hdata] at hsome
      by_cases hempty : m.data = []
      · rw [if_pos hempty] at hsome ⊢
        cases hsome
        have hnull : parseData (text "null") = some .null := by
          rw [parseData, utf8_text]
          rfl
        rw [hnull] at ht
        cases ht
        rfl
      · rw [if_neg hempty] at hsome ⊢
        cases hsome
        refine ⟨t, ht, ?_⟩
        obtain ⟨s, -, hparse⟩ := bind_eq_some_iff.mp ht
        obtain ⟨hprint, hdepth⟩ := parse_printable hparse
        have hback : parseData (text (String.ofList (print t))) = some t := by
          rw [parseData, utf8_text, Option.bind_some, String.toList_ofList,
            parse_print hprint hdepth]
        exact hback

theorem unmarshal_marshal (hid : m.id ≠ "") (hmin : offset % 60 = 0)
    (h : marshal offset m = .ok (body, env)) (hs : Headers) :
    ∃ got, unmarshal body hs = .ok { m with data := got, topic := "", headers := [] } ∧
      SameData m.contentType m.data got := by
  obtain ⟨htype, hencode, -⟩ := marshal_ok h
  obtain ⟨time, data, htime, hdata, hbody⟩ := CloudEvent.encode_ok hencode
  have hdecode := CloudEvent.ofMembers_members hdata (unmarshalTime_marshalTime hmin htime)
  refine ⟨_, ?_, (cloudEvent_data hdata).1⟩
  rw [unmarshal, CloudEvent.decode, hbody, CloudEvent.parseBody_members hdata]
  dsimp only
  rw [hdecode]
  dsimp only
  have hfields : ¬ ((cloudEvent m).specVersion = "" ∨ (cloudEvent m).id = "" ∨
      (cloudEvent m).type = "") := by
    simp [cloudEvent, hid, htype]
  rw [if_neg hfields]
  rfl

theorem marshal_one_data (h : marshal offset m = .ok (body, env)) :
    ∃ ms, CloudEvent.parseBody body = some ms ∧
      (ms.lookup "data" = none ∨ ms.lookup "data_base64" = none) := by
  obtain ⟨-, hencode, -⟩ := marshal_ok h
  obtain ⟨time, data, -, hdata, hbody⟩ := CloudEvent.encode_ok hencode
  refine ⟨_, hbody ▸ CloudEvent.parseBody_members hdata, ?_⟩
  rw [lookup_map fun t => (t, print t), lookup_map fun t => (t, print t),
    CloudEvent.lookup_data_members, CloudEvent.lookup_dataBase64 hdata]
  obtain hnone | hempty := (cloudEvent_data hdata).2
  · left
    rw [hnone]
    rfl
  · right
    rw [if_pos hempty]
    rfl

end RoundTrip

end Skit.Broker
