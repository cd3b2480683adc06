import Skit.Lib.MediaType
import Skit.Lib.ResponseWriter
import Skit.Rest.Mask

/-!
# Entity tags

`ETag` encodes the response of a handler, sets a tag of its body and answers 304 when the request
lists the tag. It looks at the type of the response and not at its status, and it sets the tag
before it is known that the response will be written.
-/
namespace Skit.Rest
open List Function

open Lib Errs
open Http (Header Op Server Writer Final)

section Code

variable {A : Type} (refusal : Error A → Text) (render : Json Int → Text) (hash : Text → String)

/-- A text as the value of a header field. -/
def field (t : Text) : String := String.ofList (t.map fun b => Char.ofNat b.toNat)

/-- `Encode`, with the bytes of a JSON body. -/
def Encoder.encode : Encoder A → Except Text (Text × Text)
  | .nil | .noResponse => .ok ([], [])
  | .error e => (e.encode refusal).map fun p => (render p.1, p.2)
  | .value _ encoded => encoded

def passThrough : Encoder A → Bool
  | .nil | .noResponse | .error _ => true
  | .value _ _ => false

def statusOf : Encoder A → Nat
  | .error e => e.httpStatus
  | .value status _ => status.getD 200
  | _ => 200

/-- `rawEncoder`. -/
def rawEncoder (data contentType : Text) (status : Nat) : Encoder A :=
  .value (some status) (.ok (data, contentType))

/-- The tag of a body; `hash` is the hexadecimal text of half of its SHA-256 sum. -/
def etagOf (body : Text) : String := "\"" ++ hash body ++ "\""

def matchesETag (ifNoneMatch etag : String) : Bool :=
  if ifNoneMatch = "" then false
  else if MediaType.trimSpace ifNoneMatch.toList = "*".toList then true
  else (ifNoneMatch.toList.splitOn ',').any fun candidate =>
    MediaType.trimSpace candidate = etag.toList

/-- `ETag` after the handler: its calls on the writer, if there is one, and the response. -/
def eTag (writer : Bool) (ifNoneMatch : String) (resp : Encoder A) : List Op × Encoder A :=
  if passThrough resp then ([], resp)
  else if !writer then ([], resp)
  else
    match resp.encode refusal render with
    | .error _ => ([], resp)
    | .ok (body, contentType) =>
      let etag := etagOf hash body
      ([.header (·.set "Etag" etag)],
        if matchesETag ifNoneMatch etag then rawEncoder [] [] 304
        else rawEncoder body contentType (statusOf resp))

/-- The calls of `writeError`. -/
def writeErrorOps (e : Error A) : List Op :=
  let (data, contentType) := match (Encoder.error e).encode refusal render with
    | .ok p => p
    | .error _ => ([], [])
  [.header (·.set "Content-Type" (field contentType)), .writeHeader e.httpStatus, .write data]

/-- The calls of `Respond`. -/
def respondOps (gone : Bool) (resp : Encoder A) : List Op :=
  if gone then []
  else
    match resp with
    | .noResponse => []
    | .nil => [.writeHeader 204]
    | resp =>
      match resp.encode refusal render with
      | .error err => writeErrorOps refusal render (new internal err)
      | .ok (data, contentType) =>
        (if contentType ≠ [] then [.header (·.set "Content-Type" (field contentType))] else []) ++
          [.writeHeader (statusOf resp), .write data]

/-- What a handler has done when it returns. The writing is left to `Respond`, unless the response
says that it is done. -/
structure Result (A : Type) where
  ops : List Op
  resp : Encoder A
  edits : resp ≠ .noResponse → ∀ op ∈ ops, ∃ edit, op = .header edit

/-- The final response to calls on a writer with the given header. -/
def served (S : Server) (h : Header) (ops : List Op) : Option Final :=
  (((Writer.new h).run S ops).response S).map (·.final)

variable (S : Server) (h : Header) (gone : Bool) (ifNoneMatch : String) (res : Result A)

/-- `ServeHTTP` without the middleware. -/
def unwrapped : Option Final :=
  served S h (res.ops ++ respondOps refusal render gone res.resp)

/-- `ServeHTTP` with it. -/
def wrapped : Option Final :=
  let (ops, resp) := eTag refusal render hash true ifNoneMatch res.resp
  served S h (res.ops ++ ops ++ respondOps refusal render gone resp)

end Code

section Spec

variable {A : Type} (refusal : Error A → Text) (render : Json Int → Text) (hash : Text → String)

/-- The value is `*`, or one of its elements is the tag, weak or not. -/
def lists (ifNoneMatch etag : String) : Bool :=
  MediaType.trimSpace ifNoneMatch.toList = "*".toList ||
    (ifNoneMatch.toList.splitOn ',').any fun element =>
      MediaType.trimSpace element = etag.toList ||
        MediaType.trimSpace element = "W/".toList ++ etag.toList

/-- The encoded body that `Respond` writes. -/
def writtenBody (gone : Bool) (resp : Encoder A) : Option Text :=
  if gone then none
  else
    match resp with
    | .nil | .noResponse => none
    | resp => (resp.encode refusal render).toOption.map (·.1)

/-- The answer to a request that has the body. -/
def notModified (r : Final) (etag : String) : Final :=
  ⟨304, Http.Head.sent ⟨304, r.header.set "Etag" etag⟩, []⟩

/-- What the middleware has to make of a response. -/
def required (ifNoneMatch : String) (body : Option Text) (r : Option Final) :
    Option Final :=
  match body, r with
  | some body, some r =>
    let etag := etagOf hash body
    if 200 ≤ r.status ∧ r.status < 300 then
      some (if lists ifNoneMatch etag then notModified r etag
        else { r with header := r.header.set "Etag" etag })
    else some r
  | _, r => r

variable (S : Server) (h : Header) (gone : Bool) (ifNoneMatch : String) (res : Result A)

/-- The middleware touches successful responses only, and those as it should. -/
def OnlySuccess : Prop :=
  wrapped refusal render hash S h gone ifNoneMatch res =
    required hash ifNoneMatch (writtenBody refusal render gone res.resp)
      (unwrapped refusal render S h gone res)

/-- The header has the tag of the body when the handler returns. -/
def Tagged (body : Text) : Prop :=
  ((Writer.new h).run S res.ops).header "Etag" = [etagOf hash body]

/-- A status that leads to a successful response; after an informational one it is 200. -/
def Succeeds (status : Nat) : Prop :=
  (200 ≤ status ∧ status < 300) ∨ S.informational status = true

/-- What is asked of a value with a status and an encoded body. -/
structure RegularValue (status : Nat) (body : Text) : Prop where
  ended : gone = true → Tagged hash S h res body
  success : gone = false → Succeeds S status → lists ifNoneMatch (etagOf hash body) = true →
    matchesETag ifNoneMatch (etagOf hash body) = true
  refused : gone = false → status < 100 ∨ 999 < status →
    matchesETag ifNoneMatch (etagOf hash body) = false
  other : gone = false → ¬ Succeeds S status → 100 ≤ status → status ≤ 999 →
    Tagged hash S h res body ∧
      (matchesETag ifNoneMatch (etagOf hash body) = true → status = 304)

/-- The results with which the middleware is right. -/
def Regular : Prop :=
  match res.resp with
  | .nil | .noResponse | .value _ (.error _) => True
  | .error e => e.code = 0 → ∀ body, writtenBody refusal render gone (.error e) = some body →
      Tagged hash S h res body ∧ lists ifNoneMatch (etagOf hash body) = false
  | .value status (.ok (body, _)) =>
    RegularValue hash S h gone ifNoneMatch res (status.getD 200) body

end Spec

section Answers

variable {S : Server} {h : Header} {s : Int} {t : String} {data : Text}

theorem edits_run {ops : List Op} (hops : ∀ op ∈ ops, ∃ edit, op = .header edit) (rest : List Op) :
    (Writer.new h).run S (ops ++ rest) =
      (Writer.new ((Writer.new h).run S ops).header).run S rest := by
  induction ops generalizing h with
  | nil => rfl
  | cons op ops ih =>
    rw [forall_mem_cons] at hops
    obtain ⟨⟨edit, rfl⟩, hrest⟩ := hops
    exact ih (h := edit h) hrest

/-- The body that is sent of some bytes. -/
def bodyOf (S : Server) (s : Int) (h : Header) (data : Text) : Text :=
  if !Http.bodyAllowed s then []
  else
    match S.contentLength (h.get "Content-Length") with
    | some l => if l < data.length then [] else data
    | none => data

/-- The response with a final status. -/
def answer (S : Server) (s : Int) (h : Header) (data : Text) : Final :=
  ⟨s, Http.Head.sent ⟨s, h⟩, bodyOf S s h data⟩

theorem served_nil : served S h [] = some (answer S 200 h []) := by
  have hresponse : (Writer.new h).response S = some ⟨[], ⟨200, h⟩, []⟩ := by
    rw [Writer.response, if_neg (by simp [Writer.new]), Writer.writeHeader_ok rfl]
    rfl
  have hbody : bodyOf S 200 h [] = [] := by
    unfold bodyOf
    split_ifs
    · rfl
    · split
      · split_ifs <;> rfl
      · rfl
  rw [served, Writer.run, hresponse, Option.map_some, answer, hbody]
  rfl

/-- The final status after a status line. -/
def finalStatus (S : Server) (s : Int) : Int := if S.informational s then 200 else s

theorem final_append {w : Writer} (hp : w.panicked = false) (hsent : w.sent = some ⟨s, h⟩)
    (hwritten : w.written = 0) (hbody : w.body = []) (data : Text) :
    ((w.append S ⟨s, h⟩ data).response S).map (·.final) = some (answer S s h data) := by
  have hsame : (w.append S ⟨s, h⟩ data).body = bodyOf S s h data := by
    simp only [bodyOf, Writer.append, hwritten, hbody, Nat.zero_add, nil_append]
    cases Http.bodyAllowed s with
    | false => exact hbody
    | true =>
      cases S.contentLength (h.get "Content-Length") with
      | none => rfl
      | some l =>
        dsimp only
        split_ifs with hl
        · exact absurd hl Bool.false_ne_true
        · rfl
        · rfl
  have hkept : (w.append S ⟨s, h⟩ data).panicked = false ∧
      (w.append S ⟨s, h⟩ data).sent = some ⟨s, h⟩ := by
    obtain ⟨n, body, heq⟩ := w.append_eq S ⟨s, h⟩ data
    rw [heq]
    exact ⟨hp, hsent⟩
  rw [Writer.response_sent hkept.1 hkept.2, Option.map_some, hsame]
  rfl

theorem served_status (h : Header) (hs : ¬ (s < 100 ∨ 999 < s)) (data : Text) :
    served S h [.writeHeader s, .write data] = some (answer S (finalStatus S s) h data) := by
  have hrun : (Writer.new h).run S [.writeHeader s, .write data] =
      ((Writer.new h).writeHeader S s).write S data := by
    have hp : ((Writer.new h).writeHeader S s).panicked = false := by
      unfold Writer.writeHeader
      rw [if_neg (by simp [Writer.new]), if_neg hs]
      split_ifs <;> rfl
    rw [Writer.run, if_neg (by simp [Writer.new]), Writer.op, Writer.run, hp,
      if_neg Bool.false_ne_true, Writer.op, Writer.run]
  rw [served, hrun, finalStatus]
  cases hinf : S.informational s with
  | true =>
    have hfirst : (Writer.new h).writeHeader S s = { Writer.new h with informed := [⟨s, h⟩] } := by
      unfold Writer.writeHeader
      rw [if_neg (by simp [Writer.new]), if_neg hs, hinf]
      rfl
    rw [hfirst, Writer.write, Writer.writeHeader_ok rfl]
    exact final_append rfl rfl rfl rfl data
  | false =>
    rw [Writer.writeHeader_final rfl hs hinf, Writer.write_sent rfl]
    exact final_append rfl rfl rfl rfl data

theorem served_invalid (h : Header) (hs : s < 100 ∨ 999 < s) (data : Text) :
    served S h [.writeHeader s, .write data] = none := by
  have hrun : (Writer.new h).run S [.writeHeader s, .write data] =
      { Writer.new h with panicked := true } := by
    rw [Writer.run, if_neg (by simp [Writer.new]), Writer.op, Writer.writeHeader_invalid rfl hs,
      Writer.run, if_pos rfl]
  rw [served, hrun, Writer.response, if_pos rfl]
  rfl

theorem served_edit (edit : Header → Header) (h : Header) (ops : List Op) :
    served S h (.header edit :: ops) = served S (edit h) ops := rfl

end Answers

section Tags

variable {S : Server} {h : Header} {s : Int} {t : String} {data contentType : Text} {r : Final}

/-- The header with a content type, if there is one. -/
def withType (h : Header) (contentType : Text) : Header :=
  if contentType ≠ [] then h.set "Content-Type" (field contentType) else h

/-- The response with the tag. -/
def tag (r : Final) (t : String) : Final := { r with header := r.header.set "Etag" t }

theorem suppressed_subset {k : String} (hk : k ∈ Http.suppressedHeaders s) :
    k ∈ ["Content-Type", "Content-Length", "Transfer-Encoding"] := by
  unfold Http.suppressedHeaders at hk
  split_ifs at hk
  · exact hk
  · exact mem_cons_of_mem _ hk
  · cases hk

theorem etag_not_suppressed (s : Int) : "Etag" ∉ Http.suppressedHeaders s := by
  intro h
  exact absurd (suppressed_subset h) (by decide)

theorem withType_set (h : Header) (contentType : Text) (t : String) :
    withType (h.set "Etag" t) contentType = (withType h contentType).set "Etag" t := by
  unfold withType
  split_ifs
  · exact update_comm (by decide) _ _ _
  · rfl

theorem withType_of_ne {k : String} (hk : k ≠ "Content-Type") :
    withType h contentType k = h k := by
  unfold withType
  split_ifs
  · exact update_of_ne hk _ _
  · rfl

theorem sent_set (h : Header) (s : Int) (t : String) :
    Http.Head.sent ⟨s, h.set "Etag" t⟩ = (Http.Head.sent ⟨s, h⟩).set "Etag" t := by
  funext k
  by_cases hk : k = "Etag"
  · subst hk
    simp [Http.Head.sent, Header.set, etag_not_suppressed]
  · simp [Http.Head.sent, Header.set, update_of_ne hk]

theorem answer_set (S : Server) (s : Int) (h : Header) (t : String) (data : Text) :
    answer S s (h.set "Etag" t) data = tag (answer S s h data) t := by
  have hlength : (h.set "Etag" t).get "Content-Length" = h.get "Content-Length" := by
    rw [Http.Header.get, Http.Header.get, Http.Header.set, update_of_ne (by decide)]
  have hbody : bodyOf S s (h.set "Etag" t) data = bodyOf S s h data := by
    rw [bodyOf, bodyOf, hlength]
  rw [answer, tag, answer, sent_set, hbody]

theorem tag_eq_iff : tag r t = r ↔ r.header "Etag" = [t] := by
  obtain ⟨status, header, body⟩ := r
  rw [tag, Final.mk.injEq, Header.set, update_eq_self_iff]
  simp [eq_comm]

theorem answer_etag (S : Server) (s : Int) (h : Header) (data : Text) :
    (answer S s h data).header "Etag" = h "Etag" :=
  if_neg (etag_not_suppressed s)

theorem required_success (hr : 200 ≤ r.status ∧ r.status < 300) (hash : Text → String)
    (ifNoneMatch : String) (body : Text) : required hash ifNoneMatch (some body) (some r) =
      some (if lists ifNoneMatch (etagOf hash body) then notModified r (etagOf hash body)
        else tag r (etagOf hash body)) :=
  if_pos hr

theorem required_other (hr : ¬ (200 ≤ r.status ∧ r.status < 300))
    (hash : Text → String) (ifNoneMatch : String) (body : Text) :
    required hash ifNoneMatch (some body) (some r) = some r :=
  if_neg hr

theorem bodyOf_notModified (S : Server) (h : Header) (data : Text) : bodyOf S 304 h data = [] := by
  rw [bodyOf, if_pos (by decide)]

/-- The answer of the middleware is the response without what is not sent with it. -/
theorem notModified_answer (S : Server) (s : Int) (h : Header) (contentType : Text) (t : String)
    (data : Text) :
    notModified (answer S s (withType h contentType) data) t =
      answer S 304 (h.set "Etag" t) [] := by
  have hheader : Http.Head.sent
      ⟨304, (answer S s (withType h contentType) data).header.set "Etag" t⟩ =
      Http.Head.sent ⟨304, h.set "Etag" t⟩ := by
    funext k
    unfold Http.Head.sent
    by_cases hk : k ∈ Http.suppressedHeaders 304
    · rw [if_pos hk, if_pos hk]
    · rw [if_neg hk, if_neg hk]
      have hs : k ∉ Http.suppressedHeaders s := fun hmem => hk (suppressed_subset hmem)
      have hne : k ≠ "Content-Type" := fun heq => hk (heq ▸ mem_cons_self)
      by_cases htag : k = "Etag"
      · subst htag
        simp [Header.set]
      · have hanswer : (answer S s (withType h contentType) data).header k = h k :=
          (if_neg hs).trans (withType_of_ne hne)
        dsimp only
        rw [Header.set, Header.set, update_of_ne htag, update_of_ne htag, hanswer]
  rw [notModified, hheader, answer, bodyOf_notModified]

theorem lists_of_matchesETag {ifNoneMatch etag : String}
    (h : matchesETag ifNoneMatch etag = true) : lists ifNoneMatch etag = true := by
  unfold matchesETag at h
  unfold lists
  split_ifs at h with hempty hstar
  · simp [hstar]
  · obtain ⟨element, hmem, heq⟩ := any_eq_true.mp h
    have hany : ((ifNoneMatch.toList.splitOn ',').any fun element =>
        decide (MediaType.trimSpace element = etag.toList) ||
          decide (MediaType.trimSpace element = "W/".toList ++ etag.toList)) = true :=
      any_eq_true.mpr ⟨element, hmem, by rw [heq, Bool.true_or]⟩
    rw [hany, Bool.or_true]

theorem answer_withType (S : Server) (h : Header) (contentType data : Text) :
    answer S 304 (withType h contentType) data = answer S 304 h [] := by
  have hsent : Http.Head.sent ⟨304, withType h contentType⟩ = Http.Head.sent ⟨304, h⟩ := by
    funext k
    unfold Http.Head.sent
    by_cases hk : k ∈ Http.suppressedHeaders 304
    · rw [if_pos hk, if_pos hk]
    · have hne : k ≠ "Content-Type" := fun heq => hk (heq ▸ mem_cons_self)
      rw [if_neg hk, if_neg hk]
      exact withType_of_ne hne
  rw [answer, answer, hsent, bodyOf_notModified, bodyOf_notModified]

end Tags

section Results

variable {A : Type} {refusal : Error A → Text} {render : Json Int → Text} {hash : Text → String}
  {S : Server} {h hd : Header} {gone : Bool} {ifNoneMatch t : String} {res : Result A}
  {resp : Encoder A} {status : Option Nat} {data contentType : Text} {s : Nat}

/-- The header when the handler returns. -/
def Result.header (res : Result A) (S : Server) (h : Header) : Header :=
  ((Writer.new h).run S res.ops).header

theorem served_result (hne : res.resp ≠ .noResponse) (rest : List Op) :
    served S h (res.ops ++ rest) = served S (res.header S h) rest := by
  rw [served, edits_run (res.edits hne)]
  rfl

theorem served_respond {data contentType : Text} (hresp : resp ≠ .nil ∧ resp ≠ .noResponse)
    (hencode : resp.encode refusal render = .ok (data, contentType)) :
    served S h (respondOps refusal render false resp) =
      served S (withType h contentType) [.writeHeader (statusOf resp), .write data] := by
  have hops : respondOps refusal render false resp =
      (if contentType ≠ [] then [.header (·.set "Content-Type" (field contentType))] else []) ++
        [.writeHeader (statusOf resp), .write data] := by
    cases resp with
    | nil => exact absurd rfl hresp.1
    | noResponse => exact absurd rfl hresp.2
    | error e =>
      simp only [respondOps, hencode]
      rfl
    | value status encoded =>
      simp only [respondOps, hencode]
      rfl
  rw [hops, withType]
  split_ifs
  · exact served_edit _ _ _
  · rfl

theorem served_raw (data contentType : Text) (status : Nat) :
    served S h (respondOps refusal render false (rawEncoder data contentType status)) =
      served S (withType h contentType) [.writeHeader status, .write data] := by
  have hresp : (rawEncoder data contentType status : Encoder A) ≠ .nil ∧
      (rawEncoder data contentType status : Encoder A) ≠ .noResponse := ⟨nofun, nofun⟩
  exact served_respond hresp rfl

theorem unwrapped_value (hres : res.resp = .value status (.ok (data, contentType))) :
    unwrapped refusal render S h gone res =
      if gone then some (answer S 200 (res.header S h) [])
      else served S (withType (res.header S h) contentType)
        [.writeHeader (status.getD 200 : Nat), .write data] := by
  rw [unwrapped, served_result (by rw [hres]; nofun), hres]
  cases gone with
  | true => exact served_nil
  | false => exact served_respond ⟨nofun, nofun⟩ rfl

theorem wrapped_value (hres : res.resp = .value status (.ok (data, contentType))) :
    wrapped refusal render hash S h gone ifNoneMatch res =
      if gone then some (answer S 200 ((res.header S h).set "Etag" (etagOf hash data)) [])
      else if matchesETag ifNoneMatch (etagOf hash data) then
        some (answer S 304 ((res.header S h).set "Etag" (etagOf hash data)) [])
      else served S (withType ((res.header S h).set "Etag" (etagOf hash data)) contentType)
        [.writeHeader (status.getD 200 : Nat), .write data] := by
  have hfinal : finalStatus S 304 = 304 := by
    rw [finalStatus, if_neg]
    intro hinf
    have := S.informational_range 304 hinf
    omega
  have hnotModified := served_status (S := S) ((res.header S h).set "Etag" (etagOf hash data))
    (s := 304) (by omega) []
  rw [hfinal] at hnotModified
  have hwrapped : wrapped refusal render hash S h gone ifNoneMatch res = served S h (res.ops ++
      (.header (·.set "Etag" (etagOf hash data)) :: respondOps refusal render gone
        (if matchesETag ifNoneMatch (etagOf hash data) then rawEncoder [] [] 304
          else rawEncoder data contentType (status.getD 200)))) := by
    rw [wrapped, hres, ← singleton_append, ← append_assoc]
    rfl
  rw [hwrapped, served_result (by rw [hres]; nofun), served_edit]
  cases gone with
  | true => exact served_nil
  | false =>
    rw [if_neg Bool.false_ne_true]
    by_cases hm : matchesETag ifNoneMatch (etagOf hash data) = true
    · rw [if_pos hm, if_pos hm, served_raw]
      exact hnotModified
    · rw [if_neg hm, if_neg hm, served_raw]

theorem finalStatus_of_not_succeeds (hs : ¬ Succeeds S s) :
    finalStatus S s = s ∧ ¬ (200 ≤ finalStatus S s ∧ finalStatus S s < 300) := by
  rw [Succeeds, not_or] at hs
  have hfinal : finalStatus S s = s := if_neg hs.2
  refine ⟨hfinal, fun h => hs.1 ?_⟩
  rw [hfinal] at h
  omega

theorem finalStatus_of_succeeds (hs : Succeeds S s) :
    200 ≤ finalStatus S s ∧ finalStatus S s < 300 := by
  unfold finalStatus
  split_ifs with hinf
  · omega
  · rcases hs with hs | hs
    · omega
    · exact absurd hs hinf

theorem not_succeeds_of_invalid (hs : s < 100 ∨ 999 < s) : ¬ Succeeds S s := by
  rintro (h | h)
  · omega
  · have := S.informational_range s h
    omega

theorem some_tag_eq_iff {s : Int} (data : Text) :
    some (tag (answer S s hd data) t) = some (answer S s hd data) ↔ hd "Etag" = [t] := by
  rw [Option.some.injEq, tag_eq_iff, answer_etag]

/-- With a status that is sent and leads to success. -/
theorem success_iff (hs : Succeeds S s) (hvalid : ¬ ((s : Int) < 100 ∨ 999 < (s : Int))) :
    (if matchesETag ifNoneMatch t then some (answer S 304 (hd.set "Etag" t) [])
      else served S (withType (hd.set "Etag" t) contentType) [.writeHeader s, .write data]) =
      some (if lists ifNoneMatch t then
        notModified (answer S (finalStatus S s) (withType hd contentType) data) t
        else tag (answer S (finalStatus S s) (withType hd contentType) data) t) ↔
      (lists ifNoneMatch t = true → matchesETag ifNoneMatch t = true) := by
  rw [served_status _ hvalid, withType_set, notModified_answer, answer_set, answer_set]
  by_cases hm : matchesETag ifNoneMatch t = true
  · rw [if_pos hm, if_pos (lists_of_matchesETag hm)]
    exact iff_of_true rfl fun _ => hm
  · rw [if_neg hm]
    by_cases hl : lists ifNoneMatch t = true
    · rw [if_pos hl]
      refine iff_of_false (fun heq => ?_) fun h => hm (h hl)
      have hstatus := congrArg Final.status (Option.some.inj heq)
      have hfinal := finalStatus_of_succeeds hs
      simp only [tag, answer] at hstatus
      omega
    · rw [if_neg hl]
      exact iff_of_true rfl fun h => absurd h hl

/-- With another status that is sent. -/
theorem other_iff (hs : ¬ Succeeds S s) (hvalid : ¬ ((s : Int) < 100 ∨ 999 < (s : Int))) :
    (if matchesETag ifNoneMatch t then some (answer S 304 (hd.set "Etag" t) [])
      else served S (withType (hd.set "Etag" t) contentType) [.writeHeader s, .write data]) =
      some (answer S (finalStatus S s) (withType hd contentType) data) ↔
      hd "Etag" = [t] ∧ (matchesETag ifNoneMatch t = true → s = 304) := by
  rw [served_status _ hvalid, (finalStatus_of_not_succeeds hs).1, withType_set, answer_set,
    answer_set]
  have htype : withType hd contentType "Etag" = hd "Etag" := withType_of_ne (by decide)
  by_cases hm : matchesETag ifNoneMatch t = true
  · rw [if_pos hm]
    by_cases h304 : s = 304
    · subst h304
      have h304 : ((304 : Nat) : Int) = 304 := rfl
      rw [h304, answer_withType, some_tag_eq_iff]
      exact (and_iff_left fun _ => rfl).symm
    · refine iff_of_false (fun heq => h304 ?_) fun h => h304 (h.2 hm)
      have hstatus := congrArg Final.status (Option.some.inj heq)
      simp only [tag, answer] at hstatus
      omega
  · rw [if_neg hm, some_tag_eq_iff, htype]
    exact (and_iff_left fun h => absurd h hm).symm

theorem onlySuccess_value (hres : res.resp = .value status (.ok (data, contentType))) :
    OnlySuccess refusal render hash S h gone ifNoneMatch res ↔
      RegularValue hash S h gone ifNoneMatch res (status.getD 200) data := by
  rw [OnlySuccess, wrapped_value hres, unwrapped_value hres, hres]
  generalize status.getD 200 = s
  cases gone with
  | true =>
    have hiff : some (answer S 200 ((res.header S h).set "Etag" (etagOf hash data)) []) =
        some (answer S 200 (res.header S h) []) ↔ Tagged hash S h res data := by
      rw [answer_set, some_tag_eq_iff]
      exact Iff.rfl
    exact hiff.trans ⟨fun h => ⟨fun _ => h, nofun, nofun, nofun⟩, fun h => h.ended rfl⟩
  | false =>
    have hbody : writtenBody refusal render false (.value status (.ok (data, contentType))) =
        some data := rfl
    rw [if_neg Bool.false_ne_true, if_neg Bool.false_ne_true]
    by_cases hvalid : (s : Int) < 100 ∨ 999 < (s : Int)
    · -- nothing is sent without the middleware
      have hinvalid : s < 100 ∨ 999 < s := by omega
      have hs := not_succeeds_of_invalid (S := S) hinvalid
      rw [served_invalid _ hvalid, served_invalid _ hvalid]
      have hiff : (if matchesETag ifNoneMatch (etagOf hash data) then
          some (answer S 304 ((res.header S h).set "Etag" (etagOf hash data)) []) else none) =
          none ↔ matchesETag ifNoneMatch (etagOf hash data) = false := by
        simp
      refine hiff.trans ⟨fun h => ⟨nofun, fun _ h => absurd h hs, fun _ _ => h, ?_⟩,
        fun h => h.refused rfl hinvalid⟩
      intro _ _ _ _
      omega
    · by_cases hs : Succeeds S s
      · have hfinal := finalStatus_of_succeeds hs
        rw [served_status (withType (res.header S h) contentType) hvalid, hbody,
          required_success hfinal]
        refine (success_iff hs hvalid).trans ⟨fun h => ⟨nofun, fun _ _ => h, ?_, ?_⟩,
          fun h => h.success rfl hs⟩
        · intro _ _
          omega
        · intro _ hnot
          exact absurd hs hnot
      · have hfinal := finalStatus_of_not_succeeds hs
        rw [served_status (withType (res.header S h) contentType) hvalid, hbody,
          required_other hfinal.2]
        refine (other_iff hs hvalid).trans ⟨fun h => ⟨nofun, ?_, ?_, fun _ _ _ _ => h⟩,
          fun h => h.other rfl hs (by omega) (by omega)⟩
        · intro _ hyes
          exact absurd hyes hs
        · intro _ _
          omega

theorem httpStatus_range (c : Code) : Errs.httpStatus c = 200 ∧ c = 0 ∨
    300 ≤ Errs.httpStatus c ∧ Errs.httpStatus c ≤ 599 ∧ c ≠ 0 := by
  have hpairs : ∀ p ∈ codeStatus, p.2 = 200 ∧ p.1 = 0 ∨ 300 ≤ p.2 ∧ p.2 ≤ 599 ∧ p.1 ≠ 0 := by
    decide
  unfold Errs.httpStatus
  cases hlookup : codeStatus.lookup c with
  | none =>
    refine .inr ⟨by decide, by decide, fun hc => ?_⟩
    rw [hc] at hlookup
    exact absurd hlookup (by decide)
  | some v =>
    obtain ⟨_, _, hsplit, _⟩ := lookup_eq_some_iff.mp hlookup
    exact hpairs (c, v) (hsplit ▸ by simp)

theorem wrapped_same (hsame : eTag refusal render hash true ifNoneMatch res.resp = ([], res.resp)) :
    wrapped refusal render hash S h gone ifNoneMatch res =
      unwrapped refusal render S h gone res := by
  rw [wrapped, hsame]
  dsimp only
  rw [append_nil, unwrapped]

theorem onlySuccess_none (hres : res.resp = resp)
    (hsame : eTag refusal render hash true ifNoneMatch resp = ([], resp))
    (hbody : writtenBody refusal render gone resp = none) :
    OnlySuccess refusal render hash S h gone ifNoneMatch res := by
  subst hres
  rw [OnlySuccess, wrapped_same hsame, hbody]
  rfl

theorem unwrapped_error {e : Error A} {body : Text} (hres : res.resp = .error e)
    (hbody : writtenBody refusal render gone (.error e) = some body) :
    ∃ contentType, unwrapped refusal render S h gone res =
      some (answer S e.httpStatus (withType (res.header S h) contentType) body) := by
  unfold writtenBody at hbody
  split_ifs at hbody with hgone
  obtain ⟨⟨data, contentType⟩, hok, rfl⟩ := Option.map_eq_some_iff.mp hbody
  have hencode : (Encoder.error e).encode refusal render = .ok (data, contentType) := by
    cases hcase : (Encoder.error e).encode refusal render with
    | error err =>
      rw [hcase] at hok
      cases hok
    | ok p =>
      rw [hcase] at hok
      cases hok
      rfl
  have hrange := httpStatus_range e.code
  have hstatus : 200 ≤ e.httpStatus ∧ e.httpStatus ≤ 599 := by
    unfold Error.httpStatus
    omega
  have hfinal : finalStatus S e.httpStatus = e.httpStatus := by
    refine if_neg fun hinf => ?_
    have := S.informational_range _ hinf
    omega
  have hresp : Encoder.error e ≠ .nil ∧ Encoder.error e ≠ .noResponse := ⟨nofun, nofun⟩
  refine ⟨contentType, ?_⟩
  rw [unwrapped, served_result (by rw [hres]; nofun), hres, Bool.eq_false_iff.mpr hgone,
    served_respond hresp hencode, ← hfinal]
  exact served_status _ (by simp only [statusOf]; omega) data

theorem onlySuccess_error {e : Error A} (hres : res.resp = .error e) :
    OnlySuccess refusal render hash S h gone ifNoneMatch res ↔
      (e.code = 0 → ∀ body, writtenBody refusal render gone (.error e) = some body →
        Tagged hash S h res body ∧ lists ifNoneMatch (etagOf hash body) = false) := by
  have hsame : eTag refusal render hash true ifNoneMatch res.resp = ([], res.resp) := by
    rw [hres]
    rfl
  cases hbody : writtenBody refusal render gone (.error e) with
  | none =>
    exact iff_of_true (onlySuccess_none rfl hsame (hres ▸ hbody)) (fun _ => nofun)
  | some body =>
    obtain ⟨contentType, hunwrapped⟩ := unwrapped_error (S := S) (h := h) hres hbody
    rw [OnlySuccess, wrapped_same hsame, hres, hbody, hunwrapped]
    have htype : withType (res.header S h) contentType "Etag" = res.header S h "Etag" :=
      withType_of_ne (by decide)
    rcases httpStatus_range e.code with ⟨h200, hcode⟩ | ⟨hge, _, hcode⟩
    · have hstatus : (e.httpStatus : Int) = 200 := by rw [Error.httpStatus, h200]; rfl
      rw [hstatus]
      rw [required_success (by simp [answer]), notModified_answer]
      by_cases hl : lists ifNoneMatch (etagOf hash body) = true
      · rw [if_pos hl]
        refine iff_of_false (fun heq => ?_) fun h => ?_
        · exact absurd (congrArg Final.status (Option.some.inj heq)) (by simp [answer])
        · rw [(h hcode body rfl).2] at hl
          exact absurd hl Bool.false_ne_true
      · rw [if_neg hl, eq_comm]
        refine (some_tag_eq_iff body).trans ?_
        rw [htype]
        refine ⟨fun h _ b hb => ?_, fun h => (h hcode body rfl).1⟩
        cases hb
        exact ⟨h, Bool.eq_false_iff.mpr hl⟩
    · rw [required_other (by simp only [answer, Error.httpStatus]; omega)]
      exact iff_of_true rfl fun h => absurd h hcode

/-- For every result of a handler, every `If-None-Match` and every server. -/
theorem onlySuccess_iff (A : Type) (refusal : Error A → Text) (render : Json Int → Text)
    (hash : Text → String) (S : Server) (h : Header) (gone : Bool) (ifNoneMatch : String)
    (res : Result A) : OnlySuccess refusal render hash S h gone ifNoneMatch res ↔
      Regular refusal render hash S h gone ifNoneMatch res := by
  unfold Regular
  cases hres : res.resp with
  | nil => exact iff_of_true (onlySuccess_none hres rfl (by cases gone <;> rfl)) trivial
  | noResponse => exact iff_of_true (onlySuccess_none hres rfl (by cases gone <;> rfl)) trivial
  | error e => exact onlySuccess_error hres
  | value status encoded =>
    cases encoded with
    | error err => exact iff_of_true (onlySuccess_none hres rfl (by cases gone <;> rfl)) trivial
    | ok p => exact onlySuccess_value hres

end Results

/-- A server without informational answers. -/
def plainServer : Server where
  informational _ := false
  informational_range := by simp
  contentLength _ := none
  contentLength_empty := rfl

/-- What a handler returns with `JSONStatus(…, 404)`. -/
def missing : Result Unit where
  ops := []
  resp := .value (some 404) (.ok (text "null", text "application/json"))
  edits := by simp

/-- A missing resource is reported as not modified. -/
theorem missing_notModified :
    (unwrapped (fun _ => []) (fun _ => []) plainServer (fun _ => []) false missing).map
        (·.status) = some 404 ∧
      (wrapped (fun _ => []) (fun _ => []) (fun _ => "74234e98afe7498fb5daf1f36ac2d78a")
        plainServer (fun _ => []) false "*" missing).map (·.status) = some 304 ∧
      ¬ OnlySuccess (fun _ => []) (fun _ => []) (fun _ => "74234e98afe7498fb5daf1f36ac2d78a")
        plainServer (fun _ => []) false "*" missing := by
  have hun : (unwrapped (fun _ => []) (fun _ => []) plainServer (fun _ => []) false missing).map
      (·.status) = some 404 := by decide +kernel
  have hwr : (wrapped (fun _ => []) (fun _ => []) (fun _ => "74234e98afe7498fb5daf1f36ac2d78a")
      plainServer (fun _ => []) false "*" missing).map (·.status) = some 304 := by decide +kernel
  refine ⟨hun, hwr, fun h => ?_⟩
  have hstatus := congrArg (Option.map (·.status)) h
  rw [hwr] at hstatus
  exact absurd hstatus (by decide +kernel)

end Skit.Rest
