import Skit.Errs.Error

/-!
# The application middleware and what a client sees

A handler returns a response encoder or panics. The standard chain wraps it, outermost first, in
the outcome counter, `LocalizeErrors`, `MaskInternal`, `Errors` and `Panics`, and `ServeHTTP` writes
what comes out of it. A server fault that the chain sees is replaced by a generic error of its
code. A value that is no error passes the chain, and its encoding can still fail after it.
-/
namespace Skit.Rest
open Option

open Lib Errs

variable {A Q : Type}

/-- `ResponseEncoder`: nil, `NoResponse`, an error, or any other value with its status, if it has
one, and what its `Encode` returns. -/
inductive Encoder (A : Type)
  | nil
  | noResponse
  | error (e : Error A)
  | value (status : Option Nat) (encoded : Except Text (Text × Text))

inductive Outcome (A : Type)
  | returned (resp : Encoder A)
  | panicked (value : Text)

/-- What a middleware leaves in the metrics, the log and the span. -/
inductive Event
  | counted (code : Text)
  | failed (code : Text) (status : Nat) (detail : Text)
  | masked (code : Text)
  | recovered (value : Text)
  deriving DecidableEq

/-- `HandlerFunc`, on a request with its context. -/
abbrev Handler (Q A : Type) := Q → Outcome A × List Event

abbrev Mid (Q A : Type) := Handler Q A → Handler Q A

/-- `ChainMiddleware`. -/
def chainMiddleware (h : Handler Q A) (mw : List (Mid Q A)) : Handler Q A :=
  mw.foldr (fun m h => m h) h

section I18n

/-- The catalogs: the message of an id with its data, if there is one. -/
structure Translator (A : Type) where
  localizers : Text → Option (Text → Option A → Option Text)
  defaultLang : Text

def Translator.localizerFor (t : Translator A) (lang : Text) :
    Option (Text → Option A → Option Text) :=
  (t.localizers lang).or (t.localizers t.defaultLang)

def Translator.localizeData (t : Translator A) (lang id : Text) (data : Option A) : Text :=
  match t.localizerFor lang with
  | none => id
  | some loc => (loc id data).getD id

def Translator.translateError (t : Translator A) (lang : Text) (e : Error A) : Error A :=
  let id := if e.messageID = [] then e.codeStr else e.messageID
  let msg := t.localizeData lang id e.args
  if msg = id then e else { e with message := msg }

theorem translateError_eq (t : Translator A) (lang : Text) (e : Error A) :
    t.translateError lang e = { e with message := (t.translateError lang e).message } := by
  simp only [Translator.translateError]
  generalize (if e.messageID = [] then e.codeStr else e.messageID) = id
  by_cases h : t.localizeData lang id e.args = id
  · rw [if_pos h]
  · rw [if_neg h]

end I18n

section Middleware

/-- A middleware that looks at the response of the handler. -/
def after (f : Q → Encoder A → Encoder A × List Event) : Mid Q A := fun next q =>
  match next q with
  | (.returned resp, events) => (.returned (f q resp).1, events ++ (f q resp).2)
  | (.panicked v, events) => (.panicked v, events)

def outcome : Encoder A → Text
  | .error e => e.codeStr
  | _ => text "ok"

def metrics : Mid Q A := after fun _ resp => (resp, [.counted (outcome resp)])

/-- The error in the language of the request; without a translator or a language it stays. -/
def localized (tr : Option (Translator A)) (lang : Option (Q → Text)) (q : Q) (e : Error A) :
    Error A :=
  match tr, lang with
  | some tr, some lang => tr.translateError (lang q) e
  | _, _ => e

def localizeErrors (tr : Option (Translator A)) (lang : Option (Q → Text)) : Mid Q A :=
  after fun q resp =>
    match resp with
    | .error e => (.error (localized tr lang q e), [])
    | resp => (resp, [])

def maskInternal (log mask : Bool) : Mid Q A := after fun _ resp =>
  match resp with
  | .error e =>
    if e.httpStatus < 500 then (.error e, [])
    else if !mask then (.error e, [])
    else (.error (newError e.code (text "internal server error")),
      if log then [.masked e.codeStr] else [])
  | resp => (resp, [])

def errors (log : Bool) : Mid Q A := after fun _ resp =>
  match resp with
  | .error e =>
    if e.httpStatus < 500 then (.error e, [])
    else (.error e, if log then [.failed e.codeStr e.httpStatus e.message] else [])
  | resp => (resp, [])

def panics (log : Bool) : Mid Q A := fun next q =>
  match next q with
  | (.returned resp, events) => (.returned resp, events)
  | (.panicked v, events) =>
    (.returned (.error { newError internal (text "internal server error") with
      messageID := text "internal.panic" }), events ++ if log then [.recovered v] else [])

structure Config (Q A : Type) where
  translator : Option (Translator A)
  lang : Option (Q → Text)
  logger : Bool
  maskInternal : Bool
  metrics : Bool

/-- `Chain`: `Errors` does the logging of what `MaskInternal` hides. -/
def chain (cfg : Config Q A) : List (Mid Q A) :=
  (if cfg.metrics then [metrics] else []) ++
    [localizeErrors cfg.translator cfg.lang, maskInternal false cfg.maskInternal,
      errors cfg.logger, panics cfg.logger]

end Middleware

section Respond

/-- An error is written as the tree of its JSON text, another value as its bytes. -/
inductive Body
  | json (j : Json Int)
  | bytes (b : Text)

/-- What is sent; `contentType` is the header that `Respond` sets. -/
structure Response where
  status : Nat
  contentType : Option Text
  body : Body

variable (refusal : Error A → Text)

def writeError (e : Error A) : Response :=
  match e.encode refusal with
  | .ok (data, contentType) => ⟨e.httpStatus, some contentType, .json data⟩
  | .error _ => ⟨e.httpStatus, some [], .bytes []⟩

/-- `Respond`; `gone` says that the context of the request has ended. -/
def respond (gone : Bool) (resp : Encoder A) : Option Response :=
  if gone then none
  else
    match resp with
    | .noResponse => none
    | .nil => some ⟨204, none, .bytes []⟩
    | .error e =>
      match e.encode refusal with
      | .ok (data, contentType) =>
        some ⟨e.httpStatus, if contentType = [] then none else some contentType, .json data⟩
      | .error err => some (writeError refusal (new internal err))
    | .value status encoded =>
      match encoded with
      | .ok (data, contentType) =>
        some ⟨status.getD 200, if contentType = [] then none else some contentType, .bytes data⟩
      | .error err => some (writeError refusal (new internal err))

/-- `HandlerFunc.ServeHTTP`. A panic that leaves the handler is left to the server. -/
def serveHTTP (gone : Q → Bool) (h : Handler Q A) (q : Q) : Except Text (Option Response) :=
  match (h q).1 with
  | .panicked v => .error v
  | .returned resp => .ok (respond refusal (gone q) resp)

end Respond

section Faults

/-- The code of an outcome that is a server fault. -/
def faultCode : Outcome A → Option Code
  | .panicked _ => some internal
  | .returned (.error e) => if e.httpStatus < 500 then none else some e.code
  | .returned (.value _ (.error _)) => some internal
  | .returned _ => none

/-- The text of the error of a value whose encoding fails. -/
def unencoded : Outcome A → Option Text
  | .returned (.value _ (.error err)) => some err
  | _ => none

/-- The error that stands for every fault of a code that the chain sees. -/
def Config.generic (cfg : Config Q A) (q : Q) (code : Code) : Error A :=
  localized cfg.translator cfg.lang q (newError code (text "internal server error"))

/-- What comes out of the chain when it masks. -/
def Config.masked (cfg : Config Q A) (q : Q) : Outcome A → Encoder A
  | .panicked _ => .error (cfg.generic q internal)
  | .returned (.error e) =>
    if e.httpStatus < 500 then .error (localized cfg.translator cfg.lang q e)
    else .error (cfg.generic q e.code)
  | .returned resp => resp

variable {cfg : Config Q A} {h : Handler Q A} {q : Q} {resp : Encoder A} {o : Outcome A}

theorem after_fst (f : Q → Encoder A → Encoder A × List Event)
    (hr : (h q).1 = .returned resp) : (after f h q).1 = .returned (f q resp).1 := by
  rw [after]
  split
  · next heq =>
    rw [heq] at hr
    cases hr
    rfl
  · next heq =>
    rw [heq] at hr
    cases hr

/-- The outcome of `Panics`: it returns. -/
def recovered : Outcome A → Encoder A
  | .returned resp => resp
  | .panicked _ => .error { newError internal (text "internal server error") with
      messageID := text "internal.panic" }

theorem panics_fst (log : Bool) : (panics log h q).1 = .returned (recovered (h q).1) := by
  rw [panics]
  split
  · next heq => rw [heq, recovered]
  · next heq => rw [heq, recovered]

theorem metrics_fst (hr : (h q).1 = .returned resp) : (metrics h q).1 = .returned resp := by
  rw [metrics, after_fst _ hr]

theorem errors_fst (log : Bool) (hr : (h q).1 = .returned resp) :
    (errors log h q).1 = .returned resp := by
  rw [errors, after_fst _ hr]
  cases resp with
  | error e =>
    dsimp only
    split <;> rfl
  | _ => rfl

/-- The response after `MaskInternal`. -/
def hidden : Encoder A → Encoder A
  | .error e =>
    if e.httpStatus < 500 then .error e
    else .error (newError e.code (text "internal server error"))
  | resp => resp

theorem maskInternal_fst (log : Bool) (hr : (h q).1 = .returned resp) :
    (maskInternal log true h q).1 = .returned (hidden resp) := by
  rw [maskInternal, after_fst _ hr]
  cases resp with
  | error e =>
    dsimp only [hidden]
    split <;> rfl
  | _ => rfl

variable (cfg) in
theorem localizeErrors_hidden (o : Outcome A)
    (hr : (h q).1 = .returned (hidden (recovered o))) :
    (localizeErrors cfg.translator cfg.lang h q).1 = .returned (cfg.masked q o) := by
  rw [localizeErrors, after_fst _ hr]
  cases o with
  | panicked v => rfl
  | returned resp =>
    cases resp with
    | error e =>
      by_cases he : e.httpStatus < 500
      · simp only [recovered, hidden, Config.masked, if_pos he]
      · simp only [recovered, hidden, Config.masked, if_neg he]
        rfl
    | _ => rfl

theorem chain_fst (hmask : cfg.maskInternal = true) :
    (chainMiddleware h (chain cfg) q).1 = .returned (cfg.masked q (h q).1) := by
  have hout := localizeErrors_hidden cfg (h q).1
    (maskInternal_fst false (errors_fst cfg.logger (panics_fst cfg.logger)))
  rw [chain, hmask]
  cases cfg.metrics with
  | false => exact hout
  | true => exact metrics_fst hout

theorem after_snd (f : Q → Encoder A → Encoder A × List Event)
    (hr : (h q).1 = .returned resp) : (after f h q).2 = (h q).2 ++ (f q resp).2 := by
  rw [after]
  split
  · next heq =>
    rw [heq] at hr ⊢
    cases hr
    rfl
  · next heq =>
    rw [heq] at hr
    cases hr

theorem mem_after (f : Q → Encoder A → Encoder A × List Event) {ev : Event} (hm : ev ∈ (h q).2) :
    ev ∈ (after f h q).2 := by
  rw [after]
  split
  · next heq =>
    rw [heq] at hm
    exact List.mem_append_left _ hm
  · next heq => rwa [heq] at hm

/-- The detail of an error that the chain hides is in the log. -/
theorem mem_log_of_fault {e : Error A} (hlog : cfg.logger = true) (he : ¬ e.httpStatus < 500)
    (hr : (h q).1 = .returned (.error e)) :
    .failed e.codeStr e.httpStatus e.message ∈ (chainMiddleware h (chain cfg) q).2 := by
  have hpanics : (panics cfg.logger h q).1 = .returned (.error e) := by
    rw [panics_fst, hr, recovered]
  have herrors : .failed e.codeStr e.httpStatus e.message ∈
      (errors cfg.logger (panics cfg.logger h) q).2 := by
    rw [errors, after_snd _ hpanics]
    simp only [if_neg he, hlog, if_true]
    exact List.mem_append_right _ (List.mem_singleton_self _)
  have hmask : .failed e.codeStr e.httpStatus e.message ∈ (maskInternal false cfg.maskInternal
      (errors cfg.logger (panics cfg.logger h)) q).2 := mem_after _ herrors
  have hout : .failed e.codeStr e.httpStatus e.message ∈ (localizeErrors cfg.translator cfg.lang
      (maskInternal false cfg.maskInternal (errors cfg.logger (panics cfg.logger h))) q).2 :=
    mem_after _ hmask
  unfold chain
  cases cfg.metrics with
  | false => exact hout
  | true => exact mem_after (fun _ resp => (resp, [.counted (outcome resp)])) hout

theorem masked_of_fault {code : Code} (hf : faultCode o = some code)
    (hu : unencoded o = none) : cfg.masked q o = .error (cfg.generic q code) := by
  cases o with
  | panicked v =>
    cases hf
    rfl
  | returned resp =>
    cases resp with
    | nil => cases hf
    | noResponse => cases hf
    | error e =>
      by_cases he : e.httpStatus < 500
      · simp only [faultCode, if_pos he] at hf
        cases hf
      · simp only [faultCode, if_neg he] at hf
        cases hf
        simp only [Config.masked, if_neg he]
    | value status encoded =>
      cases encoded with
      | ok out => cases hf
      | error err => cases hu

variable (cfg q) in
theorem fault_of_unencoded {err : Text} (hu : unencoded o = some err) :
    faultCode o = some internal ∧ ∃ status, cfg.masked q o = .value status (.error err) := by
  unfold unencoded at hu
  split at hu
  · cases hu
    exact ⟨rfl, _, rfl⟩
  · cases hu

end Faults

section Internal

variable (refusal : Error A → Text) {cfg : Config Q A} {q : Q}

/-- The response with the code internal and a detail, if there is one that JSON can carry. -/
def internalResponse : Option String → Response
  | some detail => ⟨500, some (text "application/json"),
      .json (.obj [("code", .str "internal"), ("detail", .str detail)])⟩
  | none => ⟨500, some [], .bytes []⟩

theorem internalResponse_inj {d d' : Option String} :
    internalResponse d = internalResponse d' ↔ d = d' := by
  constructor
  · intro h
    cases d <;> cases d' <;> cases h <;> rfl
  · exact congrArg internalResponse

theorem writeError_internal (err : Text) :
    writeError refusal (new internal err) = internalResponse (utf8 (sanitize err)) := by
  rw [writeError, new, encode_newError]
  cases utf8 (sanitize err) <;> rfl

/-- The detail of a fault with the code internal that the chain has replaced. -/
def Config.genericDetail (cfg : Config Q A) (q : Q) : Option String :=
  let msg := sanitize (cfg.generic q internal).message
  (utf8 msg).or (utf8 (sanitize (text "errs: encode: " ++ refusal (newError internal msg))))

theorem generic_eq (code : Code) :
    cfg.generic q code = newError code (cfg.generic q code).message := by
  unfold Config.generic localized
  split
  · exact translateError_eq _ _ _
  · rfl

theorem respond_generic :
    respond refusal false (.error (cfg.generic q internal)) =
      some (internalResponse (cfg.genericDetail refusal q)) := by
  unfold respond Config.genericDetail
  rw [if_neg Bool.false_ne_true, generic_eq]
  dsimp only
  rw [encode_newError]
  generalize (cfg.generic q internal).message = msg
  cases hmsg : utf8 (sanitize msg) with
  | some detail => simp only [newError, hmsg, elim_some, some_or]; rfl
  | none =>
    simp only [newError, hmsg, elim_none, none_or]
    rw [writeError_internal]

/-- The detail that a client sees of a fault with the code internal. -/
def Config.detail (cfg : Config Q A) (q : Q) (o : Outcome A) : Option String :=
  match unencoded o with
  | some err => utf8 (sanitize err)
  | none => cfg.genericDetail refusal q

theorem respond_masked {o : Outcome A} (hf : faultCode o = some internal) :
    respond refusal false (cfg.masked q o) = some (internalResponse (cfg.detail refusal q o)) := by
  unfold Config.detail
  cases hu : unencoded o with
  | none => rw [masked_of_fault hf hu, respond_generic]
  | some err =>
    obtain ⟨-, status, hm⟩ := fault_of_unencoded cfg q hu
    rw [hm, ← writeError_internal refusal]
    rfl

end Internal

/-- Two server faults of one code look alike to the client unless the encoding of a value has
failed: then they do when their details are equal. -/
theorem faults_alike_iff {cfg : Config Q A} (hmask : cfg.maskInternal = true)
    (refusal : Error A → Text) (gone : Q → Bool) {h h' : Handler Q A} {q : Q} {code : Code}
    (hf : faultCode (h q).1 = some code) (hf' : faultCode (h' q).1 = some code) :
    serveHTTP refusal gone (chainMiddleware h (chain cfg)) q =
        serveHTTP refusal gone (chainMiddleware h' (chain cfg)) q ↔
      gone q = true ∨ (unencoded (h q).1 = none ∧ unencoded (h' q).1 = none) ∨
        cfg.detail refusal q (h q).1 = cfg.detail refusal q (h' q).1 := by
  simp only [serveHTTP, chain_fst hmask, Except.ok.injEq]
  cases hgone : gone q with
  | true => exact iff_of_true rfl (.inl rfl)
  | false =>
    simp only [Bool.false_eq_true, false_or]
    cases hu : unencoded (h q).1 with
    | none =>
      cases hu' : unencoded (h' q).1 with
      | none =>
        refine iff_of_true ?_ (.inl ⟨rfl, rfl⟩)
        rw [masked_of_fault hf hu, masked_of_fault hf' hu']
      | some err =>
        obtain ⟨hcode, -⟩ := fault_of_unencoded cfg q hu'
        rw [hcode] at hf'
        cases hf'
        rw [respond_masked refusal hf, respond_masked refusal hcode, some_inj,
          internalResponse_inj]
        simp
    | some err =>
      obtain ⟨hcode, -⟩ := fault_of_unencoded cfg q hu
      rw [hcode] at hf
      cases hf
      rw [respond_masked refusal hcode, respond_masked refusal hf', some_inj,
        internalResponse_inj]
      simp

section Example

/-- The chain of a service in production, without a translator. -/
def production : Config Unit Unit := ⟨none, none, true, true, true⟩

/-- A handler that does nothing else. -/
def always (o : Outcome Unit) : Handler Unit Unit := fun _ => (o, [])

def unavailable (msg : String) : Outcome Unit := .returned (.error (newError 14 (text msg)))

/-- A value that cannot be encoded, such as a field whose `MarshalJSON` reads a store. -/
def unencodable (err : String) : Outcome Unit := .returned (.value none (.error (text err)))

def serve (o : Outcome Unit) : Except Text (Option Response) :=
  serveHTTP (fun _ => []) (fun _ => false) (chainMiddleware (always o) (chain production)) ()

theorem serve_internal {o : Outcome Unit} (hf : faultCode o = some internal) :
    serve o = .ok (some (internalResponse (production.detail (fun _ => []) () o))) := by
  have hchain : (chainMiddleware (always o) (chain production) ()).1 =
      .returned (production.masked () o) := chain_fst rfl
  unfold serve serveHTTP
  rw [hchain]
  exact congrArg Except.ok (respond_masked _ hf)

end Example

theorem mem_log_unavailable : .failed (text "unavailable") 503 (text "dial db-1: refused") ∈
    (chainMiddleware (always (unavailable "dial db-1: refused")) (chain production) ()).2 :=
  mem_log_of_fault (e := newError 14 (text "dial db-1: refused")) rfl (by decide) rfl

/-- Two failures of a database look alike. -/
theorem faults_alike_unavailable :
    serve (unavailable "dial db-1: refused") = serve (unavailable "dial db-2: timeout") :=
  (faults_alike_iff rfl _ _ rfl rfl).mpr (.inr (.inl ⟨rfl, rfl⟩))

/-- The text of an encoding error reaches the client; that of a panic does not. -/
theorem encode_error_shown :
    faultCode (unencodable "dial db-1: refused") = some internal ∧
    faultCode (.panicked (text "dial db-1: refused") : Outcome Unit) = some internal ∧
    serve (unencodable "dial db-1: refused") =
      .ok (some (internalResponse (some "dial db-1: refused"))) ∧
    serve (.panicked (text "dial db-1: refused")) =
      .ok (some (internalResponse (some "internal server error"))) ∧
    serve (unencodable "dial db-1: refused") ≠ serve (.panicked (text "dial db-1: refused")) := by
  have hplain : sanitize (text "dial db-1: refused") = text "dial db-1: refused" :=
    sanitize_plain (by decide) (by decide) (by decide)
  have hgeneric : sanitize (text "internal server error") = text "internal server error" :=
    sanitize_plain (by decide) (by decide) (by decide)
  have hshown : production.detail (fun _ => []) () (unencodable "dial db-1: refused") =
      some "dial db-1: refused" := by
    rw [← utf8_text "dial db-1: refused", ← hplain]
    rfl
  have hhidden : production.detail (fun _ => []) () (.panicked (text "dial db-1: refused")) =
      some "internal server error" := by
    simp only [Config.detail, unencoded, Config.genericDetail, Config.generic, production,
      localized, newError, hgeneric, utf8_text, some_or]
  refine ⟨rfl, rfl, ?_, ?_, ?_⟩
  · rw [serve_internal rfl, hshown]
  · rw [serve_internal rfl, hhidden]
  · rw [serve_internal rfl, serve_internal rfl, hshown, hhidden]
    intro h
    have hdetail := internalResponse_inj.mp (Option.some.inj (Except.ok.inj h))
    exact absurd (Option.some.inj hdetail) (by decide)

end Skit.Rest
