import Mathlib.Logic.Function.Basic
import Mathlib.Data.Int.Order.Basic

/-!
# The response writer of an HTTP server

A handler edits the header, writes the status line, writes bytes and flushes, in any order. The
header is sent as it stands at the first final status line, the first write or the first flush.
A status line outside 100 to 999 is a panic of the handler, and a connection on which a handler
has panicked is closed; bytes that the status or the content length of the header does not allow
are dropped.
-/
namespace Skit.Lib.Http

abbrev Bytes := List UInt8

/-- The values of each field, by its canonical name. -/
abbrev Header := String → List String

namespace Header

def get (h : Header) (k : String) : String := (h k).headD ""

def set (h : Header) (k v : String) : Header := Function.update h k [v]

def add (h : Header) (k v : String) : Header := Function.update h k (h k ++ [v])

def del (h : Header) (k : String) : Header := Function.update h k []

end Header

/-- What a server makes of status codes and of a content length. -/
structure Server where
  informational : Int → Bool
  informational_range : ∀ code, informational code = true → 100 ≤ code ∧ code < 200
  contentLength : String → Option Nat
  contentLength_empty : contentLength "" = none

/-- A response without a body has one of these codes. -/
def bodyAllowed (code : Int) : Bool :=
  !((100 ≤ code && code < 200) || code == 204 || code == 304)

structure Head where
  status : Int
  header : Header

/-- `informed` are the informational responses, latest first; `written` counts the bytes that the
handler has written. -/
structure Writer where
  header : Header
  informed : List Head
  sent : Option Head
  written : Nat
  body : Bytes
  panicked : Bool

inductive Op
  | header (edit : Header → Header)
  | writeHeader (code : Int)
  | write (b : Bytes)
  | flush

structure Response where
  informed : List Head
  head : Head
  body : Bytes

namespace Writer

variable (S : Server)

def new (h : Header) : Writer := ⟨h, [], none, 0, [], false⟩

def writeHeader (w : Writer) (code : Int) : Writer :=
  if w.sent.isSome then w
  else if code < 100 ∨ 999 < code then { w with panicked := true }
  else if S.informational code then { w with informed := ⟨code, w.header⟩ :: w.informed }
  else { w with sent := some ⟨code, w.header⟩ }

/-- Bytes after the header. -/
def append (w : Writer) (head : Head) (b : Bytes) : Writer :=
  if !bodyAllowed head.status then w
  else
    let n := w.written + b.length
    match S.contentLength (head.header.get "Content-Length") with
    | some l =>
      if l < n then { w with written := n } else { w with written := n, body := w.body ++ b }
    | none => { w with written := n, body := w.body ++ b }

def write (w : Writer) (b : Bytes) : Writer :=
  let w := w.writeHeader S 200
  match w.sent with
  | some head => w.append S head b
  | none => w

def flush (w : Writer) : Writer := w.writeHeader S 200

def op (w : Writer) : Op → Writer
  | .header edit => { w with header := edit w.header }
  | .writeHeader code => w.writeHeader S code
  | .write b => w.write S b
  | .flush => w.flush S

/-- The calls of a handler, up to a panic. -/
def run (w : Writer) : List Op → Writer
  | [] => w
  | o :: ops => if w.panicked then w else (w.op S o).run ops

/-- What the server has sent when the handler has returned. -/
def response (w : Writer) : Option Response :=
  if w.panicked then none
  else (w.writeHeader S 200).sent.map fun head => ⟨w.informed, head, w.body⟩

end Writer

/-- The bytes that the calls write. -/
def Op.bytes : Op → Bytes
  | .write b => b
  | _ => []

def bytesOf (ops : List Op) : Bytes := ops.flatMap Op.bytes

/-- Fields that are not sent with a status. -/
def suppressedHeaders (code : Int) : List String :=
  if code = 304 then ["Content-Type", "Content-Length", "Transfer-Encoding"]
  else if !bodyAllowed code then ["Content-Length", "Transfer-Encoding"]
  else []

/-- The response that a client sees after the informational ones. -/
structure Final where
  status : Int
  header : Header
  body : Bytes

/-- The fields as they are sent. -/
def Head.sent (head : Head) : Header := fun k =>
  if k ∈ suppressedHeaders head.status then [] else head.header k

def Response.final (r : Response) : Final := ⟨r.head.status, r.head.sent, r.body⟩

section Lemmas

variable {S : Server} {w : Writer} {head : Head} {done : List Op}

theorem not_informational_ok (S : Server) : S.informational 200 = false := by
  cases h : S.informational 200 with
  | false => rfl
  | true =>
    have := S.informational_range 200 h
    omega

theorem Writer.writeHeader_sent (h : w.sent = some head) (code : Int) :
    w.writeHeader S code = w := by
  rw [writeHeader, h, if_pos (by rfl)]

theorem Writer.writeHeader_invalid (h : w.sent = none) {code : Int}
    (hcode : code < 100 ∨ 999 < code) : w.writeHeader S code = { w with panicked := true } := by
  simp [writeHeader, h, hcode]

theorem Writer.writeHeader_final (h : w.sent = none) {code : Int}
    (hcode : ¬ (code < 100 ∨ 999 < code)) (hinf : S.informational code = false) :
    w.writeHeader S code = { w with sent := some ⟨code, w.header⟩ } := by
  simp [writeHeader, h, hcode, hinf]

/-- The implicit status line. -/
theorem Writer.writeHeader_ok (h : w.sent = none) :
    w.writeHeader S 200 = { w with sent := some ⟨200, w.header⟩ } :=
  writeHeader_final h (by omega) (not_informational_ok S)

theorem Writer.write_sent (h : w.sent = some head) (b : Bytes) :
    w.write S b = w.append S head b := by
  simp only [write, writeHeader_sent h, h]

/-- Bytes change nothing but the body and its length. -/
theorem Writer.append_eq (w : Writer) (S : Server) (head : Head) (b : Bytes) :
    ∃ n body, w.append S head b = { w with written := n, body := body } := by
  unfold append
  dsimp only
  split
  · exact ⟨_, _, rfl⟩
  · split
    · split
      · exact ⟨_, _, rfl⟩
      · exact ⟨_, _, rfl⟩
    · exact ⟨_, _, rfl⟩

/-- Without a content length all bytes are sent. -/
theorem Writer.append_body (hallowed : bodyAllowed head.status = true)
    (hlength : head.header.get "Content-Length" = "") (b : Bytes) :
    w.append S head b = { w with written := w.written + b.length, body := w.body ++ b } := by
  simp only [append, hallowed, hlength, S.contentLength_empty, Bool.not_true, Bool.false_eq_true,
    if_false]

theorem Writer.panicked_write (h : w.panicked = true) (b : Bytes) :
    (w.write S b).panicked = true := by
  have hw : (w.writeHeader S 200).panicked = true := by
    unfold writeHeader
    split
    · exact h
    · split
      · rfl
      · split <;> exact h
  rw [write]
  split
  · next head _ =>
    obtain ⟨n, body, heq⟩ := (w.writeHeader S 200).append_eq S head b
    rw [heq]
    exact hw
  · exact hw

theorem Writer.response_sent (hp : w.panicked = false) (h : w.sent = some head) :
    w.response S = some ⟨w.informed, head, w.body⟩ := by
  rw [response, hp, if_neg Bool.false_ne_true, writeHeader_sent h, h, Option.map_some]

/-- The body of a response that may have one is what was written, unless a content length cuts
it. -/
structure Writer.Whole (done : List Op) (w : Writer) : Prop where
  unsent : w.sent = none → w.body = [] ∧ bytesOf done = []
  sent : ∀ head, w.sent = some head → bodyAllowed head.status = true →
    head.header.get "Content-Length" = "" → w.body = bytesOf done

theorem bytesOf_append (ops : List Op) (o : Op) :
    bytesOf (ops ++ [o]) = bytesOf ops ++ o.bytes := by
  simp [bytesOf]

theorem Writer.Whole.writeHeader (h : w.Whole done) (code : Int) :
    (w.writeHeader S code).Whole done := by
  cases hsent : w.sent with
  | some head => rwa [writeHeader_sent hsent]
  | none =>
    obtain ⟨hbody, hwritten⟩ := h.unsent hsent
    unfold Writer.writeHeader
    rw [hsent, if_neg (by decide)]
    split
    · exact ⟨fun _ => ⟨hbody, hwritten⟩, nofun⟩
    · split
      · exact ⟨fun _ => ⟨hbody, hwritten⟩, nofun⟩
      · exact ⟨nofun, fun _ _ _ _ => hbody.trans hwritten.symm⟩

theorem Writer.Whole.op (h : w.Whole done) (o : Op) : (w.op S o).Whole (done ++ [o]) := by
  have hquiet : ∀ {w : Writer}, w.Whole done → o.bytes = [] → w.Whole (done ++ [o]) := by
    intro w h ho
    have hwritten : bytesOf (done ++ [o]) = bytesOf done := by
      rw [bytesOf_append, ho, List.append_nil]
    exact ⟨fun hs => ⟨(h.unsent hs).1, hwritten.trans (h.unsent hs).2⟩,
      fun head hs ha hl => (h.sent head hs ha hl).trans hwritten.symm⟩
  cases o with
  | header edit => exact hquiet ⟨h.unsent, h.sent⟩ rfl
  | writeHeader code => exact hquiet (h.writeHeader code) rfl
  | flush => exact hquiet (h.writeHeader 200) rfl
  | write b =>
    have hw := h.writeHeader (S := S) 200
    have hsent : ∃ head, (w.writeHeader S 200).sent = some head := by
      cases hs : w.sent with
      | some head => exact ⟨head, by rw [writeHeader_sent hs, hs]⟩
      | none => exact ⟨_, by rw [writeHeader_ok hs]⟩
    obtain ⟨head, hsent⟩ := hsent
    have hop : w.op S (.write b) = (w.writeHeader S 200).append S head b := by
      rw [Writer.op, Writer.write, hsent]
    have hkept : ((w.writeHeader S 200).append S head b).sent = some head := by
      obtain ⟨n, body, heq⟩ := (w.writeHeader S 200).append_eq S head b
      rw [heq]
      exact hsent
    rw [hop]
    refine ⟨fun hnone => ?_, fun head' hs ha hl => ?_⟩
    · rw [hkept] at hnone
      cases hnone
    · rw [hkept] at hs
      cases hs
      rw [append_body ha hl, bytesOf_append, ← hw.sent head hsent ha hl]
      rfl

theorem Writer.Whole.run {done ops : List Op} (h : w.Whole done)
    (hp : (w.run S ops).panicked = false) : (w.run S ops).Whole (done ++ ops) := by
  induction ops generalizing w done with
  | nil => rwa [List.append_nil]
  | cons o ops ih =>
    rw [Writer.run] at hp ⊢
    cases hw : w.panicked with
    | true =>
      rw [if_pos hw, hw] at hp
      cases hp
    | false =>
      rw [hw, if_neg Bool.false_ne_true] at hp
      rw [if_neg Bool.false_ne_true, List.append_cons]
      exact ih (h.op o) hp

/-- What is sent is what was written. -/
theorem Writer.response_body {h : Header} {ops : List Op} {r : Response}
    (hr : ((Writer.new h).run S ops).response S = some r)
    (hallowed : bodyAllowed r.head.status = true)
    (hlength : r.head.header.get "Content-Length" = "") : r.body = bytesOf ops := by
  have hnew : (Writer.new h).Whole [] := ⟨fun _ => ⟨rfl, rfl⟩, nofun⟩
  rw [Writer.response] at hr
  split at hr
  · cases hr
  · next hp =>
    obtain ⟨head, hsent, rfl⟩ := Option.map_eq_some_iff.mp hr
    have hwhole := (hnew.run (Bool.eq_false_iff.mpr hp)).writeHeader (S := S) 200
    have hbody : ∀ {w : Writer}, (w.writeHeader S 200).body = w.body := by
      intro w
      unfold Writer.writeHeader
      split
      · rfl
      · split
        · rfl
        · split <;> rfl
    rw [← hbody]
    exact hwhole.sent head hsent hallowed hlength

end Lemmas

end Skit.Lib.Http
