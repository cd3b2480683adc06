import Skit.Lib.ResponseWriter
import Mathlib.Data.List.Infix

/-!
# Compression of responses

`Compress` gives the handler a writer of its own. At the first status line or write it decides
whether the body is encoded, and edits the header before the server sends it. The decision and the
sending fall together unless the handler flushes first: the server then sends the header while the
decision is still to come.
-/
namespace Skit.Middleware
open List

open Lib.Http

section Gzip

/-- The calls on a gzip writer. -/
inductive GzOp
  | write (b : Bytes)
  | flush

/-- A gzip writer keeps bytes back as it likes: `out` has what it emits for a call after others,
and `close` what it emits at the end. -/
structure Gzip where
  out : List GzOp → GzOp → Bytes
  close : List GzOp → Bytes
  decode : Bytes → Option Bytes

def GzOp.bytes : GzOp → Bytes
  | .write b => b
  | .flush => []

variable (G : Gzip)

/-- What the calls, latest first, have emitted. -/
def Gzip.emitted : List GzOp → Bytes
  | [] => []
  | o :: ops => Gzip.emitted ops ++ G.out ops o

/-- A closed stream decodes to the bytes that were written. -/
structure Gzip.Lawful : Prop where
  decode_stream : ∀ ops : List GzOp,
    G.decode (G.emitted ops ++ G.close ops) = some (ops.reverse.flatMap GzOp.bytes)

end Gzip

/-- `gzipResponseWriter`; `calls` are those on its gzip writer, latest first. -/
structure GzipResponseWriter where
  w : Writer
  calls : List GzOp
  wroteHeader : Bool
  started : Bool

/-- The header of an encoded response. -/
def encoded (h : Header) : Header :=
  ((h.del "Content-Length").set "Content-Encoding" "gzip").add "Vary" "Accept-Encoding"

namespace GzipResponseWriter

variable (S : Server) (G : Gzip)

def new (w : Writer) : GzipResponseWriter := ⟨w, [], false, false⟩

def writeHeader (cw : GzipResponseWriter) (code : Int) : GzipResponseWriter :=
  if cw.wroteHeader then { cw with w := cw.w.writeHeader S code }
  else if bodyAllowed code ∧ cw.w.header.get "Content-Encoding" = "" then
    { cw with
      w := { cw.w with header := encoded cw.w.header }.writeHeader S code
      wroteHeader := true
      started := true }
  else { cw with w := cw.w.writeHeader S code, wroteHeader := true }

/-- The gzip writer passes on what it emits. -/
def emit (cw : GzipResponseWriter) (o : GzOp) : GzipResponseWriter :=
  let b := G.out cw.calls o
  { cw with w := if b.isEmpty then cw.w else cw.w.write S b, calls := o :: cw.calls }

def write (cw : GzipResponseWriter) (b : Bytes) : GzipResponseWriter :=
  let cw := if cw.wroteHeader then cw else cw.writeHeader S 200
  if cw.started then cw.emit S G (.write b) else { cw with w := cw.w.write S b }

def flush (cw : GzipResponseWriter) : GzipResponseWriter :=
  let cw := if cw.started then cw.emit S G .flush else cw
  { cw with w := cw.w.flush S }

def op (cw : GzipResponseWriter) : Op → GzipResponseWriter
  | .header edit => { cw with w := { cw.w with header := edit cw.w.header } }
  | .writeHeader code => cw.writeHeader S code
  | .write b => cw.write S G b
  | .flush => cw.flush S G

def run (cw : GzipResponseWriter) : List Op → GzipResponseWriter
  | [] => cw
  | o :: ops => if cw.w.panicked then cw else (cw.op S G o).run ops

/-- The deferred close of the gzip writer. -/
def close (cw : GzipResponseWriter) : Writer :=
  let b := G.close cw.calls
  if cw.started ∧ !b.isEmpty then cw.w.write S b else cw.w

end GzipResponseWriter

/-- `strings.Contains`. -/
def contains (s sub : String) : Bool := decide (sub.toList <:+: s.toList)

variable (S : Server) (G : Gzip)

/-- What is sent without `Compress`. -/
def plain (h : Header) (ops : List Op) : Option Response :=
  ((Writer.new h).run S ops).response S

/-- What is sent with it. -/
def compress (acceptEncoding : String) (h : Header) (ops : List Op) : Option Response :=
  if !contains acceptEncoding "gzip" ∨ h.get "Content-Encoding" ≠ "" then plain S h ops
  else (((GzipResponseWriter.new (Writer.new h)).run S G ops).close S G).response S

/-- No flush comes before the first status line or write. -/
def flushesLate : List Op → Bool
  | .header _ :: ops => flushesLate ops
  | .flush :: _ => false
  | _ => true

section Simulation

variable {S : Server} {G : Gzip} {done : List Op} {p : Writer} {cw : GzipResponseWriter}
  {head : Head}

theorem encoded_length (h : Header) : (encoded h).get "Content-Length" = "" := by
  simp [encoded, Header.get, Header.add, Header.set, Header.del, Function.update]

theorem encoded_encoding (h : Header) : (encoded h).get "Content-Encoding" = "gzip" := by
  simp [encoded, Header.get, Header.add, Header.set, Function.update]

/-- The two writers while the body is encoded. -/
structure Encoding (G : Gzip) (done : List Op) (p : Writer) (cw : GzipResponseWriter)
    (head : Head) : Prop where
  started : cw.started = true
  wroteHeader : cw.wroteHeader = true
  plain : p.sent = some head
  sent : cw.w.sent = some ⟨head.status, encoded head.header⟩
  allowed : bodyAllowed head.status = true
  unset : head.header.get "Content-Encoding" = ""
  informed : cw.w.informed = p.informed
  panicked : cw.w.panicked = false
  panickedPlain : p.panicked = false
  body : cw.w.body = G.emitted cw.calls
  written : bytesOf done = cw.calls.reverse.flatMap GzOp.bytes

/-- The writer that the handler would have and the one it has. -/
inductive Sim (G : Gzip) (done : List Op) (p : Writer) (cw : GzipResponseWriter) : Prop
  | fresh : cw = .new p → p.sent = none → p.panicked = false → p.body = [] → bytesOf done = [] →
      Sim G done p cw
  | passed : cw.started = false → cw.wroteHeader = true → cw.w = p → Sim G done p cw
  | encoding (head : Head) : Encoding G done p cw head → Sim G done p cw
  | panicked : cw.w.panicked = true → p.panicked = true → Sim G done p cw

theorem Encoding.write (h : Encoding G done p cw head) (b : Bytes) :
    (cw.w.write S b).sent = some ⟨head.status, encoded head.header⟩ ∧
      (cw.w.write S b).informed = p.informed ∧ (cw.w.write S b).panicked = false ∧
      (cw.w.write S b).body = G.emitted cw.calls ++ b := by
  have hallowed : bodyAllowed (Head.mk head.status (encoded head.header)).status = true := h.allowed
  rw [Writer.write_sent h.sent, Writer.append_body hallowed (encoded_length _)]
  exact ⟨h.sent, h.informed, h.panicked, congrArg (· ++ b) h.body⟩

theorem Encoding.emit (h : Encoding G done p cw head) (o : GzOp) {o' : Op}
    (ho : o'.bytes = o.bytes) {p' : Writer} (hp : p'.sent = some head)
    (hi : p'.informed = p.informed) (hpanic : p'.panicked = false) :
    Encoding G (done ++ [o']) p' (cw.emit S G o) head := by
  have hw : (cw.emit S G o).w.sent = some ⟨head.status, encoded head.header⟩ ∧
      (cw.emit S G o).w.informed = p.informed ∧ (cw.emit S G o).w.panicked = false ∧
      (cw.emit S G o).w.body = G.emitted (o :: cw.calls) := by
    simp only [GzipResponseWriter.emit]
    split
    · next hb =>
      rw [List.isEmpty_iff] at hb
      refine ⟨h.sent, h.informed, h.panicked, ?_⟩
      rw [h.body, Gzip.emitted, hb, List.append_nil]
    · exact h.write _
  obtain ⟨hsent, hinf, hpan, hbody⟩ := hw
  refine ⟨h.started, h.wroteHeader, hp, hsent, h.allowed, h.unset, hinf.trans hi.symm, hpan, hpanic,
    hbody, ?_⟩
  rw [bytesOf_append, h.written, ho]
  simp [GzipResponseWriter.emit]

theorem Sim.quiet (h : Sim G done p cw) {o : Op} (ho : o.bytes = []) :
    Sim G (done ++ [o]) p cw := by
  have hwritten : bytesOf (done ++ [o]) = bytesOf done := by
    rw [bytesOf_append, ho]
    exact List.append_nil _
  cases h with
  | fresh hcw hsent hpanic hbody hw => exact .fresh hcw hsent hpanic hbody (hwritten.trans hw)
  | passed hs hh hw => exact .passed hs hh hw
  | encoding head h => exact .encoding head { h with written := hwritten.trans h.written }
  | panicked hc hp => exact .panicked hc hp

theorem Sim.header (h : Sim G done p cw) (edit : Header → Header) :
    Sim G done (p.op S (.header edit)) (cw.op S G (.header edit)) := by
  cases h with
  | fresh hcw hsent hpanic hbody hw =>
    subst hcw
    exact .fresh rfl hsent hpanic hbody hw
  | passed hs hh hw =>
    subst hw
    exact .passed hs hh rfl
  | encoding head h => exact .encoding head { h with }
  | panicked hc hp => exact .panicked hc hp

theorem sim_writeHeader_new (hsent : p.sent = none) (hpanic : p.panicked = false)
    (hbody : p.body = []) (hw : bytesOf done = []) (code : Int) :
    Sim G done (p.writeHeader S code) ((GzipResponseWriter.new p).writeHeader S code) := by
  by_cases henc : bodyAllowed code ∧ p.header.get "Content-Encoding" = ""
  · have hcw : (GzipResponseWriter.new p).writeHeader S code =
        ⟨{ p with header := encoded p.header }.writeHeader S code, [], true, true⟩ := by
      rw [GzipResponseWriter.writeHeader, if_neg (by exact Bool.false_ne_true)]
      exact if_pos henc
    rw [hcw]
    by_cases hcode : code < 100 ∨ 999 < code
    · rw [Writer.writeHeader_invalid (by exact hsent) hcode,
        Writer.writeHeader_invalid (by exact hsent) hcode]
      exact .panicked rfl rfl
    · have hinf : S.informational code = false := by
        cases h : S.informational code with
        | false => rfl
        | true =>
          have hrange := S.informational_range code h
          have hallowed := henc.1
          simp [bodyAllowed, hrange] at hallowed
      rw [Writer.writeHeader_final (by exact hsent) hcode hinf,
        Writer.writeHeader_final (by exact hsent) hcode hinf]
      exact .encoding ⟨code, p.header⟩ ⟨rfl, rfl, rfl, rfl, henc.1, henc.2, rfl, hpanic, hpanic,
        hbody, hw⟩
  · have hcw : (GzipResponseWriter.new p).writeHeader S code =
        ⟨p.writeHeader S code, [], true, false⟩ := by
      rw [GzipResponseWriter.writeHeader, if_neg (by exact Bool.false_ne_true)]
      exact if_neg henc
    rw [hcw]
    exact .passed rfl rfl rfl

theorem Sim.writeHeader (h : Sim G done p cw) (hp : p.panicked = false) (code : Int) :
    Sim G done (p.writeHeader S code) (cw.writeHeader S code) := by
  cases h with
  | fresh hcw hsent hpanic hbody hw =>
    subst hcw
    exact sim_writeHeader_new hsent hpanic hbody hw code
  | passed hs hh hw =>
    subst hw
    have hcw : cw.writeHeader S code = { cw with w := cw.w.writeHeader S code } := if_pos hh
    rw [hcw]
    exact .passed hs hh rfl
  | encoding head h =>
    have hcw : cw.writeHeader S code = { cw with w := cw.w.writeHeader S code } :=
      if_pos h.wroteHeader
    rw [hcw, Writer.writeHeader_sent h.sent, Writer.writeHeader_sent h.plain]
    exact .encoding head h
  | panicked hc hpp =>
    rw [hp] at hpp
    cases hpp

theorem Sim.write_decided (h : Sim G done p cw) (hp : p.panicked = false)
    (hh : cw.wroteHeader = true) (b : Bytes) :
    Sim G (done ++ [.write b]) (p.write S b) (cw.write S G b) := by
  cases h with
  | fresh hcw _ _ _ _ =>
    subst hcw
    cases hh
  | passed hs _ hw =>
    subst hw
    have hcw : cw.write S G b = { cw with w := cw.w.write S b } := by
      simp only [GzipResponseWriter.write, hh, if_true, hs, Bool.false_eq_true, if_false]
    rw [hcw]
    exact .passed hs hh rfl
  | encoding head h =>
    have hcw : cw.write S G b = cw.emit S G (.write b) := by
      simp only [GzipResponseWriter.write, hh, if_true, h.started]
    obtain ⟨n, body, heq⟩ := p.append_eq S head b
    rw [hcw, Writer.write_sent h.plain, heq]
    exact .encoding head (h.emit _ rfl h.plain rfl h.panickedPlain)
  | panicked _ hpp =>
    rw [hp] at hpp
    cases hpp

theorem wroteHeader_writeHeader (cw : GzipResponseWriter) (code : Int) :
    (cw.writeHeader S code).wroteHeader = true := by
  unfold GzipResponseWriter.writeHeader
  split
  · assumption
  · split <;> rfl

theorem wroteHeader_write (cw : GzipResponseWriter) (b : Bytes) :
    (cw.write S G b).wroteHeader = true := by
  have hdecided : (if cw.wroteHeader then cw else cw.writeHeader S 200).wroteHeader = true := by
    split
    · assumption
    · exact wroteHeader_writeHeader cw 200
  unfold GzipResponseWriter.write
  generalize (if cw.wroteHeader then cw else cw.writeHeader S 200) = decided at hdecided ⊢
  dsimp only
  split
  · exact hdecided
  · exact hdecided

theorem wroteHeader_flush (cw : GzipResponseWriter) :
    (cw.flush S G).wroteHeader = cw.wroteHeader := by
  unfold GzipResponseWriter.flush
  dsimp only
  split <;> rfl

theorem Sim.write (h : Sim G done p cw) (hp : p.panicked = false) (b : Bytes) :
    Sim G (done ++ [.write b]) (p.write S b) (cw.write S G b) := by
  cases hh : cw.wroteHeader with
  | true => exact h.write_decided hp hh b
  | false =>
    cases h with
    | fresh hcw hsent hpanic hbody hw =>
      subst hcw
      -- The write goes on from the status line that it makes.
      have hplain : p.write S b = (p.writeHeader S 200).write S b := by
        have hok := Writer.writeHeader_ok (S := S) hsent
        rw [Writer.write, Writer.write, hok, Writer.writeHeader_sent (by rfl)]
      have hwrite : (GzipResponseWriter.new p).write S G b =
          ((GzipResponseWriter.new p).writeHeader S 200).write S G b := by
        conv_rhs => rw [GzipResponseWriter.write, if_pos (wroteHeader_writeHeader _ _)]
        rfl
      have hpanic' : (p.writeHeader S 200).panicked = false := by
        rw [Writer.writeHeader_ok hsent]
        exact hpanic
      rw [hplain, hwrite]
      exact (sim_writeHeader_new hsent hpanic hbody hw 200).write_decided hpanic'
        (wroteHeader_writeHeader _ _) b
    | passed _ hh' _ =>
      rw [hh] at hh'
      cases hh'
    | encoding head h =>
      rw [h.wroteHeader] at hh
      cases hh
    | panicked _ hpp =>
      rw [hp] at hpp
      cases hpp

theorem Sim.flush (h : Sim G done p cw) (hp : p.panicked = false) (hh : cw.wroteHeader = true) :
    Sim G (done ++ [.flush]) (p.flush S) (cw.flush S G) := by
  cases h with
  | fresh hcw _ _ _ _ =>
    subst hcw
    cases hh
  | passed hs _ hw =>
    subst hw
    have hcw : cw.flush S G = { cw with w := cw.w.flush S } := by
      simp only [GzipResponseWriter.flush, hs, Bool.false_eq_true, if_false]
    rw [hcw]
    exact .passed hs hh rfl
  | encoding head h =>
    have hemit : Encoding G (done ++ [.flush]) p (cw.emit S G .flush) head :=
      h.emit .flush rfl h.plain rfl h.panickedPlain
    have hcw : cw.flush S G = cw.emit S G .flush := by
      simp only [GzipResponseWriter.flush, h.started, if_true, Writer.flush,
        Writer.writeHeader_sent hemit.sent]
    rw [hcw, Writer.flush, Writer.writeHeader_sent h.plain]
    exact .encoding head hemit
  | panicked _ hpp =>
    rw [hp] at hpp
    cases hpp

theorem Sim.panicked_eq (h : Sim G done p cw) : cw.w.panicked = p.panicked := by
  cases h with
  | fresh hcw _ _ _ _ =>
    subst hcw
    rfl
  | passed _ _ hw => rw [hw]
  | encoding head h => rw [h.panicked, h.panickedPlain]
  | panicked hc hp => rw [hc, hp]

/-- The two runs of a handler that does not flush before the decision. -/
theorem Sim.run (h : Sim G done p cw) {ops : List Op}
    (hlate : cw.wroteHeader = true ∨ flushesLate ops = true) :
    Sim G (done ++ ops) (p.run S ops) (cw.run S G ops) := by
  induction ops generalizing done p cw with
  | nil => rwa [List.append_nil]
  | cons o ops ih =>
    cases hp : p.panicked with
    | true =>
      have hc := h.panicked_eq.trans hp
      rw [Writer.run, if_pos hp, GzipResponseWriter.run, if_pos hc]
      exact .panicked hc hp
    | false =>
      have hc := h.panicked_eq.trans hp
      rw [Writer.run, hp, if_neg Bool.false_ne_true, GzipResponseWriter.run, hc,
        if_neg Bool.false_ne_true, append_cons]
      cases o with
      | header edit => exact ih (h.header edit |>.quiet rfl) hlate
      | writeHeader code =>
        exact ih (h.writeHeader hp code |>.quiet rfl) (.inl (wroteHeader_writeHeader cw code))
      | write b => exact ih (h.write hp b) (.inl (wroteHeader_write cw b))
      | flush =>
        have hh : cw.wroteHeader = true := hlate.resolve_right Bool.false_ne_true
        exact ih (h.flush hp hh) (.inl ((wroteHeader_flush cw).trans hh))

/-- A response and the one that is sent in its place when the body is encoded. -/
structure Encodes (G : Gzip) (bytes : Bytes) (r c : Response) : Prop where
  allowed : bodyAllowed r.head.status = true
  unset : r.head.header.get "Content-Encoding" = ""
  informed : c.informed = r.informed
  status : c.head.status = r.head.status
  header : c.head.header = encoded r.head.header
  labelled : c.head.header.get "Content-Encoding" = "gzip"
  unsized : c.head.header.get "Content-Length" = ""
  decode : G.decode c.body = some bytes

theorem Encoding.close (h : Encoding G done p cw head) :
    (cw.close S G).sent = some ⟨head.status, encoded head.header⟩ ∧
      (cw.close S G).informed = p.informed ∧ (cw.close S G).panicked = false ∧
      (cw.close S G).body = G.emitted cw.calls ++ G.close cw.calls := by
  unfold GzipResponseWriter.close
  dsimp only
  split
  · exact h.write _
  · next hempty =>
    have hnil : G.close cw.calls = [] := by simpa [h.started] using hempty
    rw [hnil, List.append_nil]
    exact ⟨h.sent, h.informed, h.panicked, h.body⟩

/-- What the two writers have sent in the end. -/
theorem Sim.response (hG : G.Lawful) (h : Sim G done p cw) :
    (cw.close S G).response S = p.response S ∨
      ∃ r c, p.response S = some r ∧ (cw.close S G).response S = some c ∧
        Encodes G (bytesOf done) r c := by
  have hunstarted : cw.started = false → cw.close S G = cw.w := by
    intro hs
    simp only [GzipResponseWriter.close, hs, Bool.false_eq_true, false_and, if_false]
  cases h with
  | fresh hcw _ _ _ _ =>
    subst hcw
    rw [hunstarted rfl]
    exact .inl rfl
  | passed hs _ hw =>
    rw [hunstarted hs, hw]
    exact .inl rfl
  | encoding head h =>
    obtain ⟨hsent, hinf, hpanic, hbody⟩ := h.close (S := S)
    refine .inr ⟨_, _, Writer.response_sent h.panickedPlain h.plain,
      Writer.response_sent hpanic hsent, h.allowed, h.unset, hinf, rfl, rfl,
      encoded_encoding _, encoded_length _, ?_⟩
    rw [hbody, hG.decode_stream, h.written]
  | panicked hc hp =>
    have hclose : (cw.close S G).panicked = true := by
      unfold GzipResponseWriter.close
      dsimp only
      split
      · exact Writer.panicked_write hc _
      · exact hc
    rw [Writer.response, Writer.response, if_pos hclose, if_pos hp]
    exact .inl rfl

end Simulation

/-- Without `Compress` and with it: nothing is sent, the same is sent, or the body is sent
encoded. -/
inductive Transparent (G : Gzip) (bytes : Bytes) : Option Response → Option Response → Prop
  | aborted : Transparent G bytes none none
  | same {r : Response} : (bodyAllowed r.head.status = true →
      r.head.header.get "Content-Length" = "" → r.body = bytes) →
      Transparent G bytes (some r) (some r)
  | encoded {r c : Response} : Encodes G bytes r c → Transparent G bytes (some r) (some c)

section Example

/-- The codes from 100 to 199 are informational but for 101. -/
def server : Server where
  informational code := 100 ≤ code && code < 200 && code != 101
  informational_range code h := by simp at h; exact h.1
  contentLength s :=
    if s = "" || !s.toList.all Char.isDigit then none
    else some (s.toList.foldl (fun n c => 10 * n + (c.toNat - 48)) 0)
  contentLength_empty := rfl

/-- A stream that is the bytes after a mark. -/
def marked : Gzip where
  out calls o := if calls.isEmpty then 31 :: o.bytes else o.bytes
  close calls := if calls.isEmpty then [31] else []
  decode
    | 31 :: b => some b
    | _ => none

theorem marked_lawful : marked.Lawful := by
  have hstream : ∀ calls : List GzOp, marked.emitted calls ++ marked.close calls =
      31 :: calls.reverse.flatMap GzOp.bytes := by
    intro calls
    induction calls with
    | nil => rfl
    | cons o calls ih =>
      cases calls with
      | nil => simp [Gzip.emitted, marked]
      | cons o' calls =>
        simp only [marked, isEmpty_cons, Bool.false_eq_true, if_false, List.append_nil] at ih ⊢
        rw [Gzip.emitted, ih]
        simp
  exact ⟨fun calls => by rw [hstream]; rfl⟩

/-- A body by its content encoding. -/
def decodeBy (G : Gzip) (contentEncoding : String) (body : Bytes) : Option Bytes :=
  if contentEncoding = "" then some body
  else if contentEncoding = "gzip" then G.decode body
  else none

/-- What a client reads that goes by the content encoding. -/
def received (ops : List Op) : Option (Option Bytes) :=
  (compress server marked "gzip, br" (fun _ => []) ops).map fun c =>
    decodeBy marked (c.head.header.get "Content-Encoding") c.body

end Example

/-- A handler that does not flush before its first status line or write is served as it would be
without `Compress`, or its body is encoded under the header that says so. -/
theorem compress_transparent (S : Server) {G : Gzip} (hG : G.Lawful) (acceptEncoding : String)
    (h : Header) {ops : List Op} (hlate : flushesLate ops = true) :
    Transparent G (bytesOf ops) (plain S h ops) (compress S G acceptEncoding h ops) := by
  have hsame : Transparent G (bytesOf ops) (plain S h ops) (plain S h ops) := by
    cases hr : plain S h ops with
    | none => exact .aborted
    | some r => exact .same fun hallowed hlength => Writer.response_body hr hallowed hlength
  unfold compress
  split
  · exact hsame
  · have hnew : Sim G [] (Writer.new h) (.new (Writer.new h)) := .fresh rfl rfl rfl rfl rfl
    obtain heq | ⟨r, c, hr, hc, henc⟩ := (hnew.run (S := S) (.inr hlate)).response (S := S) hG
    · rw [heq]
      exact hsame
    · rw [hc, plain, hr]
      exact .encoded henc

/-- A stream that is flushed after its first write. -/
theorem compress_transparent_stream :
    flushesLate [.writeHeader 200, .write [1], .flush, .write [2]] = true ∧
    Transparent marked [1, 2]
      (plain server (fun _ => []) [.writeHeader 200, .write [1], .flush, .write [2]])
      (compress server marked "gzip" (fun _ => [])
        [.writeHeader 200, .write [1], .flush, .write [2]]) := by
  have hlate : flushesLate [.writeHeader 200, .write [1], .flush, .write [2]] = true := rfl
  exact ⟨hlate, compress_transparent server marked_lawful "gzip" _ hlate⟩

/-- A flush that comes first sends the header without an encoding and the body with one. A handler
that has encoded its body, and one whose status has no body, are left alone. -/
theorem bytes_not_as_written :
    received [.flush, .write [1]] = some (some [31, 1]) ∧
    received [.header (·.set "Content-Encoding" "gzip"), .write [31, 1]] = some (some [1]) ∧
    received [.writeHeader 204, .write [1]] = some (some []) ∧
    bytesOf [.flush, .write [1]] = [1] ∧
    bytesOf [.header (·.set "Content-Encoding" "gzip"), .write [31, 1]] = [31, 1] ∧
    bytesOf [.writeHeader 204, .write [1]] = [1] :=
  ⟨rfl, rfl, rfl, rfl, rfl, rfl⟩

end Skit.Middleware
