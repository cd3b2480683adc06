import Skit.Httpmw.Retry
import Mathlib.Data.List.Range

/-!
# The attempts of a round trip

`RoundTrip` as a program over the calls that it makes: to the body of the caller, to `GetBody`, to
the inner transport and to the bodies of the responses. Every answer is open: the inner transport
may return any response or error, reading or rewinding the body may fail, and the context may end
at any wait. The inner transport closes the body of the request that it is given.
-/
namespace Skit.Httpmw
open Lib Prog List

abbrev Bytes := List UInt8

/-- The `Body` of a request. -/
inductive Payload
  | none
  | noBody
  | stream (bytes : Bytes)

def Payload.bytes : Payload → Bytes
  | stream bytes => bytes
  | _ => []

/-- A request of a caller; `getBody` tells whether it has a `GetBody`. -/
structure Request where
  body : Payload
  getBody : Bool

/-- The two requests that the variable `req` may point to. -/
inductive Ptr
  | caller
  | clone
  deriving DecidableEq

/-- The body of a request that is sent: the one that the caller passed in, or a new reader. -/
inductive Sent
  | own
  | fresh (bytes : Bytes)
  deriving DecidableEq

structure Response where
  status : Int
  retryAfter : String

inductive Call
  | readAll
  | closeBody
  | getBody
  | setBody (p : Ptr) (bytes : Bytes)
  | next (attempt : Nat) (p : Ptr) (body : Sent)
  | now
  | rand
  | closeResponse (attempt : Nat)
  | wait (d : Int)
  deriving DecidableEq

/-- A wait is answered by the error of the context, if it ended. -/
abbrev Ans : Call → Type
  | .readAll => Except Err Bytes
  | .closeBody => Unit
  | .getBody => Except Err Bytes
  | .setBody _ _ => Unit
  | .next _ _ _ => Except Err Response
  | .now => Int
  | .rand => ℚ
  | .closeResponse _ => Unit
  | .wait _ => Option Err

abbrev Result := Option Response × Option Err

/-- The function that `rewindable` returns. -/
inductive Rewind
  | original
  | buffer (buf : Bytes)

def rewindable (req : Request) : Prog Call Ans (Except Err (Option Rewind)) :=
  match req.body with
  | .none => return .ok none
  | .noBody => return .ok none
  | .stream _ =>
    if req.getBody then return .ok (some .original)
    else do
      let read ← ask Call.readAll
      ask Call.closeBody
      match read with
      | Except.error err =>
        return .error (.wrap ("httpmw: buffer request body: " ++ err.error) err)
      | Except.ok buf => return .ok (some (.buffer buf))

def Rewind.call : Rewind → Prog Call Ans (Except Err Bytes)
  | original => ask Call.getBody
  | buffer buf => return .ok buf

/-- The body of the next attempt, which is assigned to the request. -/
def renewBody (p : Ptr) : Option Rewind → Prog Call Ans (Except Err Sent)
  | none => return .ok .own
  | some getBody => do
    match ← getBody.call with
    | .error err => return .error err
    | .ok bytes =>
      ask (Call.setBody p bytes)
      return .ok (.fresh bytes)

namespace RetryTransport

variable (t : RetryTransport) (parseTime : String → Option Int)

/-- The wait before the next attempt. -/
def pause (attempt : Nat) (resp : Response) : Prog Call Ans Int := do
  let now ← ask Call.now
  match headerDelay parseTime t.cfg resp.retryAfter now with
  | some d => return d
  | none =>
    let rand ← ask Call.rand
    return t.cfg.backoff.nextWithRand attempt rand

/-- One turn of the loop; `again` is what follows, if attempts are left. -/
def turn (getBody : Option Rewind) (p : Ptr) (attempt : Nat)
    (again : Option (Prog Call Ans Result)) : Prog Call Ans Result := do
  match ← renewBody p getBody with
  | .error err => return (none, some err)
  | .ok body =>
    match ← ask (Call.next attempt p body) with
    | Except.error err => return (none, some err)
    | Except.ok resp =>
      if resp.status ∉ t.statuses then return (some resp, none)
      else
        match again with
        | none => return (some resp, none)
        | some rest =>
          let d ← t.pause parseTime attempt resp
          ask (Call.closeResponse attempt)
          match ← ask (Call.wait d) with
          | some err => return (none, some err)
          | none => rest

/-- The loop, with the number of attempts that are left after this one. -/
def loop (getBody : Option Rewind) (p : Ptr) : Nat → Nat → Prog Call Ans Result
  | 0, attempt => t.turn parseTime getBody p attempt none
  | left + 1, attempt =>
    t.turn parseTime getBody p attempt (some (loop getBody p left (attempt + 1)))

def roundTrip (req : Request) : Prog Call Ans Result := do
  match ← rewindable req with
  | .error err => return (none, some err)
  | .ok getBody =>
    let p := if getBody.isSome then Ptr.clone else Ptr.caller
    let maxAttempts := max t.cfg.backoff.maxAttempts 1
    t.loop parseTime getBody p (maxAttempts.toNat - 1) 1

end RetryTransport

section Histories

variable {τ : Type}

/-- A call of the inner transport with its answer. -/
structure Sending where
  attempt : Nat
  body : Sent
  ans : Except Err Response

def sending : Event τ Call Ans → Option Sending
  | ⟨_, .next attempt _ body, ans⟩ => some ⟨attempt, body, ans⟩
  | _ => none

/-- The calls of the inner transport, the last one first. -/
def sendings (h : List (Event τ Call Ans)) : List Sending := h.filterMap sending

/-- What the inner transport reads from the body. -/
def Sent.bytes (req : Request) : Sent → Bytes
  | own => req.body.bytes
  | fresh bytes => bytes

/-- The body is read to its end or fails, and `GetBody` yields it again or fails. -/
def Faithful (req : Request) (h : List (Event τ Call Ans)) : Prop :=
  ∀ time bytes, ⟨time, .readAll, .ok bytes⟩ ∈ h ∨ ⟨time, .getBody, .ok bytes⟩ ∈ h →
    bytes = req.body.bytes

variable (t : RetryTransport) (req : Request) (h : List (Event τ Call Ans)) (res : Result)

/-- What the inner transport and the responses are owed. -/
structure Served : Prop where
  attempts : ((sendings h).length : Int) ≤ max t.cfg.backoff.maxAttempts 1
  numbered : ((sendings h).map Sending.attempt).Nodup
  stops : ∀ s ∈ (sendings h).tail, ∃ resp, s.ans = .ok resp ∧ resp.status ∈ t.statuses
  sameBytes : ∀ s ∈ sendings h, s.body.bytes req = req.body.bytes
  returned : ∀ resp, res.1 = some resp → ∃ s, (sendings h).head? = some s ∧ s.ans = .ok resp
  closed : ∀ s ∈ sendings h, ∀ resp, s.ans = .ok resp →
    .closeResponse s.attempt ∈ h.map Event.op ∨
      res.1 = some resp ∧ (sendings h).head? = some s
  untouched : ∀ bytes, .setBody .caller bytes ∉ h.map Event.op

/-- The body that the caller passed in was closed, here or by the inner transport. -/
def BodyClosed : Prop :=
  .closeBody ∈ h.map Event.op ∨ ∃ s ∈ sendings h, s.body = .own

structure WellBehaved : Prop extends Served t req h res where
  bodyClosed : ∀ bytes, req.body = .stream bytes → BodyClosed h

end Histories

section Invariant

variable {τ : Type} {t : RetryTransport} {req : Request} {getBody : Option Rewind} {p : Ptr}
  {n : Nat} {h : List (Event τ Call Ans)} {ev : Event τ Call Ans}

/-- A call that is neither of the inner transport nor on what the caller passed in. -/
def Quiet : Call → Prop
  | .closeBody => False
  | .setBody .caller _ => False
  | .next _ _ _ => False
  | _ => True

theorem sendings_quiet (hq : Quiet ev.op) : sendings (ev :: h) = sendings h := by
  obtain ⟨time, op, ans⟩ := ev
  cases op with
  | next attempt p body => cases hq
  | _ => rfl

theorem Faithful.of_cons (hf : Faithful req (ev :: h)) : Faithful req h :=
  fun time bytes hb => hf time bytes (hb.imp (mem_cons_of_mem _) (mem_cons_of_mem _))

/-- What holds after some calls in which every attempt was followed by another one. -/
structure Before (t : RetryTransport) (req : Request) (getBody : Option Rewind) (n : Nat)
    (h : List (Event τ Call Ans)) : Prop where
  numbered : (sendings h).map Sending.attempt = (List.range' 1 n).reverse
  retried : ∀ s ∈ sendings h, ∃ resp, s.ans = .ok resp ∧ resp.status ∈ t.statuses ∧
    .closeResponse s.attempt ∈ h.map Event.op
  bytes : Faithful req h → ∀ s ∈ sendings h, s.body.bytes req = req.body.bytes
  own : ∀ s ∈ sendings h, s.body = .own → getBody = none
  buffer : Faithful req h → ∀ buf, getBody = some (.buffer buf) → buf = req.body.bytes
  closes : .closeBody ∈ h.map Event.op ↔ ∃ buf, getBody = some (.buffer buf)
  untouched : ∀ bytes, .setBody .caller bytes ∉ h.map Event.op

section

variable (hb : Before t req getBody n h)
include hb

theorem Before.quiet (hq : Quiet ev.op) : Before t req getBody n (ev :: h) where
  numbered := by rw [sendings_quiet hq, hb.numbered]
  retried s hs := by
    rw [sendings_quiet hq] at hs
    obtain ⟨resp, hans, hstatus, hclosed⟩ := hb.retried s hs
    exact ⟨resp, hans, hstatus, mem_cons_of_mem _ hclosed⟩
  bytes hf s hs := by
    rw [sendings_quiet hq] at hs
    exact hb.bytes hf.of_cons s hs
  own s hs := by
    rw [sendings_quiet hq] at hs
    exact hb.own s hs
  buffer hf := hb.buffer hf.of_cons
  closes := by
    rw [map_cons, mem_cons, ← hb.closes]
    refine or_iff_right fun heq => ?_
    rw [← heq] at hq
    exact hq
  untouched bytes hmem := by
    rw [map_cons, mem_cons] at hmem
    rcases hmem with heq | hmem
    · rw [← heq] at hq
      exact hq
    · exact hb.untouched bytes hmem

theorem Before.length_eq : (sendings h).length = n := by
  rw [← length_map (f := Sending.attempt), hb.numbered, length_reverse,
    length_range']

/-- After a retry, a failed rewind or the end of the context there is no response to return. -/
theorem Before.served (hf : Faithful req h)
    (hn : (n : Int) ≤ max t.cfg.backoff.maxAttempts 1) (err : Option Err) :
    Served t req h (none, err) where
  attempts := by
    rw [hb.length_eq]
    exact hn
  numbered := by
    rw [hb.numbered, (reverse_perm _).nodup_iff]
    exact nodup_range'
  stops s hs := by
    obtain ⟨resp, hans, hstatus, -⟩ := hb.retried s (mem_of_mem_tail hs)
    exact ⟨resp, hans, hstatus⟩
  sameBytes := hb.bytes hf
  returned resp hresp := by cases hresp
  closed s hs resp hans := by
    obtain ⟨resp', -, -, hclosed⟩ := hb.retried s hs
    exact .inl hclosed
  untouched := hb.untouched

/-- What holds when the round trip returns. -/
structure Ended (t : RetryTransport) (req : Request) (getBody : Option Rewind)
    (res : Result) (h : List (Event τ Call Ans)) : Prop where
  served : Faithful req h → Served t req h res
  own : ∀ s ∈ sendings h, s.body = .own → getBody = none
  closes : .closeBody ∈ h.map Event.op ↔ ∃ buf, getBody = some (.buffer buf)

theorem Before.ended (hn : (n : Int) ≤ max t.cfg.backoff.maxAttempts 1) (err : Option Err) :
    Ended t req getBody (none, err) h :=
  ⟨fun hf => hb.served hf hn err, hb.own, hb.closes⟩

end

variable {body : Sent} {ans : Except Err Response} {time : τ} {quiet : List (Event τ Call Ans)}

theorem mem_sendings_next {s : Sending} :
    s ∈ sendings (⟨time, .next n p body, ans⟩ :: h : List (Event τ Call Ans)) ↔
      s = ⟨n, body, ans⟩ ∨ s ∈ sendings h := mem_cons

/-- The last call of the inner transport, whose response is returned if there is one. -/
theorem Before.ended_next (hb : Before t req getBody n h)
    (hn : (n : Int) + 1 ≤ max t.cfg.backoff.maxAttempts 1)
    (hbytes : Faithful req h → body.bytes req = req.body.bytes)
    (hown : body = .own → getBody = none) {res : Result}
    (hans : ∀ resp, ans = .ok resp ↔ res.1 = some resp) :
    Ended t req getBody res (⟨time, .next (n + 1) p body, ans⟩ :: h) where
  served hf :=
    { attempts := by
        have hlen := hb.length_eq
        rw [show sendings (⟨time, .next (n + 1) p body, ans⟩ :: h : List (Event τ Call Ans)) =
          ⟨n + 1, body, ans⟩ :: sendings h from rfl, length_cons, hlen]
        exact hn
      numbered := by
        rw [show sendings (⟨time, .next (n + 1) p body, ans⟩ :: h : List (Event τ Call Ans)) =
          ⟨n + 1, body, ans⟩ :: sendings h from rfl, map_cons, hb.numbered, nodup_cons,
          (reverse_perm _).nodup_iff]
        refine ⟨?_, nodup_range'⟩
        simp
        omega
      stops := fun s hs => by
        obtain ⟨resp, hresp, hstatus, -⟩ := hb.retried s hs
        exact ⟨resp, hresp, hstatus⟩
      sameBytes := fun s hs => by
        rcases mem_sendings_next.mp hs with rfl | hs
        · exact hbytes hf.of_cons
        · exact hb.bytes hf.of_cons s hs
      returned := fun resp hresp => ⟨_, rfl, (hans resp).mpr hresp⟩
      closed := fun s hs resp hresp => by
        rcases mem_sendings_next.mp hs with rfl | hs
        · exact .inr ⟨(hans resp).mp hresp, rfl⟩
        · obtain ⟨resp', -, -, hclosed⟩ := hb.retried s hs
          exact .inl (mem_cons_of_mem _ hclosed)
      untouched := fun bytes hmem => by
        rcases mem_cons.mp hmem with heq | hmem
        · cases heq
        · exact hb.untouched bytes hmem }
  own s hs hs' := by
    rcases mem_sendings_next.mp hs with rfl | hs
    · exact hown hs'
    · exact hb.own s hs hs'
  closes := by
    rw [← hb.closes, map_cons, mem_cons]
    exact or_iff_right nofun

theorem sendings_append_quiet
    (hquiet : ∀ ev ∈ quiet, Quiet ev.op) : sendings (quiet ++ h) = sendings h := by
  induction quiet with
  | nil => rfl
  | cons ev quiet ih =>
    obtain ⟨hev, hquiet⟩ := forall_mem_cons.mp hquiet
    rw [cons_append, sendings_quiet hev, ih hquiet]

theorem mem_ops_append_quiet (hquiet : ∀ ev ∈ quiet, Quiet ev.op) {o : Call} (ho : ¬ Quiet o) :
    o ∈ (quiet ++ h).map Event.op ↔ o ∈ h.map Event.op := by
  rw [map_append, mem_append]
  refine or_iff_right fun hmem => ?_
  obtain ⟨ev, hev, rfl⟩ := mem_map.mp hmem
  exact ho (hquiet ev hev)

/-- A response that is retried, once its body is closed. -/
theorem Before.retry (hb : Before t req getBody n h)
    (hbytes : Faithful req h → body.bytes req = req.body.bytes)
    (hown : body = .own → getBody = none) {resp : Response}
    (hstatus : resp.status ∈ t.statuses) (hquiet : ∀ ev ∈ quiet, Quiet ev.op) (p : Ptr)
    (time time' : τ) : Before t req getBody (n + 1) (⟨time', .closeResponse (n + 1), ()⟩ ::
      (quiet ++ ⟨time, .next (n + 1) p body, .ok resp⟩ :: h)) := by
  have hall : ∀ ev ∈ ⟨time', .closeResponse (n + 1), ()⟩ :: quiet, Quiet ev.op :=
    forall_mem_cons.mpr ⟨trivial, hquiet⟩
  rw [← cons_append]
  have hsendings := sendings_append_quiet
    (h := ⟨time, .next (n + 1) p body, .ok resp⟩ :: h) hall
  have hfaithful : Faithful req (⟨time', .closeResponse (n + 1), ()⟩ :: quiet ++
      ⟨time, .next (n + 1) p body, .ok resp⟩ :: h) → Faithful req h := by
    intro hf time bytes hb
    refine hf time bytes (hb.imp ?_ ?_)
    · exact fun hmem => mem_append_right _ (mem_cons_of_mem _ hmem)
    · exact fun hmem => mem_append_right _ (mem_cons_of_mem _ hmem)
  have hops (o : Call) (ho : ¬ Quiet o) (hne : o ≠ .next (n + 1) p body) :
      o ∈ (⟨time', .closeResponse (n + 1), ()⟩ :: quiet ++
        ⟨time, .next (n + 1) p body, .ok resp⟩ :: h).map Event.op ↔ o ∈ h.map Event.op := by
    rw [mem_ops_append_quiet hall ho, map_cons, mem_cons]
    exact or_iff_right hne
  constructor
  · rw [hsendings, List.range'_1_concat, reverse_append, ← hb.numbered, Nat.add_comm 1 n]
    rfl
  · intro s hs
    rw [hsendings, mem_sendings_next] at hs
    rcases hs with rfl | hs
    · exact ⟨resp, rfl, hstatus, mem_cons_self⟩
    · obtain ⟨resp', hans, hstatus', hclosed⟩ := hb.retried s hs
      refine ⟨resp', hans, hstatus', ?_⟩
      rw [map_append]
      exact mem_append_right _ (mem_cons_of_mem _ hclosed)
  · intro hf s hs
    rw [hsendings, mem_sendings_next] at hs
    rcases hs with rfl | hs
    · exact hbytes (hfaithful hf)
    · exact hb.bytes (hfaithful hf) s hs
  · intro s hs
    rw [hsendings, mem_sendings_next] at hs
    rcases hs with rfl | hs
    · exact hown
    · exact hb.own s hs
  · exact fun hf => hb.buffer (hfaithful hf)
  · rw [hops .closeBody id nofun, hb.closes]
  · intro bytes
    rw [hops (.setBody .caller bytes) id nofun]
    exact hb.untouched bytes

end Invariant

section Programs

variable {τ : Type} {t : RetryTransport} {parseTime : String → Option Int} {req : Request}
  {getBody : Option Rewind} {p : Ptr} {n : Nat} {h : List (Event τ Call Ans)}

/-- Calls are admitted at any history. -/
def anywhere : List (Event τ Call Ans) → Call → Prop := fun _ _ => True

theorem wp_pause (attempt : Nat) (resp : Response) :
    wp anywhere (fun _ h' => ∃ quiet : List (Event τ Call Ans), h' = quiet ++ h ∧
      ∀ ev ∈ quiet, Quiet ev.op) (t.pause parseTime attempt resp) h := by
  unfold RetryTransport.pause
  simp only [Prog.ask_bind, wp_call]
  refine ⟨trivial, fun time now => ?_⟩
  split
  · exact ⟨[⟨time, .now, now⟩], rfl, by simp [Quiet]⟩
  · refine ⟨trivial, fun time' rand => ?_⟩
    exact ⟨[⟨time', .rand, rand⟩, ⟨time, .now, now⟩], rfl, by simp [Quiet]⟩

theorem wp_renewBody (hb : Before t req getBody n h) (hp : getBody ≠ none → p = .clone) :
    wp anywhere (fun r h' => Before t req getBody n h' ∧ ∀ body, r = .ok body →
      (Faithful req h' → body.bytes req = req.body.bytes) ∧ (body = .own → getBody = none))
      (renewBody p getBody) h := by
  cases getBody with
  | none =>
    refine ⟨hb, fun body hbody => ?_⟩
    cases hbody
    exact ⟨fun _ => rfl, fun _ => rfl⟩
  | some g =>
    obtain rfl := hp nofun
    cases g with
    | original =>
      refine ⟨trivial, fun time ans => ?_⟩
      cases ans with
      | error err => exact ⟨hb.quiet trivial, nofun⟩
      | ok bytes =>
        have hb₁ : Before t req (some .original) n (⟨time, .getBody, .ok bytes⟩ :: h) :=
          hb.quiet trivial
        refine ⟨trivial, fun time' _ => ?_⟩
        have hb₂ : Before t req (some .original) n (⟨time', .setBody .clone bytes, ()⟩ :: _) :=
          hb₁.quiet trivial
        refine ⟨hb₂, fun body hbody => ?_⟩
        cases hbody
        refine ⟨fun hf => hf time bytes (.inr ?_), nofun⟩
        exact mem_cons_of_mem _ mem_cons_self
    | buffer buf =>
      refine ⟨trivial, fun time _ => ?_⟩
      have hb' : Before t req (some (.buffer buf)) n (⟨time, .setBody .clone buf, ()⟩ :: h) :=
        hb.quiet trivial
      refine ⟨hb', fun body hbody => ?_⟩
      cases hbody
      exact ⟨fun hf => hb'.buffer hf buf rfl, nofun⟩

/-- One turn ends the round trip or goes on with what follows it. -/
theorem wp_turn (hb : Before t req getBody n h) (hp : getBody ≠ none → p = .clone)
    (hn : (n : Int) + 1 ≤ max t.cfg.backoff.maxAttempts 1)
    {again : Option (Prog Call Ans Result)}
    (hagain : ∀ rest ∈ again, ∀ h' : List (Event τ Call Ans), Before t req getBody (n + 1) h' →
      wp anywhere (Ended t req getBody) rest h') :
    wp anywhere (Ended t req getBody) (t.turn parseTime getBody p (n + 1) again) h := by
  unfold RetryTransport.turn
  refine wp_seq (wp_renewBody hb hp) fun r h₁ hr => ?_
  obtain ⟨hb₁, hbody⟩ := hr
  cases r with
  | error err => exact hb₁.ended (by omega) _
  | ok body =>
    obtain ⟨hbytes, hown⟩ := hbody body rfl
    dsimp only
    rw [Prog.ask_bind]
    refine ⟨trivial, fun time ans => ?_⟩
    cases ans with
    | error err => exact hb₁.ended_next hn hbytes hown (by simp)
    | ok resp =>
      have hlast : Ended t req getBody (some resp, none)
          (⟨time, .next (n + 1) p body, .ok resp⟩ :: h₁) :=
        hb₁.ended_next hn hbytes hown (by simp)
      dsimp only
      split_ifs with hstatus
      · cases again with
        | none => exact hlast
        | some rest =>
          refine wp_seq (wp_pause (n + 1) resp) fun d h₂ hquiet => ?_
          obtain ⟨quiet, rfl, hquiet⟩ := hquiet
          refine ⟨trivial, fun time' _ => ⟨trivial, fun time'' ans => ?_⟩⟩
          have hb₂ := hb₁.retry hbytes hown hstatus hquiet p time time'
          have hb₃ : Before t req getBody (n + 1) (⟨time'', .wait d, ans⟩ :: _) :=
            hb₂.quiet trivial
          cases ans with
          | some err => exact hb₃.ended (by push_cast; exact hn) _
          | none => exact hagain rest rfl _ hb₃
      · exact hlast

theorem wp_loop (left : Nat) (hb : Before t req getBody n h) (hp : getBody ≠ none → p = .clone)
    (hn : (n : Int) + 1 + left ≤ max t.cfg.backoff.maxAttempts 1) :
    wp anywhere (Ended t req getBody) (t.loop parseTime getBody p left (n + 1)) h := by
  induction left generalizing n h with
  | zero => exact wp_turn hb hp (by simpa using hn) nofun
  | succ left ih =>
    refine wp_turn hb hp (by omega) fun rest hrest h' hb' => ?_
    cases hrest
    exact ih hb' (by push_cast at hn ⊢; omega)

theorem Before.init (hnone : sendings h = [])
    (hbuffer : Faithful req h → ∀ buf, getBody = some (.buffer buf) → buf = req.body.bytes)
    (hcloses : .closeBody ∈ h.map Event.op ↔ ∃ buf, getBody = some (.buffer buf))
    (huntouched : ∀ bytes, .setBody .caller bytes ∉ h.map Event.op) :
    Before t req getBody 0 h where
  numbered := by rw [hnone]; rfl
  retried s hs := by rw [hnone] at hs; cases hs
  bytes _ s hs := by rw [hnone] at hs; cases hs
  own s hs := by rw [hnone] at hs; cases hs
  buffer := hbuffer
  closes := hcloses
  untouched := huntouched

theorem Served.of_none (hnone : sendings h = [])
    (huntouched : ∀ bytes, .setBody .caller bytes ∉ h.map Event.op) (err : Option Err) :
    Served t req h (none, err) where
  attempts := by
    rw [hnone]
    exact le_max_of_le_right (by decide)
  numbered := by rw [hnone]; exact nodup_nil
  stops s hs := by rw [hnone] at hs; cases hs
  sameBytes s hs := by rw [hnone] at hs; cases hs
  returned resp hresp := by cases hresp
  closed s hs := by rw [hnone] at hs; cases hs
  untouched := huntouched

/-- A body that can be rewound by `GetBody`. -/
def Request.Rewindable (req : Request) : Prop :=
  (∃ bytes, req.body = .stream bytes) ∧ req.getBody = true

/-- How a round trip ends, told from the body of the request. -/
def EndedFor (t : RetryTransport) (req : Request) (res : Result) (h : List (Event τ Call Ans)) :
    Prop :=
  (Faithful req h → Served t req h res) ∧
    (req.Rewindable → ¬ BodyClosed h) ∧
    (¬ req.Rewindable → ∀ bytes, req.body = .stream bytes → BodyClosed h)

/-- The function fits the body. -/
structure Rewinds (req : Request) (getBody : Option Rewind) : Prop where
  original : req.Rewindable → getBody = some .original
  buffer : ¬ req.Rewindable → ∀ bytes, req.body = .stream bytes →
    ∃ buf, getBody = some (.buffer buf)

theorem Ended.endedFor {res : Result} (he : Ended t req getBody res h)
    (hrewinds : Rewinds req getBody) : EndedFor t req res h := by
  refine ⟨he.served, fun hreq hclosed => ?_, fun hreq bytes hbody => .inl ?_⟩
  · rcases hclosed with hclosed | ⟨s, hs, hown⟩
    · obtain ⟨buf, hbuf⟩ := he.closes.mp hclosed
      rw [hrewinds.original hreq] at hbuf
      cases hbuf
    · have hnone := he.own s hs hown
      rw [hrewinds.original hreq] at hnone
      cases hnone
  · exact he.closes.mpr (hrewinds.buffer hreq bytes hbody)

theorem wp_rewindable (t : RetryTransport) (req : Request) :
    wp (τ := τ) anywhere (fun r h => match r with
      | .error err => EndedFor t req (none, some err) h
      | .ok getBody => Before t req getBody 0 h ∧ Rewinds req getBody) (rewindable req) [] := by
  have hinit {g : Option Rewind} (hg : ∀ buf, g ≠ some (.buffer buf)) :
      Before t req g 0 ([] : List (Event τ Call Ans)) :=
    .init rfl (fun _ buf hbuf => absurd hbuf (hg buf)) (iff_of_false nofun fun ⟨buf, hbuf⟩ =>
      hg buf hbuf) nofun
  have hnothing (hno : ∀ bytes, req.body ≠ .stream bytes) :
      Before t req none 0 ([] : List (Event τ Call Ans)) ∧ Rewinds req none := by
    refine ⟨hinit nofun, fun hreq => ?_, fun _ bytes hbytes => absurd hbytes (hno bytes)⟩
    obtain ⟨bytes, hbytes⟩ := hreq.1
    exact absurd hbytes (hno bytes)
  unfold rewindable
  cases hbody : req.body with
  | none => exact hnothing (by simp [hbody])
  | noBody => exact hnothing (by simp [hbody])
  | stream bytes =>
    dsimp only
    split_ifs with hget
    · exact ⟨hinit nofun, fun _ => rfl, fun hreq => absurd ⟨⟨bytes, hbody⟩, hget⟩ hreq⟩
    · refine ⟨trivial, fun time ans => ⟨trivial, fun time' _ => ?_⟩⟩
      have hreq : ¬ req.Rewindable := fun hreq => hget hreq.2
      cases ans with
      | error err =>
        refine ⟨fun _ => .of_none rfl (by simp) _, fun h => absurd h hreq, fun _ _ _ => .inl ?_⟩
        exact mem_cons_self
      | ok buf =>
        refine ⟨.init rfl ?_ ?_ ?_, fun h => absurd h hreq, fun _ _ _ => ⟨buf, rfl⟩⟩
        · intro hf buf' hbuf
          cases hbuf
          exact hf time buf (.inl (by simp))
        · simp
        · simp

theorem wp_roundTrip (t : RetryTransport) (parseTime : String → Option Int) (req : Request) :
    wp (τ := τ) anywhere (EndedFor t req) (t.roundTrip parseTime req) [] := by
  refine wp_seq (wp_rewindable t req) fun r h hr => ?_
  cases r with
  | error err => exact hr
  | ok getBody =>
    obtain ⟨hb, hrewinds⟩ := hr
    have hp : getBody ≠ none → (if getBody.isSome then Ptr.clone else Ptr.caller) = .clone := by
      intro hne
      rw [if_pos (Option.isSome_iff_ne_none.mpr hne)]
    refine wp_mono (fun res h he => he.endedFor hrewinds) (wp_loop _ hb hp ?_)
    omega

/-- The transport is well behaved unless the body of the request can be rewound by `GetBody`:
that body is never closed. -/
theorem wellBehaved_iff {res : Result} (hx : Exec (t.roundTrip parseTime req) h (.ret res))
    (hf : Faithful req h) : WellBehaved t req h res ↔ ¬ req.Rewindable := by
  obtain ⟨hserved, hopen, hclosed⟩ := hx.wp (wp_roundTrip t parseTime req)
  constructor
  · intro hw hreq
    obtain ⟨bytes, hbody⟩ := hreq.1
    exact hopen hreq (hw.bodyClosed bytes hbody)
  · intro hreq
    exact ⟨hserved hf, hclosed hreq⟩

end Programs

section Examples

/-- Three attempts that wait a second where the header does not say. -/
def threeAttempts : RetryTransport := newRetryTransport halfMinute

def noDate : String → Option Int := fun _ => none

/-- A body without `GetBody` is read, the response 503 is retried and the response 200 returned. -/
def retriedCalls : List (Event Unit Call Ans) :=
  [⟨(), .readAll, .ok [1, 2]⟩, ⟨(), .closeBody, ()⟩, ⟨(), .setBody .clone [1, 2], ()⟩,
    ⟨(), .next 1 .clone (.fresh [1, 2]), .ok ⟨503, "2"⟩⟩, ⟨(), .now, 0⟩,
    ⟨(), .closeResponse 1, ()⟩, ⟨(), .wait (2 * second), none⟩,
    ⟨(), .setBody .clone [1, 2], ()⟩, ⟨(), .next 2 .clone (.fresh [1, 2]), .ok ⟨200, ""⟩⟩]

theorem wellBehaved_retried :
    Exec (threeAttempts.roundTrip noDate ⟨.stream [1, 2], false⟩) retriedCalls.reverse
        (.ret (some ⟨200, ""⟩, none)) ∧
      WellBehaved threeAttempts ⟨.stream [1, 2], false⟩ retriedCalls.reverse
        (some ⟨200, ""⟩, none) := by
  have hx : Exec (threeAttempts.roundTrip noDate ⟨.stream [1, 2], false⟩) retriedCalls.reverse
      (.ret (some ⟨200, ""⟩, none)) := by
    rw [← append_nil retriedCalls.reverse]
    exact Exec.of_play .start retriedCalls rfl
  refine ⟨hx, (wellBehaved_iff hx ?_).mpr fun hreq => nomatch hreq.2⟩
  intro time bytes hmem
  simpa [retriedCalls, Payload.bytes] using hmem

/-- A body with `GetBody` is sent from a copy, and the one of the caller stays open. -/
def copiedCalls : List (Event Unit Call Ans) :=
  [⟨(), .getBody, .ok [1, 2]⟩, ⟨(), .setBody .clone [1, 2], ()⟩,
    ⟨(), .next 1 .clone (.fresh [1, 2]), .ok ⟨200, ""⟩⟩]

theorem body_left_open :
    Exec (threeAttempts.roundTrip noDate ⟨.stream [1, 2], true⟩) copiedCalls.reverse
        (.ret (some ⟨200, ""⟩, none)) ∧
      Faithful ⟨.stream [1, 2], true⟩ copiedCalls.reverse ∧ ¬ BodyClosed copiedCalls.reverse := by
  refine ⟨?_, ?_, ?_⟩
  · rw [← append_nil copiedCalls.reverse]
    exact Exec.of_play .start copiedCalls rfl
  · intro time bytes hmem
    simpa [copiedCalls, Payload.bytes] using hmem
  · simp [BodyClosed, copiedCalls, sendings, sending]

end Examples

end Skit.Httpmw
