import Skit.Basic

/-!
# Messages of a broker

The data the transports share: a message, the verdict of a handler on it, and the
decoding and guarding of the consumer core.
-/
namespace Skit.Broker

/-- A `map[string]string`; `put` keeps one value to a key. -/
abbrev Headers := List (String × String)

def Headers.put (h : Headers) (key value : String) : Headers :=
  (key, value) :: h.filter (·.1 ≠ key)

structure Message where
  id : String
  type : String
  source : String
  time : Int
  contentType : String
  data : List UInt8
  topic : String
  headers : Headers
  deriving DecidableEq

/-- `IsPermanent` on an error value. -/
def isPermanent (err : Option Err) : Bool :=
  (err.bind (Err.asType fun | .brokerPermanent e => some e | _ => none)).isSome

/-- The verdict of a handler. `other` is a value that names no action. -/
inductive Action
  | ack
  | requeue
  | discard
  | other (n : Int)
  deriving DecidableEq

/-- How a call of a `Handler` ends. -/
inductive Verdict
  | returned (action : Action)
  | panicked (value : String)
  deriving DecidableEq

structure Delivery where
  body : List UInt8
  headers : Headers
  topic : String

/-- `Envelope.Unmarshal`. -/
abbrev Unmarshal := List UInt8 → Headers → Except Err Message

/-- `consume.Decode`. -/
def decode (env : Unmarshal) (d : Delivery) : Except Err Message :=
  match env d.body d.headers with
  | .error err => .error err
  | .ok m => .ok { m with headers := d.headers, topic := d.topic }

/-- `consume.Guard`: a handler that panics gets `requeue`. -/
def guard : Verdict → Action
  | .returned action => action
  | .panicked _ => .requeue

end Skit.Broker
