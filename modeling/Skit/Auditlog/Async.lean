import Skit.Auditlog.Table
import Skit.Lib.Trace
import Mathlib.Logic.Function.Basic

/-!
# The asynchronous recorder

`AsyncRecorder` as a machine whose parties move one at a time: the calls of `Record`, the
coordinator and the shard workers that `Start` launches, `Start` itself, and the caller that
cancels its context. A call is named by `ι`. The read locks of `mu` are the calls between
`RLock` and `RUnlock`; its writer is the coordinator, and while it waits for the lock or has
it, `RLock` blocks. A label is one step of one party.
-/
namespace Skit.Auditlog.Async
open Lib

structure AsyncConfig where
  workers : Int
  buffer : Int
  blockOnFull : Bool

/-- The number of shards that `NewAsyncRecorder` makes. -/
def AsyncConfig.shards (cfg : AsyncConfig) : Nat :=
  if cfg.workers ≤ 0 then 4 else cfg.workers.toNat

/-- The capacity of every shard. -/
def AsyncConfig.capacity (cfg : AsyncConfig) : Nat :=
  if cfg.buffer ≤ 0 then 256 else cfg.buffer.toNat

section Shards

/-- `fnv.New32a`. -/
def fnv32a (bytes : List UInt8) : UInt32 :=
  bytes.foldl (fun h b => (h ^^^ b.toUInt32) * 16777619) 2166136261

def modelBytes (m : Model) : List UInt8 :=
  m.modelType.toUTF8.toList ++ 0 :: m.modelID.toUTF8.toList

/-- `shardFor`, over `n` shards; `none` is the division by zero when `uint32(n)` is zero. -/
def shardFor (n : Nat) (m : Model) : Option Nat :=
  if UInt32.ofNat n = 0 then none else some (fnv32a (modelBytes m) % UInt32.ofNat n).toNat

theorem shardFor_lt {n k : Nat} {m : Model} (h : shardFor n m = some k) : k < n := by
  unfold shardFor at h
  split_ifs at h with hzero
  cases h
  have hpos : 0 < (UInt32.ofNat n).toNat := by
    refine Nat.pos_of_ne_zero fun h0 => hzero ?_
    exact UInt32.toNat_inj.mp (by simpa using h0)
  rw [UInt32.toNat_mod]
  calc _ < (UInt32.ofNat n).toNat := Nat.mod_lt _ hpos
    _ ≤ n := by
      rw [UInt32.toNat_ofNat']
      exact Nat.mod_le _ _

end Shards

section States

/-- Where a call of `Record` stands. After `unlocking` it only releases the read lock; the
flag says whether its entry was enqueued or dropped. -/
inductive Producer
  | idle
  | called
  | checking
  | sending
  | dropping
  | unlocking (sent : Bool)
  | returned (sent : Bool)
  | panicked
  deriving DecidableEq

/-- The call holds the read lock. -/
def Producer.holds : Producer → Bool
  | .checking | .sending | .dropping | .unlocking _ => true
  | _ => false

/-- Where a shard worker stands in `drain`: at the outer `select` or in a write from it,
waiting for `drainReady`, at the inner `select` or in a write from that one. -/
inductive Worker (ι : Type)
  | idle
  | select
  | writing (i : ι)
  | waiting
  | draining
  | flushing (i : ι)
  | returned

/-- The entry that a worker writes. -/
def Worker.current {ι : Type} : Worker ι → List ι
  | .writing i | .flushing i => [i]
  | _ => []

/-- Where the coordinator stands: it has closed `done`, waits for the write lock, has it, has
set `closing`, has released the lock, has closed `drainReady`. -/
inductive Coordinator
  | idle
  | waiting
  | closed
  | locking
  | locked
  | marked
  | unlocked
  | finished
  deriving DecidableEq

/-- The coordinator waits for the write lock or has it. -/
def Coordinator.writes : Coordinator → Bool
  | .locking | .locked | .marked => true
  | _ => false

inductive Starter
  | idle
  | waiting
  | returned
  deriving DecidableEq

/-- Shards and their workers are numbered from zero. -/
structure State (ι : Type) where
  producers : ι → Producer
  queues : Nat → List ι
  workers : Nat → Worker ι
  coordinator : Coordinator
  starter : Starter
  closing : Bool
  done : Bool
  drainReady : Bool
  canceled : Bool

def State.new {ι : Type} : State ι where
  producers _ := .idle
  queues _ := []
  workers _ := .idle
  coordinator := .idle
  starter := .idle
  closing := false
  done := false
  drainReady := false
  canceled := false

/-- `receive` is the begin of a write and `finish` its end, by a return or a panic. -/
inductive Label (ι : Type)
  | call (i : ι)
  | rlock (i : ι)
  | check (i : ι)
  | send (i : ι) (k : Nat)
  | skip (i : ι)
  | drop (i : ι)
  | ret (i : ι)
  | start
  | join
  | cancel
  | closeDone
  | lock
  | locked
  | mark
  | unlock
  | closeDrain
  | receive (k : Nat) (i : ι)
  | finish (k : Nat) (i : ι)
  | stop (k : Nat)
  | ready (k : Nat)
  | exit (k : Nat)
  deriving DecidableEq

end States

section Steps

variable {ι : Type} [DecidableEq ι]

def State.setProducer (s : State ι) (i : ι) (p : Producer) : State ι :=
  { s with producers := Function.update s.producers i p }

def State.setWorker (s : State ι) (k : Nat) (w : Worker ι) : State ι :=
  { s with workers := Function.update s.workers k w }

def State.setQueue (s : State ι) (k : Nat) (q : List ι) : State ι :=
  { s with queues := Function.update s.queues k q }

variable (cfg : AsyncConfig) (entry : ι → Model)

inductive Step (s : State ι) : Label ι → State ι → Prop
  | call {i : ι} {k : Nat} : s.producers i = .idle → shardFor cfg.shards (entry i) = some k →
      Step s (.call i) (s.setProducer i .called)
  | panic {i : ι} : s.producers i = .idle → shardFor cfg.shards (entry i) = none →
      Step s (.call i) (s.setProducer i .panicked)
  | rlock {i : ι} : s.producers i = .called → s.coordinator.writes = false →
      Step s (.rlock i) (s.setProducer i .checking)
  | refused {i : ι} : s.producers i = .checking → s.closing = true →
      Step s (.check i) (s.setProducer i .dropping)
  | admitted {i : ι} : s.producers i = .checking → s.closing = false →
      Step s (.check i) (s.setProducer i .sending)
  | send {i : ι} {k : Nat} : s.producers i = .sending → shardFor cfg.shards (entry i) = some k →
      (s.queues k).length < cfg.capacity →
      Step s (.send i k) ((s.setProducer i (.unlocking true)).setQueue k (s.queues k ++ [i]))
  | done {i : ι} : s.producers i = .sending → cfg.blockOnFull = true → s.done = true →
      Step s (.skip i) (s.setProducer i .dropping)
  | full {i : ι} {k : Nat} : s.producers i = .sending → cfg.blockOnFull = false →
      shardFor cfg.shards (entry i) = some k → cfg.capacity ≤ (s.queues k).length →
      Step s (.skip i) (s.setProducer i .dropping)
  | drop {i : ι} : s.producers i = .dropping →
      Step s (.drop i) (s.setProducer i (.unlocking false))
  | ret {i : ι} {sent : Bool} : s.producers i = .unlocking sent →
      Step s (.ret i) (s.setProducer i (.returned sent))
  | start : s.starter = .idle → Step s .start { s with
      starter := .waiting
      coordinator := .waiting
      workers := fun k => if k < cfg.shards then .select else .idle }
  | join : s.starter = .waiting → (∀ k < cfg.shards, s.workers k = .returned) →
      Step s .join { s with starter := .returned }
  | cancel : s.canceled = false → Step s .cancel { s with canceled := true }
  | closeDone : s.coordinator = .waiting → s.canceled = true →
      Step s .closeDone { s with coordinator := .closed, done := true }
  | lock : s.coordinator = .closed → Step s .lock { s with coordinator := .locking }
  | locked : s.coordinator = .locking → (∀ i, (s.producers i).holds = false) →
      Step s .locked { s with coordinator := .locked }
  | mark : s.coordinator = .locked →
      Step s .mark { s with coordinator := .marked, closing := true }
  | unlock : s.coordinator = .marked → Step s .unlock { s with coordinator := .unlocked }
  | closeDrain : s.coordinator = .unlocked →
      Step s .closeDrain { s with coordinator := .finished, drainReady := true }
  | receive {k : Nat} {i : ι} {q : List ι} : s.workers k = .select → s.queues k = i :: q →
      Step s (.receive k i) ((s.setWorker k (.writing i)).setQueue k q)
  | finish {k : Nat} {i : ι} : s.workers k = .writing i →
      Step s (.finish k i) (s.setWorker k .select)
  | stop {k : Nat} : s.workers k = .select → s.canceled = true →
      Step s (.stop k) (s.setWorker k .waiting)
  | ready {k : Nat} : s.workers k = .waiting → s.drainReady = true →
      Step s (.ready k) (s.setWorker k .draining)
  | flush {k : Nat} {i : ι} {q : List ι} : s.workers k = .draining → s.queues k = i :: q →
      Step s (.receive k i) ((s.setWorker k (.flushing i)).setQueue k q)
  | flushed {k : Nat} {i : ι} : s.workers k = .flushing i →
      Step s (.finish k i) (s.setWorker k .draining)
  | exit {k : Nat} : s.workers k = .draining → s.queues k = [] →
      Step s (.exit k) (s.setWorker k .returned)

/-- An `AsyncRecorder` from `NewAsyncRecorder` on, with any number of calls of `Record`, one
`Start` and one cancellation. -/
def recorder : Machine (State ι) (Label ι) where
  init s := s = .new
  step := Step cfg entry

end Steps

end Skit.Auditlog.Async
