import Skit.Dedup.Memory
import Skit.Dedup.Redis

/-!
# Interchangeable stores

Two stores that keep every record equally long show the same view after any operations, and so
they answer alike. The memory and the Redis store both keep a record of whole milliseconds exactly
as long as it was set for, when the server is not late.
-/
namespace Skit.Dedup
open Lib Expiring List

inductive StoreOp
  | acquire (key token : Text) (lease : Int)
  | complete (key token value : Text) (ttl : Int)
  | release (key token : Text)

inductive StoreReply
  | acquired (r : Except Err Found)
  | completed (r : Except Err Bool)
  | released (err : Option Err)

namespace StoreOp

def token : StoreOp → Text
  | acquire _ token _ => token
  | complete _ token _ _ => token
  | release _ token => token

/-- How long a record is set for. -/
def duration : StoreOp → Option Int
  | acquire _ _ lease => some lease
  | complete _ _ _ ttl => some ttl
  | release _ _ => none

/-- An operation at the instant `now`, on a store that is never late. -/
def run (A : Store) (now : Int) : StoreOp → A.State → StoreReply × A.State
  | acquire key token lease, s =>
    let r := A.acquire s now 0 key token lease
    (.acquired r.1, r.2)
  | complete key token value ttl, s =>
    let r := A.complete s now 0 key token value ttl
    (.completed r.1, r.2)
  | release key token, s =>
    let r := A.release s now key token
    (.released r.1, r.2)

/-- The operations in the order of the list, each at its instant. -/
def replies (A : Store) : List (Int × StoreOp) → A.State → List StoreReply
  | [], _ => []
  | (now, op) :: ops, s => (op.run A now s).1 :: replies A ops (op.run A now s).2

/-- A token that is not empty and a duration of whole milliseconds. -/
structure Valid (op : StoreOp) : Prop where
  token : op.token ≠ []
  duration : ∀ d ∈ op.duration, 0 < d ∧ millisecond ∣ d

end StoreOp

section Simulation

variable {A B : Store} {s : A.State} {s' : B.State} {now : Int}

theorem view_later_congr {now' : Int} (hnow : now ≤ now') (h : A.view s now = B.view s' now) :
    A.view s now' = B.view s' now' := by
  funext key
  rw [A.view_later s now now' key hnow, B.view_later s' now now' key hnow, h]

/-- One operation on two stores with one view. -/
theorem StoreOp.run_congr {op : StoreOp} (htoken : op.token ≠ [])
    (hlife : ∀ d ∈ op.duration, 0 < d ∧ A.life d = B.life d)
    (hA : ∀ key token, (A.release s now key token).1 = none)
    (hB : ∀ key token, (B.release s' now key token).1 = none)
    (h : A.view s now = B.view s' now) :
    (op.run A now s).1 = (op.run B now s').1 ∧
      A.view (op.run A now s).2 now = B.view (op.run B now s').2 now := by
  cases op with
  | acquire key token lease =>
    obtain ⟨hpos, heq⟩ := hlife lease rfl
    obtain ⟨hfound, hview⟩ :=
      A.acquire_view s now 0 key token lease htoken hpos le_rfl A.late_nonneg
    obtain ⟨hfound', hview'⟩ :=
      B.acquire_view s' now 0 key token lease htoken hpos le_rfl B.late_nonneg
    rw [h, heq] at hfound hview
    exact ⟨congrArg StoreReply.acquired (hfound.trans hfound'.symm), hview.trans hview'.symm⟩
  | complete key token value ttl =>
    obtain ⟨hpos, heq⟩ := hlife ttl rfl
    obtain ⟨hok, hview⟩ :=
      A.complete_view s now 0 key token value ttl htoken hpos le_rfl A.late_nonneg
    obtain ⟨hok', hview'⟩ :=
      B.complete_view s' now 0 key token value ttl htoken hpos le_rfl B.late_nonneg
    rw [h, heq] at hok hview
    exact ⟨congrArg StoreReply.completed (hok.trans hok'.symm), hview.trans hview'.symm⟩
  | release key token =>
    have hview := A.release_view s now key token htoken
    rw [h, ← B.release_view s' now key token htoken] at hview
    exact ⟨congrArg StoreReply.released ((hA key token).trans (hB key token).symm), hview⟩

/-- Two stores that keep the records of the operations equally long answer alike. -/
theorem StoreOp.replies_congr {ops : List (Int × StoreOp)}
    (htimes : (ops.map Prod.fst).Pairwise (· ≤ ·)) (hnow : ∀ p ∈ ops, now ≤ p.1)
    (hops : ∀ p ∈ ops, p.2.token ≠ [] ∧ ∀ d ∈ p.2.duration, 0 < d ∧ A.life d = B.life d)
    (hA : ∀ s now key token, (A.release s now key token).1 = none)
    (hB : ∀ s now key token, (B.release s now key token).1 = none)
    (h : A.view s now = B.view s' now) :
    StoreOp.replies A ops s = StoreOp.replies B ops s' := by
  induction ops generalizing s s' now with
  | nil => rfl
  | cons p ops ih =>
    obtain ⟨t, op⟩ := p
    obtain ⟨hlater, htimes⟩ := pairwise_cons.mp htimes
    obtain ⟨htoken, hlife⟩ := hops _ mem_cons_self
    obtain ⟨hreply, hview⟩ := StoreOp.run_congr htoken hlife (hA s t) (hB s' t)
      (view_later_congr (hnow _ mem_cons_self) h)
    rw [StoreOp.replies, StoreOp.replies, hreply]
    refine congrArg _ (ih htimes (fun q hq => ?_) (fun q hq => ?_) hview)
    · exact hlater q.1 (mem_map_of_mem hq)
    · exact hops q (mem_cons_of_mem _ hq)

end Simulation

/-- The memory store, whenever it was swept last, and the Redis store answer alike. -/
theorem stores_interchangeable (swept : Option Int) {ops : List (Int × StoreOp)}
    (htimes : (ops.map Prod.fst).Pairwise (· ≤ ·)) (hops : ∀ p ∈ ops, p.2.Valid) :
    StoreOp.replies memory ops ⟨fun _ => none, swept⟩ = StoreOp.replies redis ops redis.empty := by
  cases ops with
  | nil => rfl
  | cons p ops =>
    have hfirst : ∀ q ∈ p :: ops, p.1 ≤ q.1 := by
      intro q hq
      rcases mem_cons.mp hq with rfl | hq
      · exact le_rfl
      · exact (pairwise_cons.mp htimes).1 q.1 (mem_map_of_mem hq)
    refine StoreOp.replies_congr htimes hfirst (fun q hq => ?_) (fun _ _ _ _ => rfl)
      (fun _ _ _ _ => rfl) rfl
    refine ⟨(hops q hq).token, fun d hd => ?_⟩
    obtain ⟨hpos, hms⟩ := (hops q hq).duration d hd
    exact ⟨hpos, (millis_mul hpos hms).symm⟩

section Example

/-- A call holds the key, completes it at its last instant but one, and the result expires. -/
def expiring : List (Int × StoreOp) :=
  [(0, .acquire ['k'] ['a'] millisecond), (5, .acquire ['k'] ['b'] millisecond),
    (999999, .complete ['k'] ['a'] ['v'] (2 * millisecond)),
    (2999998, .acquire ['k'] ['c'] millisecond), (2999999, .acquire ['k'] ['d'] millisecond)]

theorem expiring_valid : ∀ p ∈ expiring, p.2.Valid := by
  have htokens : ∀ p ∈ expiring, p.2.token ≠ [] := by decide
  have hdurations : ∀ p ∈ expiring, ∀ d ∈ p.2.duration, 0 < d ∧ millisecond ∣ d := by decide
  exact fun p hp => ⟨htokens p hp, hdurations p hp⟩

end Example

theorem stores_interchangeable_expiring : StoreOp.replies redis expiring redis.empty =
    [.acquired (.ok .acquired), .acquired (.ok .running), .completed (.ok true),
      .acquired (.ok (.done ['v'])), .acquired (.ok .acquired)] := by
  rw [← stores_interchangeable none (by decide) expiring_valid]
  rfl

end Skit.Dedup
