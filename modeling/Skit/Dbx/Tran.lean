import Skit.Basic
import Skit.Lib.Prog

/-!
# Transactions

`WithinTran` on a pool opens a transaction, runs the function in it and commits, up to three times
while the error is a retryable one; on a transaction it runs the function in that one. The program
makes its calls on the database, and an execution answers them in any way. The function may keep
state from run to run, and may make calls of `WithinTran` on its transaction, to any depth.
-/
namespace Skit.Dbx

open Lib

/-- What is called on the database and the clock: `sleep` is the wait after an attempt that failed
with the error. -/
inductive Op (S : Type)
  | begin
  | exec (stmt : S)
  | commit
  | rollback
  | sleep (attempt : Nat) (err : Err)
  deriving DecidableEq

/-- A wait answers whether the context ended. -/
abbrev Ans {S : Type} (R : Type) : Op S → Type
  | .begin => Option Err
  | .exec _ => R
  | .commit => Option Err
  | .rollback => Option Err
  | .sleep _ _ => Bool

variable {S R σ τ : Type}

/-- A function on a transaction: it runs statements, makes nested calls of `WithinTran` and goes on
with how they end, and returns or panics with its state. -/
inductive Body (S R σ : Type)
  | ret (o : Outcome) (s : σ)
  | exec (stmt : S) (k : R → Body S R σ)
  | nest (fn : Body S R σ) (k : Outcome → σ → Body S R σ)

/-- A nested call runs its function in the transaction there is. -/
def Body.run : Body S R σ → Prog (Op S) (Ans R) (Outcome × σ)
  | ret o s => .ret (o, s)
  | exec stmt k => .call (.exec stmt) fun r => (k r).run
  | nest fn k => fn.run >>= fun p => (k p.1 p.2).run

section Classify

def errNoRows : String := "sql: no rows in result set"

def errDBRetryable : String := "retryable"

/-- A classifier may answer nil. -/
abbrev Classifier := Err → Option Err

def classify (c : Option Classifier) (err : Err) : Option Err :=
  if err.is errNoRows then some (.sentinel errNoRows)
  else
    match c with
    | none => some err
    | some c => c err

def retryable (c : Option Classifier) (err : Err) : Bool :=
  (classify c err).any (Err.is errDBRetryable)

def terminal (c : Option Classifier) (err : Err) : Bool := !retryable c err

/-- `fmt.Errorf` with one `%w`. -/
def wrapf (msg : String) : Option Err → Err
  | some err => .wrap (msg ++ ": " ++ err.error) err
  | none => .text (msg ++ ": %!w(<nil>)")

end Classify

/-- The end of a function that returned or panicked, and whether it is committed. -/
def commit (cls : Option Classifier) : Outcome → Prog (Op S) (Ans R) (Outcome × Bool)
  | .returned none => do
    match ← Prog.ask (A := Ans R) .commit with
    | some err => pure (.returned (some (wrapf "dbx: commit tran" (classify cls err))), false)
    | none => pure (.returned none, true)
  | o => pure (o, false)

/-- One attempt; what is not committed is rolled back when the function is left. -/
def tran (cls : Option Classifier) (fn : σ → Body S R σ) (s : σ) :
    Prog (Op S) (Ans R) (Outcome × σ) := do
  match ← Prog.ask (A := Ans R) .begin with
  | some err => pure (.returned (some (wrapf "dbx: begin tran" (classify cls err))), s)
  | none =>
    let (o, s) ← (fn s).run
    let (o, committed) ← commit cls o
    if committed then pure (o, s)
    else
      let _ ← Prog.ask (A := Ans R) .rollback
      pure (o, s)

/-- One round of the loop of `retry.Do`; `again` are the rounds that the budget leaves. -/
def retryRound (isTerminal : Err → Bool) (fn : Prog (Op S) (Ans R) (Outcome × σ)) (attempt : Nat)
    (again : Option (σ → Prog (Op S) (Ans R) (Outcome × σ))) :
    Prog (Op S) (Ans R) (Outcome × σ) := do
  let (o, s) ← fn
  match o with
  | .panicked v => pure (.panicked v, s)
  | .returned none => pure (.returned none, s)
  | .returned (some err) =>
    if isTerminal err then pure (.returned (some err), s)
    else
      match again with
      | none => pure (.returned (some err), s)
      | some again =>
        let ended ← Prog.ask (A := Ans R) (.sleep attempt err)
        if ended then pure (.returned (some err), s) else again s

/-- `retry.Do` from an attempt on, with the number of attempts after it. -/
def retryDo (isTerminal : Err → Bool) (fn : σ → Prog (Op S) (Ans R) (Outcome × σ)) :
    Nat → Nat → σ → Prog (Op S) (Ans R) (Outcome × σ)
  | 0, attempt, s => retryRound isTerminal (fn s) attempt none
  | left + 1, attempt, s =>
    retryRound isTerminal (fn s) attempt (some fun s => retryDo isTerminal fn left (attempt + 1) s)

/-- The `MaxAttempts` of `retryBackoff`. -/
def maxAttempts : Nat := 3

/-- A pool with its classifier, or a transaction. -/
inductive Querier
  | db (cls : Option Classifier)
  | tx

def withinTran (q : Querier) (fn : σ → Body S R σ) (s : σ) : Prog (Op S) (Ans R) (Outcome × σ) :=
  match q with
  | .db cls => retryDo (terminal cls) (tran cls fn) (max maxAttempts 1 - 1) 1 s
  | .tx => (fn s).run

section Effects

/-- What is committed, and the statements of the open transaction. A rolled back transaction and
one whose commit failed leave nothing. -/
structure Db (S R : Type) where
  committed : List (S × R)
  pending : Option (List (S × R))

def Db.apply (d : Db S R) : (op : Op S) → Ans R op → Db S R
  | .begin, none => { d with pending := some [] }
  | .begin, some _ => d
  | .exec stmt, r => { d with pending := d.pending.map fun run => run ++ [(stmt, r)] }
  | .commit, none => ⟨d.committed ++ d.pending.getD [], none⟩
  | .commit, some _ => ⟨d.committed, none⟩
  | .rollback, _ => ⟨d.committed, none⟩
  | .sleep _ _, _ => d

/-- The database after a history. -/
def effects : List (Event τ (Op S) (Ans R)) → Db S R
  | [] => ⟨[], none⟩
  | ev :: h => (effects h).apply ev.op ev.ans

/-- The statements of the runs of the function, latest run first: a run comes with every
transaction that is opened. -/
def runs : List (Event τ (Op S) (Ans R)) → List (List (S × R))
  | [] => []
  | ⟨_, .begin, none⟩ :: h => [] :: runs h
  | ⟨_, .exec stmt, r⟩ :: h => (runs h).modifyHead fun run => run ++ [(stmt, r)]
  | _ :: h => runs h

/-- A transaction is open: it has the statements of the latest run, and nothing is committed. -/
def Open (before : List (List (S × R))) (h : List (Event τ (Op S) (Ans R))) : Prop :=
  ∃ run, effects h = ⟨[], some run⟩ ∧ runs h = run :: before

/-- Nothing is committed and no transaction is open. -/
def Clean (h : List (Event τ (Op S) (Ans R))) : Prop := effects h = ⟨[], none⟩

/-- A transaction is opened first, or after an attempt with a retryable error. -/
def Allowed (cls : Option Classifier) (h : List (Event τ (Op S) (Ans R))) : Op S → Prop
  | .begin => h = [] ∨ ∃ t attempt err r, h = ⟨t, .sleep attempt err, false⟩ :: r ∧
      retryable cls err = true
  | _ => True

variable {cls : Option Classifier} {before : List (List (S × R))}
  {h : List (Event τ (Op S) (Ans R))} {budget : Nat}

theorem Open.exec (hopen : Open before h) (t : τ) (stmt : S) (r : R) :
    Open before (⟨t, .exec stmt, r⟩ :: h) := by
  obtain ⟨run, heff, hruns⟩ := hopen
  refine ⟨run ++ [(stmt, r)], ?_, ?_⟩
  · rw [effects, heff]
    rfl
  · rw [runs, hruns]
    rfl

theorem Clean.begin (hclean : Clean h) (t : τ) : Open (runs h) (⟨t, .begin, none⟩ :: h) := by
  refine ⟨[], ?_, rfl⟩
  rw [effects, hclean]
  rfl

/-- A function on a transaction runs statements in it and does nothing else. -/
theorem wp_run (b : Body S R σ) (hopen : Open before h) :
    wp (Allowed cls) (fun _ h' => Open before h') b.run h := by
  induction b generalizing h with
  | ret o s => exact hopen
  | exec stmt k ih => exact ⟨trivial, fun t r => ih r (hopen.exec t stmt r)⟩
  | nest fn k ihfn ihk => exact wp_seq (ihfn hopen) fun p h' hp => ihk p.1 p.2 hp

theorem run_statements (b : Body S R σ) :
    wp (fun _ op => ∃ stmt, op = .exec stmt) (fun _ _ => True) b.run h := by
  induction b generalizing h with
  | ret o s => trivial
  | exec stmt k ih => exact ⟨⟨stmt, rfl⟩, fun t r => ih r⟩
  | nest fn k ihfn ihk => exact wp_seq ihfn fun p h' _ => ihk p.1 p.2

/-- The end of an attempt: its run is committed, or nothing is. -/
structure Ended (before : List (List (S × R))) (o : Outcome)
    (h : List (Event τ (Op S) (Ans R))) : Prop where
  success : o = .returned none → ∃ run, effects h = ⟨run, none⟩ ∧ runs h = run :: before
  failure : o ≠ .returned none → Clean h ∧ (runs h).length ≤ before.length + 1

theorem Ended.rollback {o : Outcome} (ho : o ≠ .returned none)
    (hcommitted : (effects h).committed = []) (hruns : (runs h).length ≤ before.length + 1)
    (t : τ) (err : Option Err) :
    Ended before o (⟨t, .rollback, err⟩ :: h) := by
  refine ⟨fun h => absurd h ho, fun _ => ⟨?_, hruns⟩⟩
  rw [Clean, effects, ← hcommitted]
  rfl

theorem wp_commit (o : Outcome) (hopen : Open before h) :
    wp (Allowed cls) (fun p h' => (p.2 = true → Ended before p.1 h') ∧
        (p.2 = false → p.1 ≠ .returned none ∧ (effects h').committed = [] ∧
          (runs h').length ≤ before.length + 1))
      (commit cls o) h := by
  obtain ⟨run, heff, hruns⟩ := hopen
  have hlen : (runs h).length ≤ before.length + 1 := by rw [hruns, List.length_cons]
  have hcommitted : (effects h).committed = [] := by rw [heff]
  match o with
  | .panicked v => exact ⟨nofun, fun _ => ⟨nofun, hcommitted, hlen⟩⟩
  | .returned (some err) => exact ⟨nofun, fun _ => ⟨nofun, hcommitted, hlen⟩⟩
  | .returned none =>
    refine ⟨trivial, fun t ans => ?_⟩
    cases ans with
    | some err => exact ⟨nofun, fun _ => ⟨nofun, hcommitted, hlen⟩⟩
    | none =>
      refine ⟨fun _ => ⟨fun _ => ⟨run, ?_, hruns⟩, fun h => absurd rfl h⟩, nofun⟩
      rw [effects, heff]
      rfl

theorem wp_tran (fn : σ → Body S R σ) (s : σ) (hclean : Clean h)
    (hallowed : Allowed cls h .begin) :
    wp (Allowed cls) (fun p h' => Ended (runs h) p.1 h') (tran cls fn s) h := by
  rw [tran, Prog.ask_bind]
  refine ⟨hallowed, fun t ans => ?_⟩
  cases ans with
  | some err =>
    refine ⟨nofun, fun _ => ⟨?_, Nat.le_succ _⟩⟩
    rw [Clean, effects, hclean]
    rfl
  | none =>
    refine wp_seq (wp_run (fn s) (hclean.begin t)) fun p h₁ hopen => ?_
    refine wp_seq (wp_commit p.1 hopen) fun c h₂ hc => ?_
    obtain ⟨o, committed⟩ := c
    cases committed with
    | true => exact hc.1 rfl
    | false =>
      obtain ⟨ho, hcommitted, hruns⟩ := hc.2 rfl
      exact ⟨trivial, fun t' err => Ended.rollback ho hcommitted hruns t' err⟩

/-- The end of `WithinTran` on a pool. -/
structure Finished (budget : Nat) (o : Outcome) (h : List (Event τ (Op S) (Ans R))) : Prop where
  success : o = .returned none →
    ∃ run before, runs h = run :: before ∧ (effects h).committed = run
  failure : o ≠ .returned none → (effects h).committed = []
  bounded : (runs h).length ≤ budget

theorem Ended.finished {o : Outcome} (hended : Ended before o h)
    (hbudget : before.length + 1 ≤ budget) : Finished budget o h := by
  refine ⟨fun ho => ?_, fun ho => ?_, ?_⟩
  · obtain ⟨run, heff, hruns⟩ := hended.success ho
    exact ⟨run, before, hruns, by rw [heff]⟩
  · rw [(hended.failure ho).1]
  · by_cases ho : o = .returned none
    · obtain ⟨run, -, hruns⟩ := hended.success ho
      rw [hruns, List.length_cons]
      exact hbudget
    · exact (hended.failure ho).2.trans hbudget

/-- A round adds a run at most and ends the loop, or a wait follows it. -/
theorem wp_retryRound (fn : σ → Body S R σ) (attempt : Nat) (s : σ)
    {again : Option (σ → Prog (Op S) (Ans R) (Outcome × σ))}
    (hclean : Clean h) (hallowed : Allowed cls h .begin) (hbudget : (runs h).length + 1 ≤ budget)
    (hagain : ∀ f ∈ again, ∀ s' (h' : List (Event τ (Op S) (Ans R))), Clean h' →
      Allowed cls h' .begin → (runs h').length ≤ (runs h).length + 1 →
      wp (Allowed cls) (fun p h' => Finished budget p.1 h') (f s') h') :
    wp (Allowed cls) (fun p h' => Finished budget p.1 h')
      (retryRound (terminal cls) (tran cls fn s) attempt again) h := by
  refine wp_seq (wp_tran fn s hclean hallowed) fun p h' hended => ?_
  have hfinished : Finished budget p.1 h' := hended.finished hbudget
  obtain ⟨o, s'⟩ := p
  match o with
  | .panicked v => exact hfinished
  | .returned none => exact hfinished
  | .returned (some err) =>
    dsimp only
    split
    · exact hfinished
    · next hretry =>
      cases again with
      | none => exact hfinished
      | some f =>
        obtain ⟨hclean', hruns⟩ := hended.failure nofun
        refine ⟨trivial, fun t ended => ?_⟩
        cases ended with
        | true => exact ⟨hfinished.success, hfinished.failure, hfinished.bounded⟩
        | false =>
          refine hagain f rfl s' _ hclean' (.inr ⟨t, attempt, err, h', rfl, ?_⟩) hruns
          simpa [terminal] using hretry

theorem wp_retryDo (fn : σ → Body S R σ) (left attempt : Nat) (s : σ)
    (hclean : Clean h) (hallowed : Allowed cls h .begin)
    (hbudget : (runs h).length + left + 1 ≤ budget) :
    wp (Allowed cls) (fun p h' => Finished budget p.1 h')
      (retryDo (terminal cls) (tran cls fn) left attempt s) h := by
  induction left generalizing h attempt s with
  | zero => exact wp_retryRound fn attempt s hclean hallowed hbudget nofun
  | succ left ih =>
    refine wp_retryRound fn attempt s hclean hallowed (by omega) ?_
    intro f hf s' h' hclean' hallowed' hruns
    cases hf
    exact ih (attempt + 1) s' hclean' hallowed' (by omega)

end Effects

/-- On a pool the function is committed once or not at all, in three runs at most, of which each
follows a retryable error. On a transaction it is run in it, and nothing else is called. -/
theorem transaction_once (cls : Option Classifier) (fn : σ → Body S R σ) (s : σ) :
    (∀ {h : List (Event τ (Op S) (Ans R))} {o : Outcome} {s' : σ},
      Exec (withinTran (.db cls) fn s) h (.ret (o, s')) →
        Finished 3 o h ∧ ∀ ev r, ev :: r <:+ h → Allowed cls r ev.op) ∧
    (∀ {h : List (Event τ (Op S) (Ans R))} {q : Prog (Op S) (Ans R) (Outcome × σ)},
      Exec (withinTran .tx fn s) h q → ∀ ev ∈ h, ∃ stmt, ev.op = .exec stmt) ∧
    ∀ (b : Body S R σ) (k : Outcome → σ → Body S R σ),
      (Body.nest b k).run = withinTran .tx (fun _ => b) s >>= fun p => (k p.1 p.2).run := by
  refine ⟨fun hx => ?_, fun hx ev hev => ?_, fun b k => rfl⟩
  · have hwp : wp (Allowed cls) (fun p h' => Finished 3 p.1 h') (withinTran (.db cls) fn s)
        ([] : List (Event τ (Op S) (Ans R))) := wp_retryDo fn 2 1 s rfl (.inl rfl) le_rfl
    exact ⟨hx.wp hwp, fun ev r hr => hx.admitted hwp hr⟩
  · obtain ⟨l, r, hr⟩ := List.append_of_mem hev
    exact hx.admitted (run_statements (fn s)) ⟨l, hr.symm⟩

section Example

/-- The first run fails with a retryable error. -/
def second (s : Nat) : Body Nat Unit Nat :=
  .exec s fun _ =>
    .ret (.returned (if s = 0 then some (.sentinel errDBRetryable) else none)) (s + 1)

end Example

/-- The second run is committed, and it alone. -/
theorem transaction_once_retried : ∃ h : List (Event Unit (Op Nat) (Ans Unit)),
    Exec (withinTran (.db none) second 0) h (.ret (.returned none, 2)) ∧
      Finished 3 (.returned none) h ∧ runs h = [[(1, ())], [(0, ())]] ∧
      (effects h).committed = [(1, ())] := by
  have h₁ := (Exec.start (τ := Unit) (p := withinTran (.db none) second 0)).step () none
  have h₂ := (h₁.step () ()).step () none
  have h₃ := (h₂.step () false).step () none
  have h₄ := (h₃.step () ()).step () none
  exact ⟨_, h₄, ((transaction_once none second 0).1 h₄).1, rfl, rfl⟩

end Skit.Dbx
