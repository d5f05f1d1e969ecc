import Mathlib.Data.List.Basic

/-!
# Completing the transactions of a request

`DefaultKeycloakTransactionManager` has three lists of transactions and completes them in four
loops, which keep one exception between them.  The loops of `commit` keep the first exception
that is thrown; those of `rollback` put a later one in its place, and keep none where there was
none before.
-/

namespace Keycloak.Services

variable {E : Type*}

structure KeycloakTransaction (E : Type*) where
  commit : Option E
  rollback : Option E
  deriving DecidableEq, Repr

inductive Enlisted where
  | prepare
  | main
  | afterCompletion
  deriving DecidableEq, Repr

inductive Completion where
  | commit
  | rollback
  deriving DecidableEq, Repr

def KeycloakTransaction.complete (tx : KeycloakTransaction E) : Completion → Option E
  | .commit => tx.commit
  | .rollback => tx.rollback

structure Call (E : Type*) where
  enlisted : Enlisted
  transaction : KeycloakTransaction E
  completion : Completion
  deriving DecidableEq, Repr

def Call.thrown (call : Call E) : Option E := call.transaction.complete call.completion

structure DefaultKeycloakTransactionManager (E : Type*) where
  prepare : List (KeycloakTransaction E)
  transactions : List (KeycloakTransaction E)
  afterCompletion : List (KeycloakTransaction E)
  active : Bool
  completed : Bool
  deriving DecidableEq, Repr

@[ext]
structure Outcome (E : Type*) where
  calls : List (Call E)
  thrown : Option E
  deriving DecidableEq, Repr

/-! ## The loops -/

/-- `exception == null ? e : exception`. -/
def keepFirst (exception : Option E) (e : E) : Option E :=
  match exception with
  | none => some e
  | some exception => some exception

/-- `exception != null ? e : exception`. -/
def replaceFirst (exception : Option E) (e : E) : Option E :=
  match exception with
  | none => none
  | some _ => some e

/-- `exceptionDuringRollback`: the exception is logged. -/
def logOnly (exception : Option E) (_ : E) : Option E := exception

/-- A loop over one of the lists; `onThrow` is its `catch` block. -/
def completeAll (enlisted : Enlisted) (completion : Completion)
    (onThrow : Option E → E → Option E) :
    List (KeycloakTransaction E) → Outcome E → Outcome E
  | [], outcome => outcome
  | tx :: rest, outcome =>
      let exception :=
        match tx.complete completion with
        | none => outcome.thrown
        | some e => onThrow outcome.thrown e
      completeAll enlisted completion onThrow rest
        ⟨outcome.calls ++ [⟨enlisted, tx, completion⟩], exception⟩

namespace DefaultKeycloakTransactionManager

variable (manager : DefaultKeycloakTransactionManager E)

def rollbackFrom (outcome : Outcome E) : DefaultKeycloakTransactionManager E × Outcome E :=
  let outcome := completeAll .main .rollback replaceFirst manager.transactions outcome
  let outcome :=
    completeAll .afterCompletion .rollback replaceFirst manager.afterCompletion outcome
  ({ manager with active := false }, outcome)

def rollback : DefaultKeycloakTransactionManager E × Outcome E :=
  if manager.completed then (manager, ⟨[], none⟩)
  else { manager with completed := true }.rollbackFrom ⟨[], none⟩

def commit : DefaultKeycloakTransactionManager E × Outcome E :=
  if manager.completed then (manager, ⟨[], none⟩)
  else
    let manager := { manager with completed := true }
    let outcome := completeAll .prepare .commit keepFirst manager.prepare ⟨[], none⟩
    match outcome.thrown with
    | some _ => manager.rollbackFrom outcome
    | none =>
        let outcome := completeAll .main .commit keepFirst manager.transactions outcome
        let outcome :=
          match outcome.thrown with
          | none => completeAll .afterCompletion .commit keepFirst manager.afterCompletion outcome
          | some _ =>
              completeAll .afterCompletion .rollback logOnly manager.afterCompletion outcome
        ({ manager with active := false }, outcome)

end DefaultKeycloakTransactionManager

/-! ## What a loop does -/

def exceptions (completion : Completion) (txs : List (KeycloakTransaction E)) : List E :=
  txs.filterMap (·.complete completion)

def callsTo (enlisted : Enlisted) (completion : Completion)
    (txs : List (KeycloakTransaction E)) : List (Call E) :=
  txs.map fun tx => ⟨enlisted, tx, completion⟩

def firstThrown (calls : List (Call E)) : Option E := (calls.filterMap Call.thrown).head?

section

variable {enlisted : Enlisted} {completion : Completion} {onThrow : Option E → E → Option E}
  {txs : List (KeycloakTransaction E)} {outcome : Outcome E}

theorem filterMap_callsTo :
    (callsTo enlisted completion txs).filterMap Call.thrown = exceptions completion txs := by
  rw [callsTo, List.filterMap_map]
  rfl

theorem calls_completeAll :
    (completeAll enlisted completion onThrow txs outcome).calls =
      outcome.calls ++ callsTo enlisted completion txs := by
  induction txs generalizing outcome with
  | nil => exact (List.append_nil _).symm
  | cons tx rest ih =>
      rw [completeAll, ih, List.append_assoc]
      rfl

theorem exceptions_cons (tx : KeycloakTransaction E) (rest : List (KeycloakTransaction E)) :
    exceptions completion (tx :: rest) =
      (tx.complete completion).toList ++ exceptions completion rest := by
  rw [exceptions, List.filterMap_cons]
  cases tx.complete completion with
  | none => rfl
  | some e => rfl

theorem thrown_keepFirst :
    (completeAll enlisted completion keepFirst txs outcome).thrown =
      outcome.thrown.or (exceptions completion txs).head? := by
  induction txs generalizing outcome with
  | nil => exact (Option.or_none).symm
  | cons tx rest ih =>
      rw [completeAll, ih, exceptions_cons]
      cases tx.complete completion with
      | none => rfl
      | some e =>
          cases outcome.thrown with
          | none => rfl
          | some exception => rfl

theorem thrown_replaceFirst {e : E} (he : outcome.thrown = some e) :
    (completeAll enlisted completion replaceFirst txs outcome).thrown =
      (exceptions completion txs).getLast?.or (some e) := by
  induction txs generalizing outcome e with
  | nil => exact he
  | cons tx rest ih =>
      rw [completeAll, exceptions_cons]
      cases htx : tx.complete completion with
      | none =>
          refine ih ?_
          exact he
      | some e' =>
          rw [ih (by rw [he]; rfl), List.getLast?_append, Option.or_assoc]
          rfl

theorem thrown_replaceFirst_of_none (h : outcome.thrown = none) :
    (completeAll enlisted completion replaceFirst txs outcome).thrown = none := by
  induction txs generalizing outcome with
  | nil => exact h
  | cons tx rest ih =>
      apply ih
      rw [h]
      cases tx.complete completion with
      | none => rfl
      | some e => rfl

theorem thrown_logOnly :
    (completeAll enlisted completion logOnly txs outcome).thrown = outcome.thrown := by
  induction txs generalizing outcome with
  | nil => rfl
  | cons tx rest ih =>
      rw [completeAll, ih]
      cases tx.complete completion with
      | none => rfl
      | some e => rfl

end

/-! ## What a completion does -/

namespace DefaultKeycloakTransactionManager

variable {manager : DefaultKeycloakTransactionManager E}

/-- The exceptions that `rollback` calls of all but the prepare transactions throw. -/
def rollbackExceptions (manager : DefaultKeycloakTransactionManager E) : List E :=
  exceptions .rollback manager.transactions ++ exceptions .rollback manager.afterCompletion

theorem calls_rollbackFrom (outcome : Outcome E) :
    (manager.rollbackFrom outcome).2.calls =
      outcome.calls ++ callsTo .main .rollback manager.transactions ++
        callsTo .afterCompletion .rollback manager.afterCompletion := by
  rw [rollbackFrom, calls_completeAll, calls_completeAll]

theorem thrown_rollbackFrom {outcome : Outcome E} {e : E} (he : outcome.thrown = some e) :
    (manager.rollbackFrom outcome).2.thrown = manager.rollbackExceptions.getLast?.or (some e) := by
  rw [rollbackFrom, rollbackExceptions, List.getLast?_append]
  dsimp only
  cases hlast : (exceptions .rollback manager.transactions).getLast? with
  | none =>
      rw [thrown_replaceFirst (e := e) (by rw [thrown_replaceFirst he, hlast]; rfl), Option.or_none]
  | some e' =>
      rw [thrown_replaceFirst (e := e') (by rw [thrown_replaceFirst he, hlast]; rfl),
        Option.or_assoc]
      rfl

/-- `rollback` throws nothing, whatever its calls throw. -/
theorem rollback_eq (h : manager.completed = false) :
    manager.rollback.2 = ⟨callsTo .main .rollback manager.transactions ++
      callsTo .afterCompletion .rollback manager.afterCompletion, none⟩ := by
  rw [rollback, if_neg (Bool.eq_false_iff.mp h)]
  refine Outcome.ext ?_ ?_
  · rw [calls_rollbackFrom]
    rfl
  · exact thrown_replaceFirst_of_none (thrown_replaceFirst_of_none rfl)

/-- `commit` when a prepare transaction has thrown. -/
theorem commit_of_prepare {e : E} (h : manager.completed = false)
    (he : (exceptions .commit manager.prepare).head? = some e) :
    manager.commit.2 = ⟨callsTo .prepare .commit manager.prepare ++
      callsTo .main .rollback manager.transactions ++
      callsTo .afterCompletion .rollback manager.afterCompletion,
      manager.rollbackExceptions.getLast?.or (some e)⟩ := by
  have hthrown : (completeAll .prepare .commit keepFirst manager.prepare ⟨[], none⟩).thrown =
      some e := by
    rw [thrown_keepFirst, he]
    rfl
  rw [commit, if_neg (Bool.eq_false_iff.mp h)]
  dsimp only
  rw [hthrown]
  refine Outcome.ext ?_ ?_
  · rw [calls_rollbackFrom, calls_completeAll]
    rfl
  · rw [thrown_rollbackFrom hthrown]
    rfl

/-- `commit` when a main transaction has thrown. -/
theorem commit_of_main {e : E} (h : manager.completed = false)
    (hprepare : exceptions .commit manager.prepare = [])
    (he : (exceptions .commit manager.transactions).head? = some e) :
    manager.commit.2 = ⟨callsTo .prepare .commit manager.prepare ++
      callsTo .main .commit manager.transactions ++
      callsTo .afterCompletion .rollback manager.afterCompletion, some e⟩ := by
  rw [commit, if_neg (Bool.eq_false_iff.mp h)]
  simp only [thrown_keepFirst, hprepare, he, List.head?_nil, Option.or_none, Option.none_or]
  refine Outcome.ext ?_ ?_
  · simp only [calls_completeAll, List.nil_append]
  · simp only [thrown_logOnly, thrown_keepFirst, hprepare, he, List.head?_nil, Option.or_none,
      Option.none_or]

/-- `commit` when neither has thrown. -/
theorem commit_of_none (h : manager.completed = false)
    (hprepare : exceptions .commit manager.prepare = [])
    (hmain : exceptions .commit manager.transactions = []) :
    manager.commit.2 = ⟨callsTo .prepare .commit manager.prepare ++
      callsTo .main .commit manager.transactions ++
      callsTo .afterCompletion .commit manager.afterCompletion,
      (exceptions .commit manager.afterCompletion).head?⟩ := by
  rw [commit, if_neg (Bool.eq_false_iff.mp h)]
  simp only [thrown_keepFirst, hprepare, hmain, List.head?_nil, Option.or_none]
  refine Outcome.ext ?_ ?_
  · simp only [calls_completeAll, List.nil_append]
  · simp only [thrown_keepFirst, hprepare, hmain, List.head?_nil, Option.none_or]

/-! ## Consistent completion -/

structure Consistent (manager : DefaultKeycloakTransactionManager E) (outcome : Outcome E) :
    Prop where
  /-- Nothing else is committed when a prepare transaction has thrown. -/
  prepared : ∀ call ∈ outcome.calls, call.enlisted = .prepare → call.thrown.isSome →
    ∀ call' ∈ outcome.calls, call'.enlisted ≠ .prepare → call'.completion ≠ .commit
  /-- No after-completion transaction is committed when the commit of a main one has thrown. -/
  committed : ∀ call ∈ outcome.calls, call.enlisted = .main → call.completion = .commit →
    call.thrown.isSome →
      ∀ call' ∈ outcome.calls, call'.enlisted = .afterCompletion → call'.completion ≠ .commit
  /-- The calls to the main transactions are one to each. -/
  main : (outcome.calls.filter (·.enlisted = .main)).map (·.transaction) = manager.transactions
  afterCompletion : (outcome.calls.filter (·.enlisted = .afterCompletion)).map (·.transaction) =
    manager.afterCompletion
  thrown : outcome.thrown = firstThrown outcome.calls

theorem filter_callsTo_self (enlisted : Enlisted) (completion : Completion)
    (txs : List (KeycloakTransaction E)) :
    (callsTo enlisted completion txs).filter (·.enlisted = enlisted) =
      callsTo enlisted completion txs := by
  rw [List.filter_eq_self]
  intro call hcall
  obtain ⟨tx, -, rfl⟩ := List.mem_map.mp hcall
  exact decide_eq_true rfl

theorem filter_callsTo_of_ne {enlisted other : Enlisted} (hne : enlisted ≠ other)
    (completion : Completion) (txs : List (KeycloakTransaction E)) :
    (callsTo enlisted completion txs).filter (·.enlisted = other) = [] := by
  rw [List.filter_eq_nil_iff]
  intro call hcall
  obtain ⟨tx, -, rfl⟩ := List.mem_map.mp hcall
  simpa using hne

theorem map_transaction_callsTo (enlisted : Enlisted) (completion : Completion)
    (txs : List (KeycloakTransaction E)) :
    (callsTo enlisted completion txs).map (·.transaction) = txs := by
  rw [callsTo, List.map_map]
  exact List.map_id txs

theorem mem_callsTo {enlisted : Enlisted} {completion : Completion}
    {txs : List (KeycloakTransaction E)} {call : Call E}
    (h : call ∈ callsTo enlisted completion txs) :
    call.enlisted = enlisted ∧ call.completion = completion ∧
      (call.thrown.isSome → exceptions completion txs ≠ []) := by
  refine ⟨?_, ?_, fun hthrown hnone => ?_⟩
  · obtain ⟨tx, -, rfl⟩ := List.mem_map.mp h
    rfl
  · obtain ⟨tx, -, rfl⟩ := List.mem_map.mp h
    rfl
  · obtain ⟨e, he⟩ := Option.isSome_iff_exists.mp hthrown
    have hmem : e ∈ (callsTo enlisted completion txs).filterMap Call.thrown :=
      List.mem_filterMap.mpr ⟨call, h, he⟩
    rw [filterMap_callsTo, hnone] at hmem
    cases hmem

/-- The calls of a completion: the prepare transactions are committed, if they are called. -/
def callsOf (manager : DefaultKeycloakTransactionManager E)
    (prepare : List (KeycloakTransaction E)) (main after : Completion) : List (Call E) :=
  callsTo .prepare .commit prepare ++ callsTo .main main manager.transactions ++
    callsTo .afterCompletion after manager.afterCompletion

theorem firstThrown_callsOf (prepare : List (KeycloakTransaction E)) (main after : Completion) :
    firstThrown (manager.callsOf prepare main after) =
      ((exceptions .commit prepare).head?.or (exceptions main manager.transactions).head?).or
        (exceptions after manager.afterCompletion).head? := by
  rw [firstThrown, callsOf, List.filterMap_append, List.filterMap_append, filterMap_callsTo,
    filterMap_callsTo, filterMap_callsTo, List.head?_append, List.head?_append]

/-- With the right completions only the exception can be wrong. -/
theorem consistent_callsOf {prepare : List (KeycloakTransaction E)} {main after : Completion}
    {thrown : Option E}
    (hprepare : exceptions .commit prepare ≠ [] → main = .rollback ∧ after = .rollback)
    (hmain : main = .commit → exceptions .commit manager.transactions ≠ [] → after = .rollback) :
    Consistent manager ⟨manager.callsOf prepare main after, thrown⟩ ↔
      thrown = firstThrown (manager.callsOf prepare main after) := by
  have hmem : ∀ call ∈ manager.callsOf prepare main after,
      call ∈ callsTo .prepare .commit prepare ∨ call ∈ callsTo .main main manager.transactions ∨
        call ∈ callsTo .afterCompletion after manager.afterCompletion := by
    intro call hcall
    rw [callsOf, List.mem_append, List.mem_append, or_assoc] at hcall
    exact hcall
  refine ⟨fun h => h.thrown, fun hthrown => ⟨?_, ?_, ?_, ?_, hthrown⟩⟩
  · intro call hcall hlist hcallThrown call' hcall' hother
    have hrollback : main = .rollback ∧ after = .rollback := by
      rcases hmem call hcall with h | h | h
      · exact hprepare ((mem_callsTo h).2.2 hcallThrown)
      · exact absurd ((mem_callsTo h).1.symm.trans hlist) (by decide)
      · exact absurd ((mem_callsTo h).1.symm.trans hlist) (by decide)
    rcases hmem call' hcall' with h | h | h
    · exact absurd (mem_callsTo h).1 hother
    · rw [(mem_callsTo h).2.1, hrollback.1]
      decide
    · rw [(mem_callsTo h).2.1, hrollback.2]
      decide
  · intro call hcall hlist hcommit hcallThrown call' hcall' hafter
    have hrollback : after = .rollback := by
      rcases hmem call hcall with h | h | h
      · exact absurd ((mem_callsTo h).1.symm.trans hlist) (by decide)
      · have hkind : main = .commit := (mem_callsTo h).2.1.symm.trans hcommit
        exact hmain hkind (hkind ▸ (mem_callsTo h).2.2 hcallThrown)
      · exact absurd ((mem_callsTo h).1.symm.trans hlist) (by decide)
    rcases hmem call' hcall' with h | h | h
    · exact absurd ((mem_callsTo h).1.symm.trans hafter) (by decide)
    · exact absurd ((mem_callsTo h).1.symm.trans hafter) (by decide)
    · rw [(mem_callsTo h).2.1, hrollback]
      decide
  · simp only [callsOf, List.filter_append, filter_callsTo_self,
      filter_callsTo_of_ne (show Enlisted.prepare ≠ .main by decide),
      filter_callsTo_of_ne (show Enlisted.afterCompletion ≠ .main by decide), List.nil_append,
      List.append_nil, map_transaction_callsTo]
  · simp only [callsOf, List.filter_append, filter_callsTo_self,
      filter_callsTo_of_ne (show Enlisted.prepare ≠ .afterCompletion by decide),
      filter_callsTo_of_ne (show Enlisted.main ≠ .afterCompletion by decide), List.nil_append,
      map_transaction_callsTo]

/-- When a prepare transaction throws, a later exception of a rollback is the same one, if there
is any. -/
def CommitsWhen (manager : DefaultKeycloakTransactionManager E) : Prop :=
  ∀ e ∈ (exceptions .commit manager.prepare).head?,
    ∀ e' ∈ manager.rollbackExceptions.getLast?, e' = e

def RollsBackWhen (manager : DefaultKeycloakTransactionManager E) : Prop :=
  manager.rollbackExceptions = []

theorem consistent_rollback_iff (h : manager.completed = false) :
    Consistent manager manager.rollback.2 ↔ RollsBackWhen manager := by
  rw [rollback_eq h]
  have hcalls : manager.callsOf [] .rollback .rollback =
      callsTo .main .rollback manager.transactions ++
        callsTo .afterCompletion .rollback manager.afterCompletion := rfl
  have hfirst : firstThrown (manager.callsOf [] .rollback .rollback) =
      manager.rollbackExceptions.head? := by
    rw [firstThrown_callsOf, rollbackExceptions, List.head?_append]
    rfl
  rw [← hcalls, consistent_callsOf (fun _ => ⟨rfl, rfl⟩) (fun _ _ => rfl), hfirst, RollsBackWhen,
    eq_comm, List.head?_eq_none_iff]

theorem consistent_commit_iff (h : manager.completed = false) :
    Consistent manager manager.commit.2 ↔ CommitsWhen manager := by
  cases hprepare : (exceptions .commit manager.prepare).head? with
  | some e =>
      have hne : exceptions .commit manager.prepare ≠ [] := by
        intro hnil
        rw [hnil] at hprepare
        cases hprepare
      rw [commit_of_prepare h hprepare]
      refine (consistent_callsOf (fun _ => ⟨rfl, rfl⟩) (fun _ _ => rfl)).trans ?_
      rw [firstThrown_callsOf, hprepare, CommitsWhen, hprepare]
      cases hlast : manager.rollbackExceptions.getLast? with
      | none => simp
      | some e' => simp
  | none =>
      have hnil := List.head?_eq_none_iff.mp hprepare
      have hwhen : CommitsWhen manager := by
        intro e he
        rw [hprepare] at he
        cases he
      refine iff_of_true ?_ hwhen
      cases hmain : (exceptions .commit manager.transactions).head? with
      | some e =>
          rw [commit_of_main h hnil hmain]
          refine (consistent_callsOf (fun hne => absurd hnil hne) (fun _ _ => rfl)).mpr ?_
          rw [firstThrown_callsOf, hprepare, hmain]
          rfl
      | none =>
          have hmainNil := List.head?_eq_none_iff.mp hmain
          rw [commit_of_none h hnil hmainNil]
          refine (consistent_callsOf (fun hne => absurd hnil hne)
            (fun _ hne => absurd hmainNil hne)).mpr ?_
          rw [firstThrown_callsOf, hprepare, hmain]
          rfl

/-- A completion is consistent exactly if no exception of a rollback is lost and none takes the
place of an earlier one. -/
theorem consistent_iff (manager : DefaultKeycloakTransactionManager E)
    (h : manager.completed = false) :
    (Consistent manager manager.commit.2 ↔ CommitsWhen manager) ∧
      (Consistent manager manager.rollback.2 ↔ RollsBackWhen manager) :=
  ⟨consistent_commit_iff h, consistent_rollback_iff h⟩

/-- A manager with one transaction, whose commit may fail. -/
theorem consistent_iff_of_one :
    (⟨[], [⟨some "commit", none⟩], [⟨none, none⟩], true, false⟩ :
      DefaultKeycloakTransactionManager String).commit.2.thrown = some "commit" ∧
    Consistent (⟨[], [⟨some "commit", none⟩], [⟨none, none⟩], true, false⟩ :
      DefaultKeycloakTransactionManager String)
      (⟨[], [⟨some "commit", none⟩], [⟨none, none⟩], true, false⟩ :
        DefaultKeycloakTransactionManager String).commit.2 :=
  ⟨rfl, (consistent_iff _ rfl).1.mpr fun e he => by cases he⟩

/-- An exception of a rollback is swallowed, and one takes the place of the failed commit. -/
theorem not_consistent_of_rollback :
    ¬ Consistent (⟨[], [⟨none, some "rollback"⟩], [], true, false⟩ :
      DefaultKeycloakTransactionManager String)
      (⟨[], [⟨none, some "rollback"⟩], [], true, false⟩ :
        DefaultKeycloakTransactionManager String).rollback.2 ∧
    ¬ Consistent (⟨[⟨some "commit", none⟩], [⟨none, some "rollback"⟩], [], true, false⟩ :
      DefaultKeycloakTransactionManager String)
      (⟨[⟨some "commit", none⟩], [⟨none, some "rollback"⟩], [], true, false⟩ :
        DefaultKeycloakTransactionManager String).commit.2 :=
  ⟨fun h => absurd h.thrown (by decide), fun h => absurd h.thrown (by decide)⟩

end DefaultKeycloakTransactionManager

end Keycloak.Services
