import Keycloak.Lib.LinkedMap
import Mathlib.Data.Finset.Image
import Mathlib.Data.Finset.Union
import Mathlib.Logic.Function.Basic

/-!
# Evaluating permissions

`DefaultPolicyEvaluator` feeds the permissions that a `ResourcePermission` asks for to
their providers.  A provider decides the associated policies through a
`DefaultEvaluation`, whose decisions a collector records, and it keeps the effects in the
decision cache that all evaluations share.  An aggregated policy decides its own
associated policies with a collector of its own.

Resources and scopes are compared by id in the source; a value of `Resource` or `Scope`
stands for the stored object with its id.  Policies are compared by id here too.  A
`ResourcePermission` has no `equals` of its own, so it carries the identity of the object.
-/

namespace Keycloak.Authz

inductive Effect where
  | permit
  | deny
  deriving DecidableEq, Repr

inductive Logic where
  | positive
  | negative
  deriving DecidableEq, Repr

inductive DecisionStrategy where
  | affirmative
  | unanimous
  | consensus
  deriving DecidableEq, Repr

inductive PolicyEnforcementMode where
  | enforcing
  | permissive
  | disabled
  deriving DecidableEq, Repr

/-- The policy types that the model interprets; every other type is decided by a
registered provider (`js`, `role`, `user`, `time` and so on). -/
inductive PolicyType where
  | resource
  | scope
  | uma
  | aggregate
  | other (type : String)
  deriving DecidableEq, Repr

structure Scope where
  id : String
  name : String
  deriving DecidableEq, Repr

structure Resource where
  id : String
  name : String
  type : Option String
  owner : String
  ownerManagedAccess : Bool
  scopes : List Scope
  deriving DecidableEq, Repr

structure PolicyData where
  id : String
  type : PolicyType
  logic : Logic
  decisionStrategy : DecisionStrategy
  resources : List Resource
  scopes : List Scope
  deriving DecidableEq, Repr

inductive Policy where
  | mk (data : PolicyData) (associatedPolicies : List Policy)

namespace Policy

def data : Policy → PolicyData
  | mk d _ => d

def associatedPolicies : Policy → List Policy
  | mk _ associated => associated

abbrev id (p : Policy) : String := p.data.id

abbrev type (p : Policy) : PolicyType := p.data.type

abbrev logic (p : Policy) : Logic := p.data.logic

end Policy

structure ResourcePermission where
  identity : Nat
  resource : Option Resource
  scopes : List Scope
  deriving DecidableEq, Repr

abbrev Claims := List (String × List String)

def Claims.addClaim (claims : Claims) (name value : String) : Claims :=
  LinkedMap.alter name (fun values => (values.getD []).insert value) claims

def Claims.addClaims (claims added : Claims) : Claims :=
  added.foldl (fun acc e => LinkedMap.alter e.1 (fun _ => e.2) acc) claims

/-! ## Results -/

structure PolicyResult where
  policy : Policy
  associatedPolicies : List (String × Effect)

def PolicyResult.ofPolicy (policy : Policy) : PolicyResult := ⟨policy, []⟩

/-- `PolicyResult.policy(policy, effect)`. -/
def PolicyResult.put (r : PolicyResult) (id : String) (effect : Effect) : PolicyResult :=
  { r with associatedPolicies := LinkedMap.alter id (fun _ => effect) r.associatedPolicies }

structure Result where
  permission : ResourcePermission
  results : List (String × PolicyResult)
  status : Effect

def Result.ofPermission (permission : ResourcePermission) : Result := ⟨permission, [], .deny⟩

/-- `Result.policy(policy)`, followed by what the caller does with the entry. -/
def Result.policy (r : Result) (policy : Policy) (f : PolicyResult → PolicyResult) : Result :=
  { r with
    results := LinkedMap.alter policy.id
      (fun found => f (found.getD (PolicyResult.ofPolicy policy))) r.results }

def isGranted (r : PolicyResult) : Bool :=
  let permits := r.associatedPolicies.countP (fun a => a.2 = .permit)
  match r.policy.data.decisionStrategy with
  | .affirmative => r.associatedPolicies.any (fun a => a.2 = .permit)
  | .consensus =>
      -- `denyCount` starts at the number of associated policies
      decide ((r.policy.associatedPolicies.length : Int) - permits < permits)
  | .unanimous => !r.associatedPolicies.any (fun a => a.2 = .deny)

/-! ## Evaluations -/

inductive CacheKey where
  | resource (resource : Option Resource)
  | permission (identity : Nat)
  deriving DecidableEq, Repr

/-- `Map<Policy, Map<Object, Effect>>`; a missing inner map has no entries. -/
abbrev DecisionCache := String → CacheKey → Option Effect

/-- The decision cache and the collector of the running evaluation, with the claims that
the permissions carry.  `decided` keeps the collectors of the aggregated policies that
have been decided, which the source drops. -/
structure State where
  cache : DecisionCache
  results : List (Nat × Result)
  decided : List (List (Nat × Result))
  claims : Nat → Claims

def State.initial (claims : Nat → Claims) : State := ⟨fun _ _ => none, [], [], claims⟩

def State.put (s : State) (id : String) (key : CacheKey) (effect : Option Effect) : State :=
  { s with cache := Function.update s.cache id (Function.update (s.cache id) key effect) }

structure DefaultEvaluation where
  permission : ResourcePermission
  parentPolicy : Policy
  policy : Option Policy
  effect : Option Effect

namespace DefaultEvaluation

def getPolicy (e : DefaultEvaluation) : Policy := e.policy.getD e.parentPolicy

def setPolicy (e : DefaultEvaluation) (policy : Policy) : DefaultEvaluation :=
  { e with policy := some policy, effect := none }

end DefaultEvaluation

/-- `results.computeIfAbsent(permission, ..).policy(parent)`, followed by what the caller
does with the entry. -/
def recordIn (permission : ResourcePermission) (parent : Policy)
    (f : PolicyResult → PolicyResult) (results : List (Nat × Result)) : List (Nat × Result) :=
  LinkedMap.alter permission.identity
    (fun found => (found.getD (Result.ofPermission permission)).policy parent f) results

def State.record (s : State) (permission : ResourcePermission) (parent : Policy)
    (f : PolicyResult → PolicyResult) : State :=
  { s with results := recordIn permission parent f s.results }

/-- `AbstractDecisionCollector.onDecision` for an evaluation with a parent policy.  A
decision on the parent policy itself is a replay: a permission without a result gets a
copy of the first result that has the policy, and the call fails with a null pointer when
there is none. -/
def onDecision (e : DefaultEvaluation) (effect : Effect) (s : State) : Option State :=
  let identity := e.permission.identity
  if e.parentPolicy.id = e.getPolicy.id then
    match s.results.lookup identity with
    | some _ => some (s.record e.permission e.parentPolicy fun r => r)
    | none =>
        let source := s.results.findSome? fun entry =>
          (entry.2.results.lookup e.parentPolicy.id).map fun found => (entry.2, found)
        source.map fun (result, found) =>
          { s with
            results := s.results ++ [(identity, { Result.ofPermission e.permission with
              results := [(e.parentPolicy.id,
                { PolicyResult.ofPolicy e.parentPolicy with
                  associatedPolicies := found.associatedPolicies })] })]
            claims := Function.update s.claims identity
              ((s.claims identity).addClaims (s.claims result.permission.identity)) }
  else
    some (s.record e.permission e.parentPolicy fun r => r.put e.getPolicy.id effect)

def DefaultEvaluation.decide (e : DefaultEvaluation) (effect : Effect) (s : State) :
    Option (DefaultEvaluation × State) :=
  (onDecision { e with effect := some effect } effect s).map
    fun s' => ({ e with effect := some effect }, s')

def Logic.apply : Logic → Effect → Effect
  | .positive, effect => effect
  | .negative, .permit => .deny
  | .negative, .deny => .permit

/-- The logic that `grant` and `deny` consult: that of the policy field, which is null
while the parent policy itself is evaluated. -/
def DefaultEvaluation.logic (e : DefaultEvaluation) : Logic :=
  (e.policy.map Policy.logic).getD .positive

def grant (e : DefaultEvaluation) (s : State) : Option (DefaultEvaluation × State) :=
  e.decide (e.logic.apply .permit) s

def deny (e : DefaultEvaluation) (s : State) : Option (DefaultEvaluation × State) :=
  e.decide (e.logic.apply .deny) s

/-- `setEffect` goes through `grant` and `deny`. -/
def setEffect (effect : Effect) (e : DefaultEvaluation) (s : State) :
    Option (DefaultEvaluation × State) :=
  match effect with
  | .permit => grant e s
  | .deny => deny e s

def denyIfNoEffect (e : DefaultEvaluation) (s : State) : Option (DefaultEvaluation × State) :=
  match e.effect with
  | none => deny e s
  | some _ => some (e, s)

/-! ## Providers -/

inductive Call where
  | grant
  | deny
  | addClaim (name value : String)
  deriving DecidableEq, Repr

abbrev Provider := Policy → ResourcePermission → List Call

def runCall (call : Call) (e : DefaultEvaluation) (s : State) :
    Option (DefaultEvaluation × State) :=
  match call with
  | .grant => grant e s
  | .deny => deny e s
  | .addClaim name value =>
      let identity := e.permission.identity
      some (e, { s with
        claims := Function.update s.claims identity ((s.claims identity).addClaim name value) })

def runCalls : List Call → DefaultEvaluation → State → Option (DefaultEvaluation × State)
  | [], e, s => some (e, s)
  | call :: rest, e, s => (runCall call e s).bind fun (e, s) => runCalls rest e s

/-- A lookup in the decision cache; with `hits` false every lookup misses. -/
def State.lookup (hits : Bool) (s : State) (id : String) (key : CacheKey) : Option Effect :=
  if hits then s.cache id key else none

section Providers

variable (provider : Provider) (hits : Bool)

mutual

def evaluate : Policy → DefaultEvaluation → State → Option (DefaultEvaluation × State)
  | .mk data associated, e, s =>
      match data.type with
      | .resource =>
          -- `ResourcePolicyProvider`: one effect for each parent policy and resource
          let key := CacheKey.resource e.permission.resource
          match s.lookup hits e.parentPolicy.id key with
          | some effect => setEffect effect e s
          | none =>
              (evaluateAssociated associated e s).map fun (e, s) =>
                (e, s.put e.parentPolicy.id key e.effect)
      | .scope =>
          -- `ScopePolicyProvider`: one effect for each parent policy and permission
          let key := CacheKey.permission e.permission.identity
          match s.lookup hits e.parentPolicy.id key with
          | some effect => setEffect effect e s
          | none =>
              match e.effect with
              | some _ => some (e, s)
              | none =>
                  (evaluateAssociated associated e s).map fun (e, s) =>
                    (e, s.put e.parentPolicy.id key e.effect)
      | .uma => evaluateAssociated associated e s
      | .aggregate =>
          let policy := Policy.mk data associated
          (evaluateAggregated policy e.permission associated { s with results := [] }).bind
            fun inner =>
              let outer := { inner with
                results := s.results, decided := inner.decided ++ [inner.results] }
              match inner.results.lookup e.permission.identity with
              | none => some (e, outer)
              | some result =>
                  match result.results with
                  | [] => none
                  | (_, found) :: _ => if isGranted found then grant e outer else deny e outer
      | .other _ => runCalls (provider (.mk data associated) e.permission) e s

/-- `AbstractPermissionProvider.evaluate`: one evaluation, moved from one associated policy
to the next. -/
def evaluateAssociated : List Policy → DefaultEvaluation → State →
    Option (DefaultEvaluation × State)
  | [], e, s => some (e, s)
  | policy :: rest, e, s =>
      let key := CacheKey.permission e.permission.identity
      match s.lookup hits policy.id key with
      | some effect =>
          (setEffect effect (e.setPolicy policy) s).bind fun (e, s) =>
            evaluateAssociated rest e s
      | none =>
          (evaluate policy (e.setPolicy policy) s).bind fun (e, s) =>
            (denyIfNoEffect e s).bind fun (e, s) =>
              evaluateAssociated rest e (s.put policy.id key e.effect)

/-- The loop of `AggregatePolicyProvider.evaluate`: an evaluation for each associated
policy, all of which decide into one collector. -/
def evaluateAggregated (parent : Policy) (permission : ResourcePermission) :
    List Policy → State → Option State
  | [], s => some s
  | policy :: rest, s =>
      let key := CacheKey.permission permission.identity
      let e : DefaultEvaluation := ⟨permission, parent, some policy, none⟩
      match s.lookup hits policy.id key with
      | some effect =>
          (setEffect effect e s).bind fun (_, s) => evaluateAggregated parent permission rest s
      | none =>
          (evaluate policy e s).bind fun (e, s) =>
            (denyIfNoEffect e s).bind fun (e, s) =>
              evaluateAggregated parent permission rest (s.put policy.id key e.effect)

end

/-- The consumer that `DefaultPolicyEvaluator` hands to the policy store, over the
policies that the store feeds it. -/
def feed (permission : ResourcePermission) : List Policy → State → Option State
  | [], s => some s
  | parent :: rest, s =>
      (evaluate provider hits parent ⟨permission, parent, none, none⟩ s).bind fun (_, s) =>
        feed permission rest s

end Providers

end Keycloak.Authz
