import Keycloak.Lib.Digraph
import Keycloak.Lib.Machine
import Keycloak.Authz.Evaluation

/-!
# The policies of a resource server as a graph

Creating and updating policies with their associated policies, the check for circular
references that the factory of aggregated policies makes, and the evaluation along the
associated policies of the store.  A change that is refused is rolled back.

Policies are compared by id.  A `Policy` that an evaluation carries stands for a stored
policy together with those it is associated with.
-/

namespace Keycloak.Authz.PolicyGraph

open Machine Relation

structure StoredPolicy where
  data : PolicyData
  name : String
  associatedPolicies : List String
  deriving DecidableEq, Repr

abbrev Graph := List StoredPolicy

def findById (g : Graph) (id : String) : Option StoredPolicy := g.find? fun p => p.data.id = id

def findByName (g : Graph) (name : String) : Option StoredPolicy := g.find? fun p => p.name = name

def associatedPolicies (g : Graph) (id : String) : List String :=
  ((findById g id).map StoredPolicy.associatedPolicies).getD []

def isAggregate (g : Graph) (id : String) : Bool :=
  (findById g id).any fun p => p.data.type = .aggregate

def Associated (g : Graph) (p q : String) : Prop := q ∈ associatedPolicies g p

/-- A policy can be reached from itself. -/
def Circular (g : Graph) : Prop := ∃ p, TransGen (Associated g) p p

/-- `verifyCircularReference` with an empty list of ids: it returns at a policy of another
type and throws at an id that is in the list. -/
def verifyCircularReference (g : Graph) (policy : String) : Digraph.Visit String :=
  Digraph.visitOnce (fun id => !isAggregate g id) (associatedPolicies g) (g.length + 1) policy []

/-! ## Changes -/

structure Representation where
  name : String
  logic : Logic
  decisionStrategy : DecisionStrategy
  policies : Option (List String)
  deriving DecidableEq, Repr

inductive Change where
  | create (id : String) (type : PolicyType) (representation : Representation)
  | update (id : String) (representation : Representation)
  deriving DecidableEq, Repr

def modify (g : Graph) (id : String) (f : StoredPolicy → StoredPolicy) : Graph :=
  g.map fun p => if p.data.id = id then f p else p

def meant (g : Graph) (id policyId : String) : Bool :=
  (findById g id).any fun p => p.data.id = policyId || p.name = policyId

def resolve (g : Graph) (policyId : String) : Option String :=
  ((findById g policyId).or (findByName g policyId)).map fun p => p.data.id

def addAssociatedPolicy (g : Graph) (associated : List String) (policyId : String) :
    Option (List String) :=
  if associated.any fun id => meant g id policyId then some associated
  else (resolve g policyId).map fun id => associated.insert id

/-- `none` is an exception, here and in the functions that follow. -/
def updateAssociatedPolicies (g : Graph) (policyIds : Option (List String)) (id : String) :
    Option Graph :=
  match policyIds with
  | none => some g
  | some [] => some (modify g id fun p => { p with associatedPolicies := [] })
  | some policyIds =>
      (policyIds.foldlM (addAssociatedPolicy g) (associatedPolicies g id)).map fun added =>
        modify g id fun p =>
          { p with
            associatedPolicies := added.filter fun a => policyIds.any fun policyId =>
              meant g a policyId }

def toModel (g : Graph) (representation : Representation) (id : String) : Option Graph :=
  let named := modify g id fun p =>
    { p with
      name := representation.name
      data := { p.data with
        logic := representation.logic
        decisionStrategy := representation.decisionStrategy } }
  updateAssociatedPolicies named representation.policies id

/-- The ids of the policies of a representation, before the policy is created. -/
def resolveAll (g : Graph) : Option (List String) → Option (Option (List String))
  | none => some none
  | some policyIds => (policyIds.mapM (resolve g)).map some

def changed (g : Graph) : Change → Option (Graph × String)
  | .create id type representation =>
      if (findByName g representation.name).isSome ∨ (findById g id).isSome then none
      else
        let created : StoredPolicy :=
          ⟨⟨id, type, representation.logic, representation.decisionStrategy, [], []⟩,
            representation.name, []⟩
        (resolveAll g representation.policies).bind fun policies =>
          (toModel (g ++ [created]) { representation with policies } id).map fun g' => (g', id)
  | .update id representation =>
      match findById g id with
      | none => none
      | some _ => (toModel g representation id).map fun g' => (g', id)

/-- A change that throws is rolled back; the factories of the other types accept it. -/
def step (g : Graph) (change : Change) : Option Graph :=
  match changed g change with
  | none => some g
  | some (g', id) =>
      if isAggregate g' id then
        match verifyCircularReference g' id with
        | .done _ => some g'
        | _ => some g
      else some g'

/-! ## Evaluation -/

inductive Outcome (α : Type) where
  | returned (a : α)
  | threw
  | outOfFuel
  deriving DecidableEq, Repr

def Outcome.ofOption {α : Type} : Option α → Outcome α
  | none => .threw
  | some a => .returned a

def Outcome.bind {α β : Type} (o : Outcome α) (f : α → Outcome β) : Outcome β :=
  match o with
  | .returned a => f a
  | .threw => .threw
  | .outOfFuel => .outOfFuel

def policyOf (g : Graph) (id : String) : Option Policy :=
  (findById g id).map fun p => .mk p.data (p.associatedPolicies.filterMap fun a =>
    (findById g a).map fun q => .mk q.data [])

def getAssociatedPolicies (g : Graph) (id : String) : List Policy :=
  (associatedPolicies g id).filterMap (policyOf g)

section Providers

/-- `AbstractPermissionProvider.evaluate`. -/
def evaluateAssociated
    (eval : Policy → DefaultEvaluation → State → Outcome (DefaultEvaluation × State)) :
    List Policy → DefaultEvaluation → State → Outcome (DefaultEvaluation × State)
  | [], e, s => .returned (e, s)
  | policy :: rest, e, s =>
      let key := CacheKey.permission e.permission.identity
      match s.cache policy.id key with
      | some effect =>
          (Outcome.ofOption (setEffect effect (e.setPolicy policy) s)).bind fun (e, s) =>
            evaluateAssociated eval rest e s
      | none =>
          (eval policy (e.setPolicy policy) s).bind fun (e, s) =>
            (Outcome.ofOption (denyIfNoEffect e s)).bind fun (e, s) =>
              evaluateAssociated eval rest e (s.put policy.id key e.effect)

/-- The loop of `AggregatePolicyProvider.evaluate`. -/
def evaluateAggregated
    (eval : Policy → DefaultEvaluation → State → Outcome (DefaultEvaluation × State))
    (parent : Policy) (permission : ResourcePermission) : List Policy → State → Outcome State
  | [], s => .returned s
  | policy :: rest, s =>
      let key := CacheKey.permission permission.identity
      let e : DefaultEvaluation := ⟨permission, parent, some policy, none⟩
      match s.cache policy.id key with
      | some effect =>
          (Outcome.ofOption (setEffect effect e s)).bind fun (_, s) =>
            evaluateAggregated eval parent permission rest s
      | none =>
          (eval policy e s).bind fun (e, s) =>
            (Outcome.ofOption (denyIfNoEffect e s)).bind fun (e, s) =>
              evaluateAggregated eval parent permission rest (s.put policy.id key e.effect)

variable (provider : Provider) (g : Graph)

/-- `PolicyProvider.evaluate` of the provider for the type of the policy, with a bound on the
calls inside one another. -/
def evaluate : Nat → Policy → DefaultEvaluation → State → Outcome (DefaultEvaluation × State)
  | 0, _, _, _ => .outOfFuel
  | fuel + 1, policy, e, s =>
      let associated := getAssociatedPolicies g policy.id
      match policy.type with
      | .resource =>
          let key := CacheKey.resource e.permission.resource
          match s.cache e.parentPolicy.id key with
          | some effect => .ofOption (setEffect effect e s)
          | none =>
              (evaluateAssociated (evaluate fuel) associated e s).bind fun (e, s) =>
                .returned (e, s.put e.parentPolicy.id key e.effect)
      | .scope =>
          let key := CacheKey.permission e.permission.identity
          match s.cache e.parentPolicy.id key with
          | some effect => .ofOption (setEffect effect e s)
          | none =>
              match e.effect with
              | some _ => .returned (e, s)
              | none =>
                  (evaluateAssociated (evaluate fuel) associated e s).bind fun (e, s) =>
                    .returned (e, s.put e.parentPolicy.id key e.effect)
      | .uma => evaluateAssociated (evaluate fuel) associated e s
      | .aggregate =>
          (evaluateAggregated (evaluate fuel) policy e.permission associated
              { s with results := [] }).bind fun inner =>
            let outer := { inner with
              results := s.results, decided := inner.decided ++ [inner.results] }
            match inner.results.lookup e.permission.identity with
            | none => .returned (e, outer)
            | some result =>
                match result.results with
                | [] => .threw
                | (_, found) :: _ =>
                    .ofOption (if isGranted found then grant e outer else deny e outer)
      | .other _ => .ofOption (runCalls (provider policy e.permission) e s)

/-- From every policy the evaluation ends, whatever has been evaluated before. -/
def Evaluable : Prop :=
  ∀ policy, ∃ bound, ∀ fuel ≥ bound, ∀ e s, evaluate provider g fuel policy e s ≠ .outOfFuel

end Providers

/-! ## The check -/

/-- The check of a changed aggregated policy ends, and throws exactly if a policy can be
reached from itself. -/
def VerifiedRight (g : Graph) (change : Change) : Prop :=
  ∀ g' id, changed g change = some (g', id) → isAggregate g' id = true →
    verifyCircularReference g' id ≠ .outOfFuel ∧
      ((∃ p, verifyCircularReference g' id = .repeated p) ↔ Circular g')

/-- Two chains of aggregated policies from the given one meet: some aggregated policy is
associated with two of those in the chains, or the given one with one of them. -/
def ChainsMeet (g : Graph) (id : String) : Prop :=
  ∃ p, Digraph.PathsMeet (fun q => !isAggregate g q) (associatedPolicies g) id p

/-- A change of an aggregated policy makes chains of aggregated policies from it meet exactly
if it closes a cycle, and a change of another policy closes none. -/
def Classified (g : Graph) (change : Change) : Prop :=
  ∀ g' id, changed g change = some (g', id) →
    if isAggregate g' id then ChainsMeet g' id ↔ Circular g' else ¬ Circular g'

def Distinct (g : Graph) : Prop := ∀ p ∈ g, p.associatedPolicies.Nodup

theorem findById_eq_some {g : Graph} {id : String} {p : StoredPolicy}
    (h : findById g id = some p) : p ∈ g ∧ p.data.id = id :=
  ⟨List.mem_of_find?_eq_some h, by simpa using List.find?_some h⟩

theorem Distinct.associatedPolicies {g : Graph} (h : Distinct g) (id : String) :
    (associatedPolicies g id).Nodup := by
  unfold PolicyGraph.associatedPolicies
  cases hfind : findById g id with
  | none => simp
  | some p => exact h p (findById_eq_some hfind).1

theorem mem_of_isAggregate {g : Graph} {id : String} (h : isAggregate g id = true) :
    id ∈ g.map fun p => p.data.id := by
  obtain ⟨p, hp, _⟩ := (Option.any_eq_true _ _).mp h
  obtain ⟨hmem, hid⟩ := findById_eq_some hp
  exact List.mem_map.mpr ⟨p, hmem, hid⟩

/-! ### Changes keep the lists free of duplicates -/

theorem Distinct.modify {g : Graph} (h : Distinct g) {id : String}
    {f : StoredPolicy → StoredPolicy}
    (hf : ∀ p, p.associatedPolicies.Nodup → (f p).associatedPolicies.Nodup) :
    Distinct (modify g id f) := by
  intro p hp
  obtain ⟨q, hq, rfl⟩ := List.mem_map.mp hp
  split
  · exact hf q (h q hq)
  · exact h q hq

theorem nodup_foldlM_addAssociatedPolicy {g : Graph} {policyIds associated added : List String}
    (h : associated.Nodup)
    (hadded : policyIds.foldlM (addAssociatedPolicy g) associated = some added) :
    added.Nodup := by
  induction policyIds generalizing associated with
  | nil =>
      cases hadded
      exact h
  | cons policyId rest ih =>
      rw [List.foldlM_cons] at hadded
      obtain ⟨next, hnext, hrest⟩ := Option.bind_eq_some_iff.mp hadded
      refine ih ?_ hrest
      unfold addAssociatedPolicy at hnext
      split_ifs at hnext
      · cases hnext
        exact h
      · obtain ⟨id, _, rfl⟩ := Option.map_eq_some_iff.mp hnext
        exact h.insert

theorem Distinct.updateAssociatedPolicies {g g' : Graph} (h : Distinct g)
    {policyIds : Option (List String)} {id : String}
    (hupdate : updateAssociatedPolicies g policyIds id = some g') : Distinct g' := by
  unfold PolicyGraph.updateAssociatedPolicies at hupdate
  split at hupdate
  · cases hupdate
    exact h
  · cases hupdate
    exact h.modify fun p _ => List.nodup_nil
  · obtain ⟨added, hadded, rfl⟩ := Option.map_eq_some_iff.mp hupdate
    have hnodup := nodup_foldlM_addAssociatedPolicy (h.associatedPolicies id) hadded
    exact h.modify fun p _ => hnodup.filter _

theorem Distinct.toModel {g g' : Graph} (h : Distinct g) {representation : Representation}
    {id : String} (hmodel : toModel g representation id = some g') : Distinct g' := by
  refine Distinct.updateAssociatedPolicies ?_ hmodel
  exact h.modify fun _ hp => hp

theorem Distinct.changed {g g' : Graph} (h : Distinct g) {change : Change} {id : String}
    (hchanged : changed g change = some (g', id)) : Distinct g' := by
  cases change with
  | create newId type representation =>
      simp only [PolicyGraph.changed] at hchanged
      split_ifs at hchanged
      obtain ⟨policies, _, hcreated⟩ := Option.bind_eq_some_iff.mp hchanged
      obtain ⟨created, hmodel, heq⟩ := Option.map_eq_some_iff.mp hcreated
      cases heq
      refine Distinct.toModel (fun p hp => ?_) hmodel
      rcases List.mem_append.mp hp with hold | hnew
      · exact h p hold
      · rw [List.mem_singleton.mp hnew]
        exact List.nodup_nil
  | update changedId representation =>
      simp only [PolicyGraph.changed] at hchanged
      split at hchanged
      · cases hchanged
      · obtain ⟨updated, hmodel, heq⟩ := Option.map_eq_some_iff.mp hchanged
        cases heq
        exact h.toModel hmodel

/-! ### The check against the graph -/

theorem verifyCircularReference_ne_outOfFuel (g : Graph) (id : String) :
    verifyCircularReference g id ≠ .outOfFuel := by
  have hwithin : Digraph.Within (g.map fun p => p.data.id) 0 ([] : List String) :=
    ⟨List.nodup_nil, by simp, Nat.le_refl 0⟩
  refine Digraph.visitOnce_ne_outOfFuel (fun a ha => ?_) (by simp) id hwithin
  exact mem_of_isAggregate (by simpa using ha)

theorem verifyCircularReference_repeated_iff {g : Graph} (h : Distinct g) {id : String}
    (hid : isAggregate g id = true) :
    (∃ p, verifyCircularReference g id = .repeated p) ↔ ChainsMeet g id := by
  have hnodes : ∀ a, (!isAggregate g a) = false → a ∈ g.map fun p => p.data.id :=
    fun a ha => mem_of_isAggregate (by simpa using ha)
  exact Digraph.visitOnce_repeated_iff hnodes h.associatedPolicies (by simp) (by simp [hid])

/-! ### Evaluation without cycles -/

theorem id_of_policyOf {g : Graph} {id : String} {policy : Policy}
    (h : policyOf g id = some policy) : policy.id = id := by
  obtain ⟨p, hp, rfl⟩ := Option.map_eq_some_iff.mp h
  exact (findById_eq_some hp).2

theorem associated_of_mem {g : Graph} {id : String} {policy : Policy}
    (h : policy ∈ getAssociatedPolicies g id) : Associated g id policy.id := by
  obtain ⟨a, ha, hpolicy⟩ := List.mem_filterMap.mp h
  exact id_of_policyOf hpolicy ▸ ha

theorem Outcome.bind_ne_outOfFuel {α β : Type} {o : Outcome α} {f : α → Outcome β}
    (ho : o ≠ .outOfFuel) (hf : ∀ a, f a ≠ .outOfFuel) : o.bind f ≠ .outOfFuel := by
  cases o with
  | returned a => exact hf a
  | threw => simp [Outcome.bind]
  | outOfFuel => exact absurd rfl ho

theorem Outcome.ofOption_ne_outOfFuel {α : Type} (o : Option α) :
    Outcome.ofOption o ≠ .outOfFuel := by
  cases o <;> simp [Outcome.ofOption]

def Ends (eval : Policy → DefaultEvaluation → State → Outcome (DefaultEvaluation × State))
    (policy : Policy) : Prop := ∀ e s, eval policy e s ≠ .outOfFuel

theorem evaluateAssociated_ends
    {eval : Policy → DefaultEvaluation → State → Outcome (DefaultEvaluation × State)}
    {policies : List Policy} (h : ∀ policy ∈ policies, Ends eval policy) (e : DefaultEvaluation)
    (s : State) : evaluateAssociated eval policies e s ≠ .outOfFuel := by
  induction policies generalizing e s with
  | nil => simp [evaluateAssociated]
  | cons policy rest ih =>
      have hrest := ih fun p hp => h p (List.mem_cons_of_mem _ hp)
      unfold evaluateAssociated
      dsimp only
      split
      · exact Outcome.bind_ne_outOfFuel (Outcome.ofOption_ne_outOfFuel _) fun _ => hrest _ _
      · refine Outcome.bind_ne_outOfFuel (h policy List.mem_cons_self _ _) fun _ => ?_
        exact Outcome.bind_ne_outOfFuel (Outcome.ofOption_ne_outOfFuel _) fun _ => hrest _ _

theorem evaluateAggregated_ends
    {eval : Policy → DefaultEvaluation → State → Outcome (DefaultEvaluation × State)}
    {policies : List Policy} (h : ∀ policy ∈ policies, Ends eval policy) (parent : Policy)
    (permission : ResourcePermission) (s : State) :
    evaluateAggregated eval parent permission policies s ≠ .outOfFuel := by
  induction policies generalizing s with
  | nil => simp [evaluateAggregated]
  | cons policy rest ih =>
      have hrest := ih fun p hp => h p (List.mem_cons_of_mem _ hp)
      unfold evaluateAggregated
      dsimp only
      split
      · exact Outcome.bind_ne_outOfFuel (Outcome.ofOption_ne_outOfFuel _) fun _ => hrest _
      · refine Outcome.bind_ne_outOfFuel (h policy List.mem_cons_self _ _) fun _ => ?_
        exact Outcome.bind_ne_outOfFuel (Outcome.ofOption_ne_outOfFuel _) fun _ => hrest _

theorem evaluate_ends {provider : Provider} {g : Graph} {fuel : Nat} {policy : Policy}
    (h : ∀ child ∈ getAssociatedPolicies g policy.id, Ends (evaluate provider g fuel) child) :
    Ends (evaluate provider g (fuel + 1)) policy := by
  intro e s
  have hassociated := evaluateAssociated_ends h e s
  unfold evaluate
  dsimp only
  split
  · split
    · exact Outcome.ofOption_ne_outOfFuel _
    · exact Outcome.bind_ne_outOfFuel hassociated fun _ => by simp
  · split
    · exact Outcome.ofOption_ne_outOfFuel _
    · split
      · simp
      · exact Outcome.bind_ne_outOfFuel hassociated fun _ => by simp
  · exact hassociated
  · refine Outcome.bind_ne_outOfFuel (evaluateAggregated_ends h policy e.permission _) fun _ => ?_
    split
    · simp
    · split
      · simp
      · exact Outcome.ofOption_ne_outOfFuel _
  · exact Outcome.ofOption_ne_outOfFuel _

theorem exists_common_bound {α : Type} {P : Nat → α → Prop} {as : List α}
    (h : ∀ a ∈ as, ∃ bound, ∀ n ≥ bound, P n a) : ∃ bound, ∀ n ≥ bound, ∀ a ∈ as, P n a := by
  induction as with
  | nil => exact ⟨0, by simp⟩
  | cons a rest ih =>
      obtain ⟨bound, hbound⟩ := h a List.mem_cons_self
      obtain ⟨bound', hbound'⟩ := ih fun b hb => h b (List.mem_cons_of_mem _ hb)
      refine ⟨max bound bound', fun n hn b hb => ?_⟩
      rcases List.mem_cons.mp hb with rfl | hrest
      · exact hbound n (by omega)
      · exact hbound' n (by omega) b hrest

theorem wellFounded_associated {g : Graph} (h : ¬ Circular g) :
    WellFounded fun q p => Associated g p q := by
  refine Digraph.wellFounded_of_acyclic (List.finite_toSet (g.map fun p => p.data.id)) ?_
    fun p hp => h ⟨p, hp⟩
  intro p q hpq
  unfold Associated associatedPolicies at hpq
  cases hfind : findById g p with
  | none => simp [hfind] at hpq
  | some row => exact List.mem_map.mpr ⟨row, findById_eq_some hfind⟩

/-- Where no policy can be reached from itself, evaluation ends from every policy. -/
theorem evaluable_of_not_circular (provider : Provider) {g : Graph} (h : ¬ Circular g) :
    Evaluable provider g := by
  suffices hall : ∀ id, ∃ bound, ∀ fuel ≥ bound, ∀ policy : Policy, policy.id = id →
      Ends (evaluate provider g fuel) policy by
    intro policy
    obtain ⟨bound, hbound⟩ := hall policy.id
    exact ⟨bound, fun fuel hfuel => hbound fuel hfuel policy rfl⟩
  intro id
  induction id using (wellFounded_associated h).induction with
  | _ id ih =>
      have hchildren : ∀ child ∈ getAssociatedPolicies g id, ∃ bound, ∀ fuel ≥ bound,
          Ends (evaluate provider g fuel) child := by
        intro child hchild
        obtain ⟨bound, hbound⟩ := ih child.id (associated_of_mem hchild)
        exact ⟨bound, fun fuel hfuel => hbound fuel hfuel child rfl⟩
      obtain ⟨bound, hbound⟩ := exists_common_bound hchildren
      refine ⟨bound + 1, fun fuel hfuel policy hpolicy => ?_⟩
      obtain ⟨fuel, rfl⟩ : ∃ n, fuel = n + 1 := ⟨fuel - 1, by omega⟩
      subst hpolicy
      exact evaluate_ends (hbound fuel (by omega))

/-! ### Runs -/

structure Accepted (g : Graph) : Prop where
  distinct : Distinct g
  acyclic : ¬ Circular g

theorem accepted_nil : Accepted [] where
  distinct p h := by simp at h
  acyclic := by
    rintro ⟨p, hcycle⟩
    have hnone : ∀ p q, ¬ Associated [] p q := by
      intro p q
      simp [Associated, associatedPolicies, findById]
    cases hcycle with
    | single h => exact hnone _ _ h
    | tail _ h => exact hnone _ _ h

theorem Accepted.verifiedRight {g : Graph} (h : Accepted g) {change : Change}
    (hok : Classified g change) : VerifiedRight g change := by
  intro g' id hchanged haggregate
  have hclass := hok g' id hchanged
  rw [if_pos haggregate] at hclass
  refine ⟨verifyCircularReference_ne_outOfFuel g' id, ?_⟩
  rw [verifyCircularReference_repeated_iff (h.distinct.changed hchanged) haggregate, hclass]

theorem Accepted.step {g g' : Graph} (h : Accepted g) {change : Change}
    (hok : Classified g change) (hstep : step g change = some g') : Accepted g' := by
  unfold PolicyGraph.step at hstep
  split at hstep
  · cases hstep
    exact h
  · rename_i changedGraph id hchanged
    have hdistinct := h.distinct.changed hchanged
    split_ifs at hstep with haggregate
    · split at hstep
      · rename_i seen hdone
        cases hstep
        refine ⟨hdistinct, fun hcircular => ?_⟩
        obtain ⟨p, hrepeated⟩ := (h.verifiedRight hok _ _ hchanged haggregate).2.mpr hcircular
        rw [hdone] at hrepeated
        cases hrepeated
      · cases hstep
        exact h
    · cases hstep
      have hclass := hok _ _ hchanged
      rw [if_neg haggregate] at hclass
      exact ⟨hdistinct, hclass⟩

/-- In a run of changes that are all classified by where the chains of aggregated policies
meet, every check is right and every graph in between can be evaluated from every policy. -/
theorem accepted_evaluable (provider : Provider) {changes : List Change}
    (hok : Machine.Meets step Classified [] changes) :
    ∀ before after, changes = before ++ after → ∀ g, run step [] before = some g →
      Evaluable provider g ∧ ∀ change ∈ after.head?, VerifiedRight g change := by
  rintro before after rfl g hrun
  have haccepted : Accepted g :=
    run_invariant (fun _ _ _ h hok hstep => h.step hok hstep) accepted_nil
      (hok.of_prefix (List.prefix_append _ _)) hrun
  refine ⟨evaluable_of_not_circular provider haccepted.acyclic, fun change hchange => ?_⟩
  cases after with
  | nil => cases hchange
  | cons first rest =>
      cases hchange
      exact haccepted.verifiedRight (hok.of_append hrun).1

/-! ### Two aggregated policies and a permission -/

def representationOf (name : String) (policies : List String) : Representation :=
  ⟨name, .positive, .unanimous, some policies⟩

def storedPolicy (id : String) (type : PolicyType) (policies : List String) : StoredPolicy :=
  ⟨⟨id, type, .positive, .unanimous, [], []⟩, id, policies⟩

/-- A permission for an aggregated policy, which is then associated with itself. -/
def selfReference : List Change :=
  [.create "leaf" (.other "js") (representationOf "leaf" []),
    .create "all" .aggregate (representationOf "all" ["leaf"]),
    .create "permission" .scope (representationOf "permission" ["all"]),
    .update "all" (representationOf "all" ["leaf", "all"])]

/-- An aggregated policy that is associated with two others, which share one. -/
def diamond : List Change :=
  [.create "leaf" (.other "js") (representationOf "leaf" []),
    .create "shared" .aggregate (representationOf "shared" ["leaf"]),
    .create "left" .aggregate (representationOf "left" ["shared"]),
    .create "right" .aggregate (representationOf "right" ["shared"])]

/-- An aggregated policy that is associated with a permission for it. -/
def hiddenCycle : List Change :=
  [.create "leaf" (.other "js") (representationOf "leaf" []),
    .create "all" .aggregate (representationOf "all" ["leaf"]),
    .create "permission" .scope (representationOf "permission" ["all"]),
    .update "all" (representationOf "all" ["permission"])]

def hiddenGraph : Graph :=
  [storedPolicy "leaf" (.other "js") [], storedPolicy "all" .aggregate ["permission"],
    storedPolicy "permission" .scope ["all"]]

/-- Numbers that go down along the associated policies rule out cycles. -/
theorem not_circular_of_rank {g : Graph} (rank : String → Nat)
    (h : ∀ p ∈ g, ∀ q ∈ p.associatedPolicies, rank q < rank p.data.id) : ¬ Circular g := by
  rintro ⟨p, hcycle⟩
  have hedge : ∀ p q, Associated g p q → rank q < rank p := by
    intro p q hpq
    unfold Associated associatedPolicies at hpq
    cases hfind : findById g p with
    | none => simp [hfind] at hpq
    | some row =>
        obtain ⟨hmem, rfl⟩ := findById_eq_some hfind
        exact h row hmem q (by simpa [hfind] using hpq)
  have hpath : ∀ q, TransGen (Associated g) p q → rank q < rank p := by
    intro q hq
    induction hq with
    | single hpq => exact hedge _ _ hpq
    | tail _ hqr ih => exact Nat.lt_trans (hedge _ _ hqr) ih
  exact Nat.lt_irrefl _ (hpath p hcycle)

theorem Classified.of_other {g g' : Graph} {change : Change} {id : String}
    (hchanged : changed g change = some (g', id)) (hother : isAggregate g' id = false)
    (h : ¬ Circular g') : Classified g change := by
  intro g'' id' hchanged'
  rw [hchanged] at hchanged'
  cases hchanged'
  rwa [if_neg (by simp [hother])]

theorem Classified.of_aggregate {g g' : Graph} {change : Change} {id : String}
    (hchanged : changed g change = some (g', id)) (haggregate : isAggregate g' id = true)
    (h : ChainsMeet g' id ↔ Circular g') : Classified g change := by
  intro g'' id' hchanged'
  rw [hchanged] at hchanged'
  cases hchanged'
  rwa [if_pos haggregate]

/-- Where the check ends at an aggregated policy, no chains from it meet. -/
theorem not_chainsMeet_of_done {g : Graph} (h : Distinct g) {id : String} {seen : List String}
    (haggregate : isAggregate g id = true) (hdone : verifyCircularReference g id = .done seen) :
    ¬ ChainsMeet g id := by
  rw [← verifyCircularReference_repeated_iff h haggregate]
  rintro ⟨p, hp⟩
  rw [hdone] at hp
  cases hp

theorem selfReference_classified : Machine.Meets step Classified [] selfReference := by
  -- the policies in the order in which they are created
  have hrank : ∀ g : Graph, (∀ p ∈ g, ∀ q ∈ p.associatedPolicies,
      ["leaf", "all", "permission"].idxOf q < ["leaf", "all", "permission"].idxOf p.data.id) →
      ¬ Circular g :=
    fun g => not_circular_of_rank _
  refine Machine.Meets.cons ?_ rfl (Machine.Meets.cons ?_ rfl (Machine.Meets.cons ?_ rfl
    (Machine.Meets.cons ?_ rfl trivial)))
  · exact .of_other rfl (by decide +kernel) (hrank _ (by decide +kernel))
  · refine .of_aggregate rfl (by decide +kernel) (iff_of_false ?_ (hrank _ (by decide +kernel)))
    exact not_chainsMeet_of_done (by unfold Distinct; decide +kernel) (by decide +kernel) rfl
  · exact .of_other rfl (by decide +kernel) (hrank _ (by decide +kernel))
  · have hself : ∀ g : Graph, isAggregate g "all" = true → "all" ∈ associatedPolicies g "all" →
        (ChainsMeet g "all" ↔ Circular g) := by
      intro g haggregate hself
      refine iff_of_true ⟨"all", .inl ⟨rfl, "all", .refl, hself, by simp [haggregate]⟩⟩ ?_
      exact ⟨"all", .single hself⟩
    exact .of_aggregate rfl (by decide +kernel) (hself _ (by decide +kernel) (by decide +kernel))

/-- The self-reference is refused, and what was accepted before can be evaluated. -/
theorem selfReference_evaluable :
    ∃ g, run step [] selfReference = some g ∧ associatedPolicies g "all" = ["leaf"] ∧
      ∀ provider, Evaluable provider g := by
  obtain ⟨g, hg, hleaf⟩ : ∃ g, run step [] selfReference = some g ∧
      associatedPolicies g "all" = ["leaf"] := ⟨_, rfl, by decide +kernel⟩
  refine ⟨g, hg, hleaf, fun provider => ?_⟩
  exact (accepted_evaluable provider selfReference_classified selfReference [] (by simp) g hg).1

def permissionPolicy : Policy := .mk ⟨"permission", .scope, .positive, .unanimous, [], []⟩
  [.mk ⟨"all", .aggregate, .positive, .unanimous, [], []⟩ []]

def allPolicy : Policy := .mk ⟨"all", .aggregate, .positive, .unanimous, [], []⟩
  [.mk ⟨"permission", .scope, .positive, .unanimous, [], []⟩ []]

/-- The permission and the aggregated policy evaluate each other without end. -/
theorem hiddenGraph_outOfFuel (provider : Provider) (fuel : Nat) (e : DefaultEvaluation)
    (s : State) (hcache : s.cache = fun _ _ => none) :
    (e.effect = none →
      evaluate provider hiddenGraph fuel permissionPolicy e s = .outOfFuel) ∧
      evaluate provider hiddenGraph fuel allPolicy e s = .outOfFuel := by
  have hpermission : getAssociatedPolicies hiddenGraph permissionPolicy.id = [allPolicy] := by rfl
  have hall : getAssociatedPolicies hiddenGraph allPolicy.id = [permissionPolicy] := by rfl
  have hscope : permissionPolicy.type = .scope := rfl
  have haggregate : allPolicy.type = .aggregate := rfl
  induction fuel generalizing e s with
  | zero => exact ⟨fun _ => rfl, rfl⟩
  | succ fuel ih =>
      constructor
      · intro heffect
        have hnested := (ih (e.setPolicy allPolicy) s hcache).2
        simp only [evaluate, hpermission, hscope, evaluateAssociated, hcache, heffect, hnested,
          Outcome.bind]
      · have hnested := (ih ⟨e.permission, allPolicy, some permissionPolicy, none⟩
          { s with results := [] } hcache).1 rfl
        rw [hcache] at hnested
        simp only [evaluate, hall, haggregate, evaluateAggregated, hcache, hnested, Outcome.bind]

/-- The diamond is refused, though no policy can be reached from itself; the cycle through the
permission is accepted, and evaluating the permission does not end. -/
theorem diamond_refused_cycle_accepted :
    (∃ g, run step [] diamond = some g ∧
      ¬ VerifiedRight g (.create "top" .aggregate (representationOf "top" ["left", "right"]))) ∧
    ∃ g, run step [] hiddenCycle = some g ∧ ∀ provider, ¬ Evaluable provider g := by
  constructor
  · refine ⟨_, rfl, fun h => ?_⟩
    obtain ⟨p, hcycle⟩ := ((h _ "top" rfl (by decide +kernel)).2.mp ⟨"shared", by decide +kernel⟩)
    refine not_circular_of_rank (["leaf", "shared", "left", "right", "top"].idxOf ·) ?_ ⟨p, hcycle⟩
    decide +kernel
  · refine ⟨hiddenGraph, by decide +kernel, fun provider h => ?_⟩
    obtain ⟨bound, hbound⟩ := h permissionPolicy
    exact hbound bound (Nat.le_refl _) ⟨⟨0, none, []⟩, permissionPolicy, none, none⟩
      (State.initial fun _ => []) ((hiddenGraph_outOfFuel provider bound _ _ rfl).1 rfl)

end Keycloak.Authz.PolicyGraph
