import Keycloak.Authz.Evaluation

/-!
# What an evaluation decides

`Policy.effect` is the effect of a policy when nothing is taken from the decision cache.
`visitFed` follows the evaluation of the fed permissions through the policy graph and
lists the policies whose cached effect is replayed.  The main lemmas relate a run to the
two: as long as no policy with negative logic is replayed, every effect that is recorded
is the policy's own.
-/

namespace Keycloak.Authz

/-! ## The policy graph -/

namespace Policy

/-- Permissions are policies of the types that the evaluator is fed with. -/
def IsPermission (p : Policy) : Prop :=
  p.type = .resource ∨ p.type = .scope ∨ p.type = .uma

instance (p : Policy) : Decidable p.IsPermission := by
  unfold IsPermission
  infer_instance

theorem induction {motive : Policy → Prop}
    (mk : ∀ data associated, (∀ p ∈ associated, motive p) → motive (.mk data associated))
    (p : Policy) : motive p :=
  match p with
  | .mk data associated => mk data associated fun q _ => induction mk q

theorem sizeOf_lt_of_mem {p q : Policy} (h : q ∈ p.associatedPolicies) :
    sizeOf q < sizeOf p := by
  cases p with
  | mk data associated =>
      have hlt := List.sizeOf_lt_of_mem h
      simp only [associatedPolicies] at hlt
      simp only [mk.sizeOf_spec]
      omega

theorem not_mem_associatedPolicies (p : Policy) : p ∉ p.associatedPolicies :=
  fun h => Nat.lt_irrefl _ (sizeOf_lt_of_mem h)

mutual

/-- The policy and everything that is evaluated with it: an aggregated policy is decided
from its associated policies. -/
def subpolicies : Policy → List Policy
  | .mk data associated =>
      .mk data associated ::
        match data.type with
        | .aggregate => subpoliciesOfAll associated
        | _ => []

def subpoliciesOfAll : List Policy → List Policy
  | [] => []
  | p :: rest => subpolicies p ++ subpoliciesOfAll rest

end

theorem mem_subpoliciesOfAll {ps : List Policy} {q : Policy} :
    q ∈ subpoliciesOfAll ps ↔ ∃ p ∈ ps, q ∈ p.subpolicies := by
  induction ps with
  | nil => simp [subpoliciesOfAll]
  | cons p rest ih => simp [subpoliciesOfAll, ih]

theorem mem_subpolicies {p q : Policy} :
    q ∈ p.subpolicies ↔
      q = p ∨ (p.type = .aggregate ∧ ∃ a ∈ p.associatedPolicies, q ∈ a.subpolicies) := by
  cases p with
  | mk data associated =>
      simp only [subpolicies, List.mem_cons, type, Policy.data, associatedPolicies]
      cases htype : data.type <;> simp [mem_subpoliciesOfAll]

theorem self_mem_subpolicies (p : Policy) : p ∈ p.subpolicies :=
  mem_subpolicies.mpr (.inl rfl)

theorem subpolicies_trans {a p q : Policy} (hq : q ∈ a.subpolicies)
    (htype : q.type = .aggregate) (hp : p ∈ q.associatedPolicies) : p ∈ a.subpolicies := by
  induction a using Policy.induction with
  | mk data associated ih =>
      rcases mem_subpolicies.mp hq with rfl | ⟨haggregate, b, hb, hqb⟩
      · exact mem_subpolicies.mpr (.inr ⟨htype, p, hp, p.self_mem_subpolicies⟩)
      · exact mem_subpolicies.mpr (.inr ⟨haggregate, b, hb, ih b hb hqb⟩)

end Policy

def Below (roots : Policy → Prop) (q : Policy) : Prop :=
  ∃ p, roots p ∧ ∃ a ∈ p.associatedPolicies, q ∈ a.subpolicies

/-- The permissions `roots`, fed by the policy store, with the policies below them: these
are not permissions, an id names one policy, and associated policies form a set. -/
structure PolicyGraph (roots : Policy → Prop) : Prop where
  permission : ∀ p, roots p → p.IsPermission
  policy : ∀ p, Below roots p → ¬ p.IsPermission
  unique : ∀ p q, (roots p ∨ Below roots p) → (roots q ∨ Below roots q) → p.id = q.id → p = q
  nodup : ∀ p, (roots p ∨ Below roots p) → (p.associatedPolicies.map Policy.id).Nodup

namespace PolicyGraph

variable {roots : Policy → Prop}

theorem below_associated {p a : Policy} (hp : roots p) (ha : a ∈ p.associatedPolicies) :
    Below roots a :=
  ⟨p, hp, a, ha, a.self_mem_subpolicies⟩

theorem below_closed {q a : Policy} (hq : Below roots q) (htype : q.type = .aggregate)
    (ha : a ∈ q.associatedPolicies) : Below roots a := by
  obtain ⟨p, hp, b, hb, hqb⟩ := hq
  exact ⟨p, hp, b, hb, Policy.subpolicies_trans hqb htype ha⟩

theorem below_unique (g : PolicyGraph roots) {p q : Policy} (hp : Below roots p)
    (hq : Below roots q) (hid : p.id = q.id) : p = q :=
  g.unique p q (.inr hp) (.inr hq) hid

theorem root_unique (g : PolicyGraph roots) {p q : Policy} (hp : roots p) (hq : roots q)
    (hid : p.id = q.id) : p = q :=
  g.unique p q (.inl hp) (.inl hq) hid

theorem root_ne_below (g : PolicyGraph roots) {p q : Policy} (hp : roots p)
    (hq : Below roots q) : p.id ≠ q.id := by
  intro hid
  have heq := g.unique p q (.inl hp) (.inr hq) hid
  exact g.policy q hq (heq ▸ g.permission p hp)

theorem below_ne_associated (g : PolicyGraph roots) {p q : Policy} (hp : Below roots p)
    (htype : p.type = .aggregate) (hq : q ∈ p.associatedPolicies) : p.id ≠ q.id := by
  intro hid
  have heq := g.below_unique hp (below_closed hp htype hq) hid
  exact p.not_mem_associatedPolicies (heq ▸ hq)

end PolicyGraph

/-! ## Effects without the cache -/

def lastDecision : List Call → Option Effect
  | [] => none
  | .grant :: rest => (lastDecision rest).or (some .permit)
  | .deny :: rest => (lastDecision rest).or (some .deny)
  | .addClaim _ _ :: rest => lastDecision rest

def addCalls : List Call → Claims → Claims
  | [], claims => claims
  | .addClaim name value :: rest, claims => addCalls rest (claims.addClaim name value)
  | .grant :: rest, claims => addCalls rest claims
  | .deny :: rest, claims => addCalls rest claims

section

variable (provider : Provider) (permission : ResourcePermission)

mutual

/-- The effect of a policy when every lookup in the decision cache misses. -/
def Policy.effect : Policy → Effect
  | .mk data associated =>
      match data.type with
      | .aggregate =>
          -- without an associated policy there is no result, and `denyIfNoEffect` decides
          if associated.isEmpty then data.logic.apply .deny
          else if isGranted ⟨.mk data associated, Policy.effects associated⟩ then
            data.logic.apply .permit
          else data.logic.apply .deny
      | _ =>
          data.logic.apply ((lastDecision (provider (.mk data associated) permission)).getD .deny)

def Policy.effects : List Policy → List (String × Effect)
  | [] => []
  | p :: rest => (p.id, Policy.effect p) :: Policy.effects rest

end

theorem Policy.effects_eq (ps : List Policy) :
    Policy.effects provider permission ps =
      ps.map fun p => (p.id, p.effect provider permission) := by
  induction ps with
  | nil => rfl
  | cons p rest ih => simp [Policy.effects, ih]

def claimsAfter (claims : Claims) (evaluated : List Policy) : Claims :=
  evaluated.foldl
    (fun acc p => if p.type = .aggregate then acc else addCalls (provider p permission) acc)
    claims

end

/-! ## Visits -/

section

variable (hits : Bool)

mutual

/-- The policies replayed while `p` is evaluated, and the policies evaluated by then. -/
def Policy.visit (seen : List Policy) : Policy → List Policy × List Policy
  | .mk data associated =>
      match data.type with
      | .aggregate => Policy.visitAll seen associated
      | _ => ([], seen)

/-- An associated policy that has been evaluated before is replayed; any other one is
evaluated, and an aggregated policy visits its associated policies then. -/
def Policy.visitAll (seen : List Policy) : List Policy → List Policy × List Policy
  | [] => ([], seen)
  | p :: rest =>
      if hits && (seen.map Policy.id).contains p.id then
        (p :: (Policy.visitAll seen rest).1, (Policy.visitAll seen rest).2)
      else
        ((Policy.visit seen p).1 ++ (Policy.visitAll ((Policy.visit seen p).2 ++ [p]) rest).1,
          (Policy.visitAll ((Policy.visit seen p).2 ++ [p]) rest).2)

end

/-- The same for a fed permission.  Resource and scope permissions keep their own effect,
so they visit their policies only when they are first fed. -/
def visitParent (fed : List String) (seen : List Policy) (parent : Policy) :
    List Policy × List Policy :=
  if hits && (decide (parent.type ≠ .uma) && fed.contains parent.id) then ([], seen)
  else Policy.visitAll hits seen parent.associatedPolicies

def visitFed (fed : List String) (seen : List Policy) : List Policy →
    List Policy × List Policy
  | [] => ([], seen)
  | parent :: rest =>
      ((visitParent hits fed seen parent).1 ++
          (visitFed (parent.id :: fed) (visitParent hits fed seen parent).2 rest).1,
        (visitFed (parent.id :: fed) (visitParent hits fed seen parent).2 rest).2)

end

theorem visitAll_extends {hits : Bool} {ps : List Policy}
    (h : ∀ p ∈ ps, ∀ seen, seen <+: (Policy.visit hits seen p).2) (seen : List Policy) :
    seen <+: (Policy.visitAll hits seen ps).2 := by
  induction ps generalizing seen with
  | nil => simp [Policy.visitAll]
  | cons p rest ih =>
      have ih := ih fun q hq => h q (List.mem_cons_of_mem p hq)
      rw [Policy.visitAll]
      split
      · exact ih seen
      · have hvisit := h p List.mem_cons_self seen
        exact (hvisit.trans (List.prefix_append _ _)).trans (ih _)

theorem visit_extends (hits : Bool) (p : Policy) (seen : List Policy) :
    seen <+: (Policy.visit hits seen p).2 := by
  induction p using Policy.induction generalizing seen with
  | mk data associated ih =>
      rw [Policy.visit]
      split
      · exact visitAll_extends ih seen
      · exact List.prefix_refl seen

theorem visitAll_covers (hits : Bool) (seen ps : List Policy) :
    ∀ q ∈ ps, q.id ∈ (Policy.visitAll hits seen ps).2.map Policy.id := by
  induction ps generalizing seen with
  | nil => simp
  | cons p rest ih =>
      intro q hq
      have hextends : ∀ seen', seen' <+: (Policy.visitAll hits seen' rest).2 :=
        fun seen' => visitAll_extends (fun p _ => visit_extends hits p) seen'
      rw [Policy.visitAll]
      split
      · rename_i hcontains
        simp only [Bool.and_eq_true, List.contains_iff_mem] at hcontains
        rcases List.mem_cons.mp hq with rfl | hq
        · exact ((hextends seen).map Policy.id).subset hcontains.2
        · exact ih seen q hq
      · rcases List.mem_cons.mp hq with rfl | hq
        · exact ((hextends _).map Policy.id).subset (by simp)
        · exact ih _ q hq

theorem visitAll_hits {hits : Bool} {ps : List Policy}
    (h : ∀ p ∈ ps, ∀ seen, ∀ r ∈ (Policy.visit hits seen p).1, hits = true)
    (seen : List Policy) : ∀ r ∈ (Policy.visitAll hits seen ps).1, hits = true := by
  induction ps generalizing seen with
  | nil => simp [Policy.visitAll]
  | cons p rest ih =>
      have ih := ih fun q hq => h q (List.mem_cons_of_mem p hq)
      rw [Policy.visitAll]
      intro r hr
      split at hr
      · rename_i hcontains
        simp only [Bool.and_eq_true] at hcontains
        exact hcontains.1
      · rcases List.mem_append.mp hr with hr | hr
        · exact h p List.mem_cons_self seen r hr
        · exact ih _ r hr

theorem visit_hits {hits : Bool} (p : Policy) (seen : List Policy) :
    ∀ r ∈ (Policy.visit hits seen p).1, hits = true := by
  induction p using Policy.induction generalizing seen with
  | mk data associated ih =>
      rw [Policy.visit]
      split
      · exact visitAll_hits ih seen
      · simp

theorem visitAll_replayed {hits : Bool} {ps : List Policy}
    (h : ∀ p ∈ ps, ∀ seen, ∀ r ∈ (Policy.visit hits seen p).1, r ∈ p.subpolicies)
    (seen : List Policy) :
    ∀ r ∈ (Policy.visitAll hits seen ps).1, ∃ p ∈ ps, r ∈ p.subpolicies := by
  induction ps generalizing seen with
  | nil => simp [Policy.visitAll]
  | cons p rest ih =>
      have ih := ih fun q hq => h q (List.mem_cons_of_mem p hq)
      have hrest : ∀ seen, ∀ r ∈ (Policy.visitAll hits seen rest).1,
          ∃ q ∈ p :: rest, r ∈ q.subpolicies := by
        intro seen r hr
        obtain ⟨q, hq, hrq⟩ := ih seen r hr
        exact ⟨q, List.mem_cons_of_mem p hq, hrq⟩
      rw [Policy.visitAll]
      intro r hr
      split at hr
      · rcases List.mem_cons.mp hr with rfl | hr
        · exact ⟨r, List.mem_cons_self, r.self_mem_subpolicies⟩
        · exact hrest seen r hr
      · rcases List.mem_append.mp hr with hr | hr
        · exact ⟨p, List.mem_cons_self, h p List.mem_cons_self seen r hr⟩
        · exact hrest _ r hr

theorem visit_replayed {hits : Bool} (p : Policy) (seen : List Policy) :
    ∀ r ∈ (Policy.visit hits seen p).1, r ∈ p.subpolicies := by
  induction p using Policy.induction generalizing seen with
  | mk data associated ih =>
      rw [Policy.visit]
      split
      · rename_i htype
        intro r hr
        exact Policy.mem_subpolicies.mpr (.inr ⟨htype, visitAll_replayed ih seen r hr⟩)
      · simp

/-- The policies whose cached effect is replayed when the permissions are fed. -/
def replayed (parents : List Policy) : List Policy := (visitFed true [] [] parents).1

theorem visitFed_replayed {hits : Bool} {ids : List String} {seen parents : List Policy}
    {r : Policy} (hr : r ∈ (visitFed hits ids seen parents).1) : Below (· ∈ parents) r := by
  induction parents generalizing ids seen with
  | nil => simp [visitFed] at hr
  | cons q rest ih =>
      rcases List.mem_append.mp hr with hr | hr
      · unfold visitParent at hr
        split at hr
        · simp at hr
        · exact ⟨q, List.mem_cons_self,
            visitAll_replayed (fun p _ seen => visit_replayed p seen) seen r hr⟩
      · obtain ⟨p, hp, hrest⟩ := ih hr
        exact ⟨p, List.mem_cons_of_mem q hp, hrest⟩

/-! ## Records -/

def PolicyResult.putAll (records : List (Policy × Effect)) (r : PolicyResult) : PolicyResult :=
  records.foldl (fun r record => r.put record.1.id record.2) r

/-- What a collector holds after the effects of several associated policies of one policy
have been recorded. -/
def recordAll (permission : ResourcePermission) (parent : Policy)
    (records : List (Policy × Effect)) (results : List (Nat × Result)) : List (Nat × Result) :=
  if records.isEmpty then results
  else recordIn permission parent (PolicyResult.putAll records) results

theorem Result.policy_policy (r : Result) (policy : Policy) (f g : PolicyResult → PolicyResult) :
    (r.policy policy g).policy policy f = r.policy policy fun found => f (g found) := by
  simp [Result.policy, LinkedMap.alter_alter]

theorem recordIn_recordIn (permission : ResourcePermission) (parent : Policy)
    (f g : PolicyResult → PolicyResult) (results : List (Nat × Result)) :
    recordIn permission parent f (recordIn permission parent g results) =
      recordIn permission parent (fun r => f (g r)) results := by
  simp [recordIn, LinkedMap.alter_alter, Result.policy_policy]

theorem PolicyResult.put_put (r : PolicyResult) (id : String) (x y : Effect) :
    (r.put id x).put id y = r.put id y := by
  simp [PolicyResult.put, LinkedMap.alter_alter]

theorem recordAll_cons (permission : ResourcePermission) (parent : Policy)
    (record : Policy × Effect) (rest : List (Policy × Effect)) (results : List (Nat × Result)) :
    recordAll permission parent (record :: rest) results =
      recordAll permission parent rest
        (recordIn permission parent (fun r => r.put record.1.id record.2) results) := by
  cases rest with
  | nil => rfl
  | cons next rest =>
      simp only [recordAll, List.isEmpty_cons, if_false, Bool.false_eq_true, recordIn_recordIn]
      rfl

theorem PolicyResult.putAll_policy (records : List (Policy × Effect)) (r : PolicyResult) :
    (r.putAll records).policy = r.policy := by
  induction records generalizing r with
  | nil => rfl
  | cons record rest ih => exact ih (r.put record.1.id record.2)

theorem PolicyResult.putAll_append {records : List (Policy × Effect)} {r : PolicyResult}
    (hnodup : (LinkedMap.keys r.associatedPolicies ++ records.map (·.1.id)).Nodup) :
    (r.putAll records).associatedPolicies =
      r.associatedPolicies ++ records.map fun record => (record.1.id, record.2) := by
  induction records generalizing r with
  | nil => simp [PolicyResult.putAll]
  | cons record rest ih =>
      have hnew : record.1.id ∉ LinkedMap.keys r.associatedPolicies := by
        intro hmem
        exact (List.nodup_append.mp hnodup).2.2 _ hmem _ (by simp) rfl
      have hput : (r.put record.1.id record.2).associatedPolicies =
          r.associatedPolicies ++ [(record.1.id, record.2)] :=
        LinkedMap.alter_of_not_mem hnew _
      have hrest := ih (r := r.put record.1.id record.2) (by
        rw [hput]
        simpa [List.append_assoc] using hnodup)
      rw [hput] at hrest
      simpa [PolicyResult.putAll] using hrest

theorem PolicyResult.putAll_eq_self {records : List (Policy × Effect)} {r : PolicyResult}
    (h : ∀ record ∈ records, r.associatedPolicies.lookup record.1.id = some record.2) :
    r.putAll records = r := by
  induction records with
  | nil => rfl
  | cons record rest ih =>
      have hself : r.put record.1.id record.2 = r := by
        unfold PolicyResult.put
        rw [LinkedMap.alter_eq_self (h record List.mem_cons_self) rfl]
      have hrest := ih fun other hother => h other (List.mem_cons_of_mem record hother)
      simpa [PolicyResult.putAll, hself] using hrest

theorem PolicyResult.lookup_putAll {records : List (Policy × Effect)} {r : PolicyResult}
    (hnodup : (records.map (·.1.id)).Nodup) {record : Policy × Effect}
    (hmem : record ∈ records) :
    (r.putAll records).associatedPolicies.lookup record.1.id = some record.2 := by
  induction records generalizing r with
  | nil => simp at hmem
  | cons first rest ih =>
      simp only [List.map_cons, List.nodup_cons] at hnodup
      rcases List.mem_cons.mp hmem with rfl | hrest
      · have hkeep : ∀ (rs : List (Policy × Effect)) (r' : PolicyResult),
            record.1.id ∉ rs.map (·.1.id) →
              (r'.putAll rs).associatedPolicies.lookup record.1.id =
                r'.associatedPolicies.lookup record.1.id := by
          intro rs
          induction rs with
          | nil => intro r' _; rfl
          | cons other rs ihrs =>
              intro r' hnot
              simp only [List.map_cons, List.mem_cons, not_or] at hnot
              have hother := ihrs (r'.put other.1.id other.2) hnot.2
              simp only [PolicyResult.putAll, List.foldl_cons] at hother ⊢
              rw [hother]
              exact LinkedMap.lookup_alter_of_ne hnot.1 _ _
        have hfirst := hkeep rest (r.put record.1.id record.2) hnodup.1
        simp only [PolicyResult.putAll, List.foldl_cons] at hfirst ⊢
        rw [hfirst]
        exact LinkedMap.lookup_alter_self _ _ _
      · exact ih (r := r.put first.1.id first.2) hnodup.2 hrest

theorem nodup_of_fst {records : List (Policy × Effect)} {ps : List Policy}
    (hfst : records.map Prod.fst = ps) (hnodup : (ps.map Policy.id).Nodup) :
    (records.map (·.1.id)).Nodup := by
  have hids : records.map (·.1.id) = (records.map Prod.fst).map Policy.id := by simp
  rw [hids, hfst]
  exact hnodup

/-! ## Single decisions -/

section

variable {e : DefaultEvaluation} {p : Policy}

theorem decide_eq (hp : e.policy = some p) (hne : e.parentPolicy.id ≠ p.id) (x : Effect)
    (s : State) :
    e.decide x s =
      some ({ e with effect := some x },
        s.record e.permission e.parentPolicy fun r => r.put p.id x) := by
  simp [DefaultEvaluation.decide, onDecision, DefaultEvaluation.getPolicy, hp, hne]

theorem logic_eq (hp : e.policy = some p) : e.logic = p.logic := by
  simp [DefaultEvaluation.logic, hp]

theorem setEffect_eq (hp : e.policy = some p) (hne : e.parentPolicy.id ≠ p.id) (x : Effect)
    (s : State) :
    setEffect x e s =
      some ({ e with effect := some (p.logic.apply x) },
        s.record e.permission e.parentPolicy fun r => r.put p.id (p.logic.apply x)) := by
  cases x with
  | permit => rw [setEffect, grant, logic_eq hp, decide_eq hp hne]
  | deny => rw [setEffect, deny, logic_eq hp, decide_eq hp hne]

theorem runCalls_spec (hp : e.policy = some p) (hne : e.parentPolicy.id ≠ p.id)
    (calls : List Call) (s : State) :
    ∃ s', runCalls calls e s =
        some ({ e with effect := ((lastDecision calls).map p.logic.apply).or e.effect }, s') ∧
      s'.cache = s.cache ∧ s'.decided = s.decided ∧
      s'.claims = Function.update s.claims e.permission.identity
        (addCalls calls (s.claims e.permission.identity)) ∧
      s'.results = (match lastDecision calls with
        | none => s.results
        | some x => recordIn e.permission e.parentPolicy
            (fun r => r.put p.id (p.logic.apply x)) s.results) := by
  induction calls generalizing e s with
  | nil => exact ⟨s, rfl, rfl, rfl, by simp [addCalls], rfl⟩
  | cons call rest ih =>
      have hdecide : ∀ x, ∃ s', runCalls rest { e with effect := some (p.logic.apply x) }
            (s.record e.permission e.parentPolicy fun r => r.put p.id (p.logic.apply x)) =
          some ({ e with
            effect := (((lastDecision rest).or (some x)).map p.logic.apply).or e.effect }, s') ∧
          s'.cache = s.cache ∧ s'.decided = s.decided ∧
          s'.claims = Function.update s.claims e.permission.identity
            (addCalls rest (s.claims e.permission.identity)) ∧
          s'.results = (match (lastDecision rest).or (some x) with
            | none => s.results
            | some x => recordIn e.permission e.parentPolicy
                (fun r => r.put p.id (p.logic.apply x)) s.results) := by
        intro x
        obtain ⟨s', hrun, hcache, hdecided, hclaims, hresults⟩ :=
          ih (e := { e with effect := some (p.logic.apply x) }) hp hne
            (s.record e.permission e.parentPolicy fun r => r.put p.id (p.logic.apply x))
        refine ⟨s', ?_, hcache, hdecided, hclaims, ?_⟩
        · rw [hrun]
          cases lastDecision rest <;> simp
        · rw [hresults]
          cases lastDecision rest with
          | none => rfl
          | some y => simp [State.record, recordIn_recordIn, PolicyResult.put_put]
      cases call with
      | grant =>
          have hstep : runCall .grant e s = some ({ e with effect := some (p.logic.apply .permit) },
              s.record e.permission e.parentPolicy
                fun r => r.put p.id (p.logic.apply .permit)) := by
            rw [runCall, grant, logic_eq hp, decide_eq hp hne]
          simpa only [runCalls, hstep, Option.bind_some, lastDecision, addCalls] using
            hdecide .permit
      | deny =>
          have hstep : runCall .deny e s = some ({ e with effect := some (p.logic.apply .deny) },
              s.record e.permission e.parentPolicy
                fun r => r.put p.id (p.logic.apply .deny)) := by
            rw [runCall, deny, logic_eq hp, decide_eq hp hne]
          simpa only [runCalls, hstep, Option.bind_some, lastDecision, addCalls] using
            hdecide .deny
      | addClaim name value =>
          obtain ⟨s', hrun, hcache, hdecided, hclaims, hresults⟩ := ih hp hne
            { s with
              claims := Function.update s.claims e.permission.identity
                ((s.claims e.permission.identity).addClaim name value) }
          refine ⟨s', ?_, hcache, hdecided, ?_, hresults⟩
          · simpa only [runCalls, runCall, Option.bind_some, lastDecision] using hrun
          · rw [hclaims]
            simp [addCalls]

theorem runCalls_denyIfNoEffect (hp : e.policy = some p) (hne : e.parentPolicy.id ≠ p.id)
    (hnone : e.effect = none) (calls : List Call) (s : State) :
    ∃ e₁ s₁ s', runCalls calls e s = some (e₁, s₁) ∧
      denyIfNoEffect e₁ s₁ = some ({ e with
        effect := some (p.logic.apply ((lastDecision calls).getD .deny)) }, s') ∧
      s'.cache = s.cache ∧ s'.decided = s.decided ∧
      s'.claims = Function.update s.claims e.permission.identity
        (addCalls calls (s.claims e.permission.identity)) ∧
      s'.results = recordIn e.permission e.parentPolicy
        (fun r => r.put p.id (p.logic.apply ((lastDecision calls).getD .deny))) s.results := by
  obtain ⟨s₁, hrun, hcache, hdecided, hclaims, hresults⟩ := runCalls_spec hp hne calls s
  cases hlast : lastDecision calls with
  | none =>
      simp only [hlast, hnone, Option.map_none, Option.none_or] at hrun hresults
      refine ⟨_, s₁, s₁.record e.permission e.parentPolicy
        (fun r => r.put p.id (p.logic.apply .deny)), hrun, ?_, hcache, hdecided, hclaims, ?_⟩
      · have hdeny := decide_eq (e := { e with effect := none }) hp hne (p.logic.apply .deny) s₁
        simp only [denyIfNoEffect, deny]
        rw [logic_eq (e := { e with effect := none }) hp, hdeny]
        rfl
      · simp [State.record, hresults]
  | some x =>
      simp only [hlast, Option.map_some, Option.some_or] at hrun hresults
      exact ⟨_, s₁, s₁, hrun, rfl, hcache, hdecided, hclaims, hresults⟩

end

/-! ## Runs -/

/-- What the evaluation of a policy for one permission may change: only entries of
policies below the permissions, only for that permission, and never an entry that a
lookup can return. -/
structure Frame (roots : Policy → Prop) (hits : Bool) (i : Nat) (s s' : State) : Prop where
  cache : ∀ id key, (key ≠ .permission i ∨ ∀ q, Below roots q → q.id ≠ id) →
    s'.cache id key = s.cache id key
  kept : hits = true → ∀ id x, s.cache id (.permission i) = some x →
    s'.cache id (.permission i) = some x
  decided : ∃ more, s'.decided = s.decided ++ more
  claims : ∀ j, j ≠ i → s'.claims j = s.claims j

namespace Frame

variable {roots : Policy → Prop} {hits : Bool} {i : Nat} {s s' s'' : State}

theorem of_eq (hcache : s'.cache = s.cache) (hdecided : ∃ more, s'.decided = s.decided ++ more)
    (hclaims : ∀ j, j ≠ i → s'.claims j = s.claims j) : Frame roots hits i s s' where
  cache _ _ _ := by rw [hcache]
  kept _ _ _ hx := by rw [hcache, hx]
  decided := hdecided
  claims := hclaims

theorem refl (s : State) : Frame roots hits i s s :=
  of_eq rfl ⟨[], by simp⟩ fun _ _ => rfl

theorem trans (h : Frame roots hits i s s') (h' : Frame roots hits i s' s'') :
    Frame roots hits i s s'' where
  cache id key hkey := by rw [h'.cache id key hkey, h.cache id key hkey]
  kept hhits id x hx := h'.kept hhits id x (h.kept hhits id x hx)
  decided := by
    obtain ⟨more, hmore⟩ := h.decided
    obtain ⟨more', hmore'⟩ := h'.decided
    exact ⟨more ++ more', by rw [hmore', hmore, List.append_assoc]⟩
  claims j hj := by rw [h'.claims j hj, h.claims j hj]

theorem record (s : State) (permission : ResourcePermission) (parent : Policy)
    (f : PolicyResult → PolicyResult) :
    Frame roots hits i s (s.record permission parent f) :=
  of_eq rfl ⟨[], by simp [State.record]⟩ fun _ _ => rfl

theorem put (h : Frame roots hits i s s') {p : Policy} (hp : Below roots p)
    (x : Option Effect) (hmiss : hits = true → s.cache p.id (.permission i) = none) :
    Frame roots hits i s (s'.put p.id (.permission i) x) where
  cache id key hkey := by
    by_cases hid : id = p.id
    · subst hid
      have hne : key ≠ .permission i := by
        rcases hkey with hne | hnot
        · exact hne
        · exact (hnot p hp rfl).elim
      have hold := h.cache p.id key (.inl hne)
      simpa [State.put, Function.update_of_ne hne] using hold
    · have hold := h.cache id key hkey
      simpa [State.put, Function.update_of_ne hid] using hold
  kept hhits id y hy := by
    have hid : id ≠ p.id := by
      rintro rfl
      rw [hmiss hhits] at hy
      cases hy
    have hold := h.kept hhits id y hy
    simpa [State.put, Function.update_of_ne hid] using hold
  decided := h.decided
  claims := h.claims

end Frame

def RecordsIn (i : Nat) (results : List (Nat × Result)) (parent id : String) (x : Effect) :
    Prop :=
  ∃ r found, results.lookup i = some r ∧ r.results.lookup parent = some found ∧
    found.associatedPolicies.lookup id = some x

section

variable (provider : Provider) (hits : Bool) (permission : ResourcePermission)
variable (roots : Policy → Prop)

/-- The collector of an aggregated policy whose associated policies have their own
effects. -/
def collectorOf (a : Policy) : List (Nat × Result) :=
  recordAll permission a
    (a.associatedPolicies.map fun p => (p, p.effect provider permission)) []

/-- A state in which exactly the policies `seen` have been evaluated, each with its own
effect. -/
structure Good (start : State) (seen : List Policy) (s : State) : Prop where
  below : ∀ q ∈ seen, Below roots q
  cached : hits = true → ∀ q, Below roots q →
    s.cache q.id (.permission permission.identity) =
      if q.id ∈ seen.map Policy.id then some (q.effect provider permission) else none
  claims : s.claims permission.identity =
    claimsAfter provider permission (start.claims permission.identity) seen
  logged : ∀ p ∈ seen, ∀ a ∈ p.subpolicies, a.type = .aggregate →
    collectorOf provider permission a ∈ s.decided
  decided : ∀ c ∈ s.decided, c ∈ start.decided ∨
    ∃ a, Below roots a ∧ a.type = .aggregate ∧ c = collectorOf provider permission a

/-- The collector of an aggregated policy holds an effect that is not the policy's own. -/
def BadLog (s : State) : Prop :=
  ∃ c ∈ s.decided, ∃ parent p x, Below roots p ∧
    RecordsIn permission.identity c parent p.id x ∧ x ≠ p.effect provider permission

def EvaluateSpec (p : Policy) : Prop :=
  ∀ (e : DefaultEvaluation) (s : State), e.permission = permission → e.policy = some p →
    e.effect = none → e.parentPolicy.id ≠ p.id →
    ∃ e₁ s₁ x s', evaluate provider hits p e s = some (e₁, s₁) ∧
      denyIfNoEffect e₁ s₁ = some ({ e with effect := some x }, s') ∧
      s'.results = recordIn permission e.parentPolicy (fun r => r.put p.id x) s.results ∧
      Frame roots hits permission.identity s s' ∧
      ∀ start seen, Good provider hits permission roots start seen s →
        ((∀ r ∈ (p.visit hits seen).1, r.logic = .positive) ∧
          x = p.effect provider permission ∧
          Good provider hits permission roots start ((p.visit hits seen).2 ++ [p])
            (s'.put p.id (.permission permission.identity) (some x))) ∨
        ((∃ r ∈ (p.visit hits seen).1, r.logic = .negative) ∧
          BadLog provider permission roots s')

/-- What the loop over the associated policies `ps` of `parent` does, with the effects
that it records for them. -/
structure LoopSpec (parent : Policy) (ps : List Policy) (records : List (Policy × Effect))
    (s s' : State) : Prop where
  policies : records.map Prod.fst = ps
  results : s'.results = recordAll permission parent records s.results
  frame : Frame roots hits permission.identity s s'
  replays : hits = true → ∀ record ∈ records, ∀ x,
    s.cache record.1.id (.permission permission.identity) = some x →
      record.2 = record.1.logic.apply x
  decides : ∀ start seen, Good provider hits permission roots start seen s →
    ((∀ r ∈ (Policy.visitAll hits seen ps).1, r.logic = .positive) ∧
      records = ps.map (fun p => (p, p.effect provider permission)) ∧
      Good provider hits permission roots start (Policy.visitAll hits seen ps).2 s') ∨
    ((∃ r ∈ (Policy.visitAll hits seen ps).1, r.logic = .negative) ∧
      (BadLog provider permission roots s' ∨
        ∃ record ∈ records, record.1.logic = .negative ∧
          record.2 = record.1.logic.apply (record.1.effect provider permission) ∧
          s'.cache record.1.id (.permission permission.identity) =
            some (record.1.effect provider permission)))

end

section

variable {provider : Provider} {hits : Bool} {permission : ResourcePermission}
variable {roots : Policy → Prop}

theorem BadLog.frame {s s' : State} {i : Nat} (h : BadLog provider permission roots s)
    (hframe : Frame roots hits i s s') : BadLog provider permission roots s' := by
  obtain ⟨c, hc, hbad⟩ := h
  obtain ⟨more, hmore⟩ := hframe.decided
  exact ⟨c, by simp [hmore, hc], hbad⟩

theorem Good.put (g : PolicyGraph roots) {start s s' : State} {seen : List Policy} {p : Policy}
    (h : Good provider hits permission roots start seen s) (hp : Below roots p)
    (hcache : s'.cache = s.cache)
    (hclaims : s'.claims permission.identity =
      claimsAfter provider permission (s.claims permission.identity) [p])
    (hlogged : ∀ a ∈ p.subpolicies, a.type = .aggregate →
      collectorOf provider permission a ∈ s'.decided)
    (hdecided : ∀ c ∈ s'.decided, c ∈ s.decided ∨
      (p.type = .aggregate ∧ c = collectorOf provider permission p))
    (hkept : ∀ c ∈ s.decided, c ∈ s'.decided) :
    Good provider hits permission roots start (seen ++ [p])
      (s'.put p.id (.permission permission.identity)
        (some (p.effect provider permission))) where
  below q hq := by
    rcases List.mem_append.mp hq with hold | hnew
    · exact h.below q hold
    · rw [List.mem_singleton.mp hnew]
      exact hp
  cached hhits q hq := by
    by_cases hid : q.id = p.id
    · have heq : q = p := g.below_unique hq hp hid
      subst heq
      simp [State.put]
    · have hold := h.cached hhits q hq
      simp only [State.put, Function.update_of_ne hid, hcache, hold]
      simp [hid]
  claims := by
    have hold := h.claims
    simp only [State.put, hclaims, hold, claimsAfter, List.foldl_append]
  logged q hq a ha htype := by
    rcases List.mem_append.mp hq with hold | hnew
    · exact hkept _ (h.logged q hold a ha htype)
    · rw [List.mem_singleton.mp hnew] at ha
      exact hlogged a ha htype
  decided c hc := by
    rcases hdecided c hc with hold | ⟨htype, heq⟩
    · exact h.decided c hold
    · exact .inr ⟨p, hp, htype, heq⟩

theorem Good.record {start s : State} {seen : List Policy}
    (h : Good provider hits permission roots start seen s) (parent : Policy)
    (f : PolicyResult → PolicyResult) :
    Good provider hits permission roots start seen (s.record permission parent f) :=
  ⟨h.below, h.cached, h.claims, h.logged, h.decided⟩

theorem Logic.apply_negative_ne (x : Effect) : Logic.negative.apply x ≠ x := by
  cases x <;> decide

theorem lookup_eq_some {s : State} {id : String} {key : CacheKey} {x : Effect} :
    s.lookup hits id key = some x ↔ hits = true ∧ s.cache id key = some x := by
  cases hits <;> simp [State.lookup]

theorem lookup_eq_none {s : State} {id : String} {key : CacheKey} :
    s.lookup hits id key = none ↔ (hits = true → s.cache id key = none) := by
  cases hits <;> simp [State.lookup]

theorem LoopSpec.nil (parent : Policy) (s : State) :
    LoopSpec provider hits permission roots parent [] [] s s where
  policies := rfl
  results := rfl
  frame := .refl s
  replays := by simp
  decides start seen hgood :=
    .inl ⟨by simp [Policy.visitAll], rfl, by simpa [Policy.visitAll] using hgood⟩

/-- In a good state the cache answers for exactly the policies that have been evaluated,
with their own effects. -/
theorem Good.cache_eq_some {start s : State} {seen : List Policy}
    (h : Good provider hits permission roots start seen s) (hhits : hits = true) {p : Policy}
    (hp : Below roots p) {x : Effect} :
    s.cache p.id (.permission permission.identity) = some x ↔
      p.id ∈ seen.map Policy.id ∧ x = p.effect provider permission := by
  rw [h.cached hhits p hp]
  split
  · rename_i hmem
    simp [hmem, eq_comm]
  · rename_i hnot
    simp [hnot]

theorem LoopSpec.replay {parent p : Policy} {rest : List Policy}
    {records : List (Policy × Effect)} {s s' : State} {x : Effect} (hp : Below roots p)
    (hhits : hits = true) (hcache : s.cache p.id (.permission permission.identity) = some x)
    (h : LoopSpec provider hits permission roots parent rest records
      (s.record permission parent fun r => r.put p.id (p.logic.apply x)) s') :
    LoopSpec provider hits permission roots parent (p :: rest)
      ((p, p.logic.apply x) :: records) s s' where
  policies := by simp [h.policies]
  results := by
    rw [recordAll_cons, h.results]
    rfl
  frame := (Frame.record s permission parent _).trans h.frame
  replays _ record hrecord y hy := by
    rcases List.mem_cons.mp hrecord with rfl | hmem
    · rw [hcache] at hy
      cases hy
      rfl
    · exact h.replays hhits record hmem y hy
  decides start seen hseen := by
    obtain ⟨hmem, rfl⟩ := (hseen.cache_eq_some hhits hp).mp hcache
    rw [Policy.visitAll, if_pos (by simp [hhits, hmem])]
    cases hlogic : p.logic with
    | negative =>
        refine .inr ⟨⟨p, List.mem_cons_self, hlogic⟩,
          .inr ⟨(p, p.logic.apply (p.effect provider permission)), by simp [hlogic], hlogic,
            rfl, ?_⟩⟩
        exact h.frame.kept hhits p.id _ hcache
    | positive =>
        rcases h.decides start seen (hseen.record parent _) with
          ⟨hpos, hrecords, hgood⟩ | ⟨⟨r, hr, hneg⟩, hbad⟩
        · refine .inl ⟨?_, by rw [hrecords]; rfl, hgood⟩
          intro r hr
          rcases List.mem_cons.mp hr with rfl | hr
          · exact hlogic
          · exact hpos r hr
        · refine .inr ⟨⟨r, List.mem_cons_of_mem p hr, hneg⟩, ?_⟩
          rcases hbad with hlog | ⟨record, hrecord, hrest⟩
          · exact .inl hlog
          · exact .inr ⟨record, List.mem_cons_of_mem _ hrecord, hrest⟩

theorem LoopSpec.evaluate {parent p : Policy} {rest : List Policy}
    {records : List (Policy × Effect)} {s s₁ s' : State} {x : Effect} (hp : Below roots p)
    (hmiss : hits = true → s.cache p.id (.permission permission.identity) = none)
    (hresults : s₁.results = recordIn permission parent (fun r => r.put p.id x) s.results)
    (hframe : Frame roots hits permission.identity s s₁)
    (hdecide : ∀ start seen, Good provider hits permission roots start seen s →
      ((∀ r ∈ (p.visit hits seen).1, r.logic = .positive) ∧
        x = p.effect provider permission ∧
        Good provider hits permission roots start ((p.visit hits seen).2 ++ [p])
          (s₁.put p.id (.permission permission.identity) (some x))) ∨
      ((∃ r ∈ (p.visit hits seen).1, r.logic = .negative) ∧
        BadLog provider permission roots s₁))
    (h : LoopSpec provider hits permission roots parent rest records
      (s₁.put p.id (.permission permission.identity) (some x)) s') :
    LoopSpec provider hits permission roots parent (p :: rest) ((p, x) :: records) s s' where
  policies := by simp [h.policies]
  results := by
    rw [recordAll_cons, h.results, ← hresults]
    rfl
  frame := (hframe.put hp (some x) hmiss).trans h.frame
  replays hhits record hrecord y hy := by
    rcases List.mem_cons.mp hrecord with rfl | hmem
    · rw [hmiss hhits] at hy
      cases hy
    · exact h.replays hhits record hmem y ((hframe.put hp (some x) hmiss).kept hhits _ _ hy)
  decides start seen hseen := by
    have hnot : ¬ ((hits && (seen.map Policy.id).contains p.id) = true) := by
      intro hcontains
      simp only [Bool.and_eq_true, List.contains_iff_mem] at hcontains
      have hcache := (hseen.cache_eq_some hcontains.1 hp).mpr ⟨hcontains.2, rfl⟩
      rw [hmiss hcontains.1] at hcache
      cases hcache
    rw [Policy.visitAll, if_neg hnot]
    rcases hdecide start seen hseen with ⟨hpos, hx, hgood⟩ | ⟨⟨r, hr, hneg⟩, hbad⟩
    · rcases h.decides start _ hgood with ⟨hpos', hrecords, hgood'⟩ | ⟨⟨r, hr, hneg⟩, hbad⟩
      · refine .inl ⟨?_, by rw [hrecords, hx]; rfl, hgood'⟩
        intro r hr
        rcases List.mem_append.mp hr with hr | hr
        · exact hpos r hr
        · exact hpos' r hr
      · refine .inr ⟨⟨r, List.mem_append_right _ hr, hneg⟩, ?_⟩
        rcases hbad with hlog | ⟨record, hrecord, hrest⟩
        · exact .inl hlog
        · exact .inr ⟨record, List.mem_cons_of_mem _ hrecord, hrest⟩
    · refine .inr ⟨⟨r, List.mem_append_left _ hr, hneg⟩, .inl ?_⟩
      have hput : BadLog provider permission roots
          (s₁.put p.id (.permission permission.identity) (some x)) := hbad
      exact hput.frame h.frame

theorem evaluateAggregated_spec {parent : Policy} {ps : List Policy}
    (hbelow : ∀ p ∈ ps, Below roots p)
    (hspec : ∀ p ∈ ps, EvaluateSpec provider hits permission roots p)
    (hne : ∀ p ∈ ps, parent.id ≠ p.id) (s : State) :
    ∃ records s', evaluateAggregated provider hits parent permission ps s = some s' ∧
      LoopSpec provider hits permission roots parent ps records s s' := by
  induction ps generalizing s with
  | nil => exact ⟨[], s, rfl, .nil parent s⟩
  | cons p rest ih =>
      have hp := hbelow p List.mem_cons_self
      have hpne := hne p List.mem_cons_self
      have ih := ih (fun q hq => hbelow q (List.mem_cons_of_mem p hq))
        (fun q hq => hspec q (List.mem_cons_of_mem p hq))
        (fun q hq => hne q (List.mem_cons_of_mem p hq))
      cases hlookup : s.lookup hits p.id (.permission permission.identity) with
      | some x =>
          obtain ⟨hhits, hcache⟩ := lookup_eq_some.mp hlookup
          have hset := setEffect_eq (e := ⟨permission, parent, some p, none⟩) rfl hpne x s
          obtain ⟨records, s', hrun, hloop⟩ := ih
            (s.record permission parent fun r => r.put p.id (p.logic.apply x))
          refine ⟨_, s', ?_, hloop.replay hp hhits hcache⟩
          simp only [evaluateAggregated, hlookup, hset, Option.bind_some]
          exact hrun
      | none =>
          have hmiss := lookup_eq_none.mp hlookup
          obtain ⟨e₁, s₁, x, s₂, hevaluate, hdeny, hput, hframe, hdecide⟩ :=
            hspec p List.mem_cons_self ⟨permission, parent, some p, none⟩ s rfl rfl rfl hpne
          obtain ⟨records, s', hrun, hloop⟩ := ih
            (s₂.put p.id (.permission permission.identity) (some x))
          refine ⟨_, s', ?_, hloop.evaluate hp hmiss hput hframe hdecide⟩
          simp only [evaluateAggregated, hlookup, hevaluate, hdeny, Option.bind_some]
          exact hrun

theorem type_of_below (g : PolicyGraph roots) {p : Policy} (hp : Below roots p) :
    p.type = .aggregate ∨ ∃ type, p.type = .other type := by
  have hnot := g.policy p hp
  simp only [Policy.IsPermission, not_or] at hnot
  cases htype : p.type with
  | resource => exact (hnot.1 htype).elim
  | scope => exact (hnot.2.1 htype).elim
  | uma => exact (hnot.2.2 htype).elim
  | aggregate => exact .inl rfl
  | other type => exact .inr ⟨type, rfl⟩

theorem evaluate_other_spec (g : PolicyGraph roots) {data : PolicyData}
    {associated : List Policy} {type : String} (htype : data.type = .other type)
    (hp : Below roots (.mk data associated)) :
    EvaluateSpec provider hits permission roots (.mk data associated) := by
  intro e s hpermission hpolicy heffect hne
  subst hpermission
  obtain ⟨e₁, s₁, s', hrun, hdeny, hcache, hdecided, hclaims, hresults⟩ :=
    runCalls_denyIfNoEffect hpolicy hne heffect (provider (.mk data associated) e.permission) s
  refine ⟨e₁, s₁, _, s', ?_, hdeny, hresults, ?_, ?_⟩
  · simpa only [evaluate, htype] using hrun
  · refine .of_eq hcache ⟨[], by simp [hdecided]⟩ fun j hj => ?_
    rw [hclaims, Function.update_of_ne hj]
  · intro start seen hgood
    have hvisit : Policy.visit hits seen (.mk data associated) = ([], seen) := by
      simp [Policy.visit, htype]
    have heff : (Policy.mk data associated).effect provider e.permission =
        data.logic.apply
          ((lastDecision (provider (.mk data associated) e.permission)).getD .deny) := by
      simp [Policy.effect, htype]
    have hlogged : ∀ a ∈ (Policy.mk data associated).subpolicies, a.type = .aggregate →
        collectorOf provider e.permission a ∈ s'.decided := by
      intro a ha haggregate
      have heq : a = .mk data associated := by simpa [Policy.subpolicies, htype] using ha
      rw [heq] at haggregate
      simp [Policy.type, Policy.data, htype] at haggregate
    have hclaims' : s'.claims e.permission.identity =
        claimsAfter provider e.permission (s.claims e.permission.identity)
          [.mk data associated] := by
      have htype' : (Policy.mk data associated).type ≠ .aggregate := by
        simp [Policy.type, Policy.data, htype]
      rw [hclaims, Function.update_self]
      simp [claimsAfter, htype']
    refine .inl ⟨by simp [hvisit], heff.symm, ?_⟩
    have hput := hgood.put g hp hcache hclaims' hlogged
      (fun c hc => .inl (hdecided ▸ hc)) (fun c hc => hdecided ▸ hc)
    rw [hvisit]
    rwa [heff] at hput

theorem recordAll_nil {a : Policy} {records : List (Policy × Effect)} (hne : records ≠ []) :
    recordAll permission a records [] =
      [(permission.identity,
        ⟨permission, [(a.id, (PolicyResult.ofPolicy a).putAll records)], .deny⟩)] := by
  cases records with
  | nil => exact (hne rfl).elim
  | cons record rest => rfl

theorem putAll_ofPolicy {a : Policy} {records : List (Policy × Effect)}
    (hnodup : (records.map (·.1.id)).Nodup) :
    (PolicyResult.ofPolicy a).putAll records =
      ⟨a, records.map fun record => (record.1.id, record.2)⟩ := by
  have hpolicy := PolicyResult.putAll_policy records (PolicyResult.ofPolicy a)
  have hassociated := PolicyResult.putAll_append (r := PolicyResult.ofPolicy a) (by
    simpa [PolicyResult.ofPolicy, LinkedMap.keys] using hnodup)
  cases hresult : (PolicyResult.ofPolicy a).putAll records with
  | mk policy associatedPolicies =>
      rw [hresult] at hpolicy hassociated
      simp only at hpolicy hassociated
      subst hpolicy hassociated
      simp [PolicyResult.ofPolicy]

theorem recordsIn_recordAll {a : Policy} {records : List (Policy × Effect)}
    (hnodup : (records.map (·.1.id)).Nodup) {record : Policy × Effect}
    (hmem : record ∈ records) :
    RecordsIn permission.identity (recordAll permission a records []) a.id record.1.id
      record.2 := by
  have hne : records ≠ [] := List.ne_nil_of_mem hmem
  rw [recordAll_nil hne]
  exact ⟨_, _, List.lookup_cons_self, List.lookup_cons_self,
    PolicyResult.lookup_putAll hnodup hmem⟩

/-- The state in which an aggregated policy decides, from the state that its own loop
leaves behind. -/
def outerState (s inner : State) : State :=
  { inner with results := s.results, decided := inner.decided ++ [inner.results] }

def aggregateVerdict (a : Policy) (records : List (Policy × Effect)) : Effect :=
  if records.isEmpty then .deny
  else if isGranted ((PolicyResult.ofPolicy a).putAll records) then .permit else .deny

theorem evaluate_aggregate_eq {data : PolicyData} {associated : List Policy}
    (htype : data.type = .aggregate) {e : DefaultEvaluation} {s inner : State}
    {records : List (Policy × Effect)} (hpolicy : e.policy = some (.mk data associated))
    (heffect : e.effect = none) (hne : e.parentPolicy.id ≠ data.id)
    (hloop : evaluateAggregated provider hits (.mk data associated) e.permission associated
      { s with results := [] } = some inner)
    (hresults : inner.results = recordAll e.permission (.mk data associated) records []) :
    ∃ e₁ s₁, evaluate provider hits (.mk data associated) e s = some (e₁, s₁) ∧
      denyIfNoEffect e₁ s₁ =
        some ({ e with
            effect := some (data.logic.apply (aggregateVerdict (.mk data associated) records)) },
          (outerState s inner).record e.permission e.parentPolicy fun r =>
            r.put data.id
              (data.logic.apply (aggregateVerdict (.mk data associated) records))) := by
  have hdecide : ∀ x, e.decide x (outerState s inner) =
      some ({ e with effect := some x },
        (outerState s inner).record e.permission e.parentPolicy fun r => r.put data.id x) :=
    fun x => decide_eq hpolicy hne x _
  have hlogic : e.logic = data.logic := logic_eq hpolicy
  by_cases hempty : records = []
  · subst hempty
    have hnil : inner.results = [] := hresults
    refine ⟨e, outerState s inner, ?_, ?_⟩
    · simp only [evaluate, htype, hloop, Option.bind_some, hnil, List.lookup_nil, outerState]
    · simp only [denyIfNoEffect, heffect, deny, hlogic, hdecide]
      rfl
  · rw [recordAll_nil hempty] at hresults
    have hlookup : inner.results.lookup e.permission.identity = some ⟨e.permission,
        [((Policy.mk data associated).id,
          (PolicyResult.ofPolicy (.mk data associated)).putAll records)], .deny⟩ := by
      rw [hresults, List.lookup_cons_self]
    have hverdict : aggregateVerdict (.mk data associated) records =
        if isGranted ((PolicyResult.ofPolicy (.mk data associated)).putAll records) then
          .permit else .deny := by
      simp [aggregateVerdict, hempty]
    rw [hverdict]
    simp only [evaluate, htype, hloop, Option.bind_some, hlookup]
    split
    · have hgrant := hdecide (data.logic.apply .permit)
      rw [← hlogic, ← grant] at hgrant
      rw [← hlogic]
      exact ⟨_, _, hgrant, rfl⟩
    · have hdeny := hdecide (data.logic.apply .deny)
      rw [← hlogic, ← deny] at hdeny
      rw [← hlogic]
      exact ⟨_, _, hdeny, rfl⟩

theorem aggregateVerdict_eq {data : PolicyData} {associated : List Policy}
    (htype : data.type = .aggregate) (hnodup : (associated.map Policy.id).Nodup) :
    data.logic.apply (aggregateVerdict (.mk data associated)
        (associated.map fun p => (p, p.effect provider permission))) =
      (Policy.mk data associated).effect provider permission := by
  have hputAll : (PolicyResult.ofPolicy (.mk data associated)).putAll
      (associated.map fun p => (p, p.effect provider permission)) =
        ⟨.mk data associated, Policy.effects provider permission associated⟩ := by
    have hids : ((associated.map fun p => (p, p.effect provider permission)).map
        (·.1.id)).Nodup := by
      simpa [Function.comp_def] using hnodup
    rw [putAll_ofPolicy hids, Policy.effects_eq]
    simp
  rw [aggregateVerdict, hputAll]
  simp only [Policy.effect, htype]
  cases associated with
  | nil => rfl
  | cons p rest =>
      simp only [List.map_cons, List.isEmpty_cons, Bool.false_eq_true, if_false]
      split <;> rfl

theorem evaluate_aggregate_spec (g : PolicyGraph roots) {data : PolicyData}
    {associated : List Policy} (htype : data.type = .aggregate)
    (hp : Below roots (.mk data associated))
    (hspec : ∀ p ∈ associated, EvaluateSpec provider hits permission roots p) :
    EvaluateSpec provider hits permission roots (.mk data associated) := by
  intro e s hpermission hpolicy heffect hne
  subst hpermission
  have hnodup : (associated.map Policy.id).Nodup := g.nodup _ (.inr hp)
  have hne' : ∀ p ∈ associated, (Policy.mk data associated).id ≠ p.id :=
    fun p hassoc => g.below_ne_associated hp htype hassoc
  obtain ⟨records, inner, hloop, hfst, hresults, hframe, -, hgood⟩ :=
    evaluateAggregated_spec (fun p hassoc => PolicyGraph.below_closed hp htype hassoc) hspec
      hne' { s with results := [] }
  obtain ⟨e₁, s₁, hevaluate, hdeny⟩ :=
    evaluate_aggregate_eq htype hpolicy heffect hne hloop hresults
  have hids : (records.map (·.1.id)).Nodup := nodup_of_fst hfst hnodup
  refine ⟨e₁, s₁, _, _, hevaluate, hdeny, rfl, ?_, fun start seen hseen => ?_⟩
  · refine ⟨hframe.cache, hframe.kept, ?_, hframe.claims⟩
    obtain ⟨more, hmore⟩ := hframe.decided
    exact ⟨more ++ [inner.results], by
      simp only [State.record, outerState, hmore, List.append_assoc]⟩
  · have hvisit : Policy.visit hits seen (.mk data associated) =
        Policy.visitAll hits seen associated := by
      simp [Policy.visit, htype]
    rw [hvisit]
    rcases hgood start seen ⟨hseen.below, hseen.cached, hseen.claims, hseen.logged,
      hseen.decided⟩ with ⟨hpos, hrecords, hinner⟩ | ⟨hneg, hbad⟩
    · have hx : data.logic.apply (aggregateVerdict (.mk data associated) records) =
          (Policy.mk data associated).effect provider e.permission := by
        rw [hrecords]
        exact aggregateVerdict_eq htype hnodup
      refine .inl ⟨hpos, hx, ?_⟩
      rw [hx]
      have hcollector : inner.results =
          collectorOf provider e.permission (.mk data associated) := by
        rw [hresults, hrecords]
        rfl
      refine hinner.put g hp rfl ?_ ?_ ?_ ?_
      · simp [State.record, outerState, claimsAfter, Policy.type, Policy.data, htype]
      · intro a ha haggregate
        rcases Policy.mem_subpolicies.mp ha with rfl | ⟨-, q, hq, hqa⟩
        · simp [State.record, outerState, hcollector]
        · -- the associated policy `q` has been evaluated, now or before
          obtain ⟨q', hq', hid⟩ := List.mem_map.mp (visitAll_covers hits seen associated q hq)
          have heq : q' = q :=
            g.below_unique (hinner.below q' hq') (PolicyGraph.below_closed hp htype hq) hid
          subst heq
          have hlogged := hinner.logged q' hq' a hqa haggregate
          simp [State.record, outerState, hlogged]
      · intro c hc
        rcases List.mem_append.mp hc with hc | hc
        · exact .inl hc
        · exact .inr ⟨htype, by rw [List.mem_singleton.mp hc, hcollector]⟩
      · intro c hc
        exact List.mem_append_left _ hc
    · refine .inr ⟨hneg, ?_⟩
      rcases hbad with ⟨c, hc, hbad⟩ | ⟨record, hrecord, hlogic, heff, -⟩
      · exact ⟨c, List.mem_append_left _ hc, hbad⟩
      · have hmem : record.1 ∈ associated := by
          have hmem' : record.1 ∈ records.map Prod.fst := List.mem_map_of_mem hrecord
          rwa [hfst] at hmem'
        refine ⟨inner.results, by simp [State.record, outerState], data.id, record.1, record.2,
          PolicyGraph.below_closed hp htype hmem, ?_, ?_⟩
        · rw [hresults]
          exact recordsIn_recordAll hids hrecord
        · rw [heff, hlogic]
          exact Logic.apply_negative_ne _

theorem evaluate_spec (g : PolicyGraph roots) {p : Policy} (hp : Below roots p) :
    EvaluateSpec provider hits permission roots p := by
  induction p using Policy.induction with
  | mk data associated ih =>
      rcases type_of_below g hp with htype | ⟨type, htype⟩
      · have hspec : ∀ q ∈ associated, EvaluateSpec provider hits permission roots q :=
          fun q hq => ih q hq (PolicyGraph.below_closed hp htype hq)
        exact evaluate_aggregate_spec g htype hp hspec
      · exact evaluate_other_spec g htype hp

end

end Keycloak.Authz
