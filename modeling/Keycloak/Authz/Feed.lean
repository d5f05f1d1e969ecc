import Keycloak.Authz.Decisions

/-!
# Feeding the permissions

The evaluator feeds the permissions that the policy store finds to their providers, one
after the other.  `resultOf` is the result that the collector then holds for the resource
permission when every associated policy is recorded with its own effect: one entry for
each permission with associated policies, in the order in which the permissions were first
fed.
-/

namespace Keycloak.Authz

section

variable (provider : Provider) (permission : ResourcePermission)

/-- The key under which a permission keeps its own effect. -/
def parentKey (q : Policy) : Option CacheKey :=
  match q.type with
  | .resource => some (.resource permission.resource)
  | .scope => some (.permission permission.identity)
  | _ => none

def entryOf (q : Policy) : String × PolicyResult :=
  (q.id, ⟨q, q.associatedPolicies.map fun p => (p.id, p.effect provider permission)⟩)

/-- A permission is entered when it is first fed, if it has associated policies. -/
def addEntry (entries : List (String × PolicyResult)) (q : Policy) :
    List (String × PolicyResult) :=
  if q.associatedPolicies.isEmpty || (LinkedMap.keys entries).contains q.id then entries
  else entries ++ [entryOf provider permission q]

def resultEntries (fed : List Policy) : List (String × PolicyResult) :=
  fed.foldl (addEntry provider permission) []

def resultOf (fed : List Policy) : Option Result :=
  if (resultEntries provider permission fed).isEmpty then none
  else some ⟨permission, resultEntries provider permission fed, .deny⟩

end

section

variable {provider : Provider} {permission : ResourcePermission}

theorem resultEntries_append (fed : List Policy) (q : Policy) :
    resultEntries provider permission (fed ++ [q]) =
      addEntry provider permission (resultEntries provider permission fed) q := by
  simp [resultEntries]

theorem mem_resultEntries {fed : List Policy} {entry : String × PolicyResult}
    (h : entry ∈ resultEntries provider permission fed) :
    ∃ q ∈ fed, q.associatedPolicies ≠ [] ∧ entry = entryOf provider permission q := by
  induction fed using List.reverseRecOn with
  | nil => simp [resultEntries] at h
  | append_singleton fed q ih =>
      rw [resultEntries_append, addEntry] at h
      split at h
      · obtain ⟨q', hq', hrest⟩ := ih h
        exact ⟨q', List.mem_append_left _ hq', hrest⟩
      · rename_i hnew
        rcases List.mem_append.mp h with h | h
        · obtain ⟨q', hq', hrest⟩ := ih h
          exact ⟨q', List.mem_append_left _ hq', hrest⟩
        · simp only [Bool.or_eq_true, not_or, List.isEmpty_iff] at hnew
          exact ⟨q, by simp, hnew.1, List.mem_singleton.mp h⟩

theorem resultEntries_covers {fed : List Policy} {q : Policy} (hq : q ∈ fed)
    (hne : q.associatedPolicies ≠ []) :
    q.id ∈ LinkedMap.keys (resultEntries provider permission fed) := by
  induction fed using List.reverseRecOn with
  | nil => simp at hq
  | append_singleton fed q' ih =>
      rw [resultEntries_append, addEntry]
      split
      · rename_i hold
        rcases List.mem_append.mp hq with hq | hq
        · exact ih hq
        · rw [List.mem_singleton.mp hq] at hne ⊢
          simpa [hne] using hold
      · rcases List.mem_append.mp hq with hq | hq
        · simp [ih hq]
        · rw [List.mem_singleton.mp hq]
          simp [entryOf]

theorem resultEntries_nodup (fed : List Policy) :
    (LinkedMap.keys (resultEntries provider permission fed)).Nodup := by
  induction fed using List.reverseRecOn with
  | nil => simp [resultEntries]
  | append_singleton fed q ih =>
      rw [resultEntries_append, addEntry]
      split
      · exact ih
      · rename_i hnew
        simp only [Bool.or_eq_true, not_or, List.contains_iff_mem] at hnew
        have hsingle : LinkedMap.keys [entryOf provider permission q] = [q.id] := rfl
        rw [LinkedMap.keys_append, hsingle]
        refine List.nodup_append.mpr ⟨ih, List.nodup_singleton _, ?_⟩
        rintro a ha b hb rfl
        exact hnew.2 (List.mem_singleton.mp hb ▸ ha)

end

/-! ## One permission -/

section

variable (provider : Provider) (hits : Bool) (permission : ResourcePermission)
variable (roots : Policy → Prop)

/-- What holds of the cache and the collector while `parents` are fed and `fed` have
been: a permission that can be replayed has an entry. -/
structure FeedInv (parents fed : List Policy) (s : State) : Prop where
  cached : hits = true → ∀ q ∈ parents, ∀ key, parentKey permission q = some key →
    ((s.cache q.id key).isSome ↔ q ∈ fed ∧ q.associatedPolicies ≠ [])
  recorded : ∀ q ∈ fed, q.associatedPolicies ≠ [] →
    ∃ r found, s.results.lookup permission.identity = some r ∧
      r.results.lookup q.id = some found

/-- The collector holds exactly the result of the permissions `fed`, and the policies of those
that were not replayed from the start have been evaluated. -/
structure FeedGood (start : State) (fed seen : List Policy) (s : State) : Prop where
  good : Good provider hits permission roots start seen s
  result : s.results.lookup permission.identity = resultOf provider permission fed
  covers : ∀ q ∈ fed, (∀ key, parentKey permission q = some key → start.cache q.id key = none) →
    ∀ p ∈ q.associatedPolicies, p.id ∈ seen.map Policy.id

/-- An effect that is not the policy's own has been recorded, and every later record for
the pair will be a replay of the same effect. -/
def Bad (s : State) : Prop :=
  BadLog provider permission roots s ∨
    ∃ q p, roots q ∧ p ∈ q.associatedPolicies ∧ p.logic = .negative ∧
      s.cache p.id (.permission permission.identity) = some (p.effect provider permission) ∧
      RecordsIn permission.identity s.results q.id p.id
        (p.logic.apply (p.effect provider permission))

end

structure FeedFrame (permission : ResourcePermission) (parents : List Policy) (s s' : State) :
    Prop where
  results : ∀ j, j ≠ permission.identity → s'.results.lookup j = s.results.lookup j
  permissions : ∀ id j, j ≠ permission.identity →
    s'.cache id (.permission j) = s.cache id (.permission j)
  resources : ∀ id r, (∀ q ∈ parents, q.type = .resource → q.associatedPolicies ≠ [] →
      q.id = id → permission.resource ≠ r) →
    s'.cache id (.resource r) = s.cache id (.resource r)
  claims : ∀ j, j ≠ permission.identity → s'.claims j = s.claims j
  /-- The result of the resource permission is the last one, if it is new. -/
  last : ∀ (front : List (Nat × Result)) (before : Option Result),
    permission.identity ∉ LinkedMap.keys front →
    s.results = front ++ (before.map (permission.identity, ·)).toList →
    ∃ after : Option Result,
      s'.results = front ++ (after.map (permission.identity, ·)).toList

namespace FeedFrame

variable {permission : ResourcePermission} {parents : List Policy} {s s' s'' : State}

theorem refl (s : State) : FeedFrame permission parents s s :=
  ⟨fun _ _ => rfl, fun _ _ _ => rfl, fun _ _ _ => rfl, fun _ _ => rfl,
    fun _ before _ h => ⟨before, h⟩⟩

theorem trans (h : FeedFrame permission parents s s')
    (h' : FeedFrame permission parents s' s'') : FeedFrame permission parents s s'' where
  results j hj := by rw [h'.results j hj, h.results j hj]
  permissions id j hj := by rw [h'.permissions id j hj, h.permissions id j hj]
  resources id r hr := by rw [h'.resources id r hr, h.resources id r hr]
  claims j hj := by rw [h'.claims j hj, h.claims j hj]
  last front before hnew hbefore := by
    obtain ⟨middle, hmiddle⟩ := h.last front before hnew hbefore
    exact h'.last front middle hnew hmiddle

end FeedFrame

structure FeedStep (provider : Provider) (hits : Bool) (permission : ResourcePermission)
    (roots : Policy → Prop) (parents fed : List Policy) (ids : List String) (q : Policy)
    (s s' : State) : Prop where
  inv : FeedInv hits permission parents (fed ++ [q]) s'
  frame : hits = true → FeedFrame permission parents s s'
  bad : hits = true → Bad provider permission roots s → Bad provider permission roots s'
  decides : ∀ start seen, FeedGood provider hits permission roots start fed seen s →
    ((∀ r ∈ (visitParent hits ids seen q).1, r.logic = .positive) ∧
      FeedGood provider hits permission roots start (fed ++ [q])
        (visitParent hits ids seen q).2 s') ∨
    (hits = true ∧ (∃ r ∈ (visitParent hits ids seen q).1, r.logic = .negative) ∧
      Bad provider permission roots s')

section

variable {provider : Provider} {hits : Bool} {permission : ResourcePermission}
variable {roots : Policy → Prop}

/-- The loop of the permission providers is that of the aggregated policies, with one
evaluation that moves along. -/
theorem evaluateAssociated_eq (g : PolicyGraph roots) {ps : List Policy}
    (hbelow : ∀ p ∈ ps, Below roots p) (e : DefaultEvaluation)
    (hpermission : e.permission = permission)
    (hne : ∀ p ∈ ps, e.parentPolicy.id ≠ p.id) (s : State) :
    ∃ e', evaluateAssociated provider hits ps e s =
        (evaluateAggregated provider hits e.parentPolicy permission ps s).map
          (fun s' => (e', s')) ∧
      e'.parentPolicy = e.parentPolicy ∧ (ps = [] → e' = e) ∧
      (ps ≠ [] → e'.effect.isSome) := by
  subst hpermission
  induction ps generalizing e s with
  | nil => exact ⟨e, rfl, rfl, fun _ => rfl, fun h => (h rfl).elim⟩
  | cons p rest ih =>
      have hp := hbelow p List.mem_cons_self
      have hpne := hne p List.mem_cons_self
      have hstep : ∀ x s₁, ∃ e', evaluateAssociated provider hits rest
            { e.setPolicy p with effect := some x } s₁ =
          (evaluateAggregated provider hits e.parentPolicy e.permission rest s₁).map
            (fun s' => (e', s')) ∧
          e'.parentPolicy = e.parentPolicy ∧ e'.effect.isSome := by
        intro x s₁
        obtain ⟨e', hrun, hparent, hnil, hcons⟩ :=
          ih (fun q hq => hbelow q (List.mem_cons_of_mem p hq))
            { e.setPolicy p with effect := some x }
            (fun q hq => hne q (List.mem_cons_of_mem p hq)) s₁
        refine ⟨e', hrun, hparent, ?_⟩
        by_cases hrest : rest = []
        · rw [hnil hrest]
          rfl
        · exact hcons hrest
      cases hlookup : s.lookup hits p.id (.permission e.permission.identity) with
      | some x =>
          have hset := setEffect_eq (e := e.setPolicy p) rfl hpne x s
          obtain ⟨e', hrun, hparent, hsome⟩ := hstep (p.logic.apply x)
            (s.record e.permission e.parentPolicy fun r => r.put p.id (p.logic.apply x))
          refine ⟨e', ?_, hparent, fun h => (List.cons_ne_nil _ _ h).elim, fun _ => hsome⟩
          have hset' : setEffect x ⟨e.permission, e.parentPolicy, some p, none⟩ s = _ := hset
          simp only [evaluateAssociated, evaluateAggregated, hlookup, hset, hset',
            Option.bind_some]
          exact hrun
      | none =>
          have hspec : EvaluateSpec provider hits e.permission roots p := evaluate_spec g hp
          obtain ⟨e₁, s₁, x, s₂, hevaluate, hdeny, -, -, -⟩ :=
            hspec (e.setPolicy p) s rfl rfl rfl hpne
          obtain ⟨e', hrun, hparent, hsome⟩ := hstep x
            (s₂.put p.id (.permission e.permission.identity) (some x))
          refine ⟨e', ?_, hparent, fun h => (List.cons_ne_nil _ _ h).elim, fun _ => hsome⟩
          have hevaluate' : evaluate provider hits p
              ⟨e.permission, e.parentPolicy, some p, none⟩ s = some (e₁, s₁) := hevaluate
          simp only [evaluateAssociated, evaluateAggregated, hlookup, hevaluate, hevaluate',
            hdeny, Option.bind_some]
          exact hrun

theorem evaluate_permission {q : Policy} (hq : q.IsPermission) (s : State) :
    evaluate provider hits q ⟨permission, q, none, none⟩ s =
      match parentKey permission q with
      | none => evaluateAssociated provider hits q.associatedPolicies
          ⟨permission, q, none, none⟩ s
      | some key =>
          match s.lookup hits q.id key with
          | some x => setEffect x ⟨permission, q, none, none⟩ s
          | none => (evaluateAssociated provider hits q.associatedPolicies
              ⟨permission, q, none, none⟩ s).map fun r =>
                (r.1, r.2.put r.1.parentPolicy.id key r.1.effect) := by
  cases q with
  | mk data associated =>
      rcases hq with htype | htype | htype
      · have htype' : data.type = .resource := htype
        simp only [evaluate, parentKey, Policy.type, Policy.data, htype']
        rfl
      · have htype' : data.type = .scope := htype
        simp only [evaluate, parentKey, Policy.type, Policy.data, htype']
        rfl
      · have htype' : data.type = .uma := htype
        simp only [evaluate, parentKey, Policy.type, Policy.data, htype']
        rfl

theorem lookup_recordIn_self (parent : Policy) (f : PolicyResult → PolicyResult)
    (results : List (Nat × Result)) :
    (recordIn permission parent f results).lookup permission.identity =
      some (((results.lookup permission.identity).getD
        (Result.ofPermission permission)).policy parent f) :=
  LinkedMap.lookup_alter_self _ _ _

theorem lookup_recordAll_of_ne {j : Nat} (hj : j ≠ permission.identity) (parent : Policy)
    (records : List (Policy × Effect)) (results : List (Nat × Result)) :
    (recordAll permission parent records results).lookup j = results.lookup j := by
  unfold recordAll
  split
  · rfl
  · exact LinkedMap.lookup_alter_of_ne hj _ _

theorem Result.lookup_policy_self (r : Result) (q : Policy) (f : PolicyResult → PolicyResult) :
    (r.policy q f).results.lookup q.id =
      some (f ((r.results.lookup q.id).getD (PolicyResult.ofPolicy q))) :=
  LinkedMap.lookup_alter_self _ _ _

theorem Result.lookup_policy_of_ne (r : Result) {q : Policy} {id : String} (hne : id ≠ q.id)
    (f : PolicyResult → PolicyResult) :
    (r.policy q f).results.lookup id = r.results.lookup id :=
  LinkedMap.lookup_alter_of_ne hne _ _

theorem Result.policy_eq_self {r : Result} {q : Policy} {found : PolicyResult}
    (h : r.results.lookup q.id = some found) {f : PolicyResult → PolicyResult}
    (hf : f found = found) : r.policy q f = r := by
  unfold Result.policy
  rw [LinkedMap.alter_eq_self h (by simpa using hf)]

theorem setEffect_parent {q : Policy} {s : State} {r : Result} {found : PolicyResult}
    (hr : s.results.lookup permission.identity = some r)
    (hfound : r.results.lookup q.id = some found) (x : Effect) :
    ∃ e', setEffect x ⟨permission, q, none, none⟩ s = some (e', s) := by
  have hrecord : s.record permission q (fun r => r) = s := by
    have hself : recordIn permission q (fun r => r) s.results = s.results :=
      LinkedMap.alter_eq_self hr (by simpa using Result.policy_eq_self hfound rfl)
    unfold State.record
    rw [hself]
  have hdecide : ∀ y, ∃ e', (⟨permission, q, none, none⟩ : DefaultEvaluation).decide y s =
      some (e', s) := by
    intro y
    refine ⟨⟨permission, q, none, some y⟩, ?_⟩
    simp [DefaultEvaluation.decide, onDecision, DefaultEvaluation.getPolicy, hr, hrecord]
  cases x with
  | permit => exact hdecide _
  | deny => exact hdecide _

variable (provider hits permission) in
theorem evaluateAssociated_spec (g : PolicyGraph roots) {q : Policy} (hq : roots q)
    (s : State) :
    ∃ records e' s',
      evaluateAssociated provider hits q.associatedPolicies ⟨permission, q, none, none⟩ s =
        some (e', s') ∧
      e'.parentPolicy = q ∧ (e'.effect.isSome ↔ q.associatedPolicies ≠ []) ∧
      LoopSpec provider hits permission roots q q.associatedPolicies records s s' := by
  have hbelow : ∀ p ∈ q.associatedPolicies, Below roots p :=
    fun p hp => PolicyGraph.below_associated hq hp
  have hne : ∀ p ∈ q.associatedPolicies, q.id ≠ p.id :=
    fun p hp => g.root_ne_below hq (hbelow p hp)
  obtain ⟨records, s', haggregated, hloop⟩ :=
    evaluateAggregated_spec hbelow (fun p hp => evaluate_spec g (hbelow p hp)) hne s
  obtain ⟨e', hrun, hparent, hnil, hcons⟩ :=
    evaluateAssociated_eq g hbelow ⟨permission, q, none, none⟩ rfl hne s
  refine ⟨records, e', s', ?_, hparent, ?_, hloop⟩
  · rw [hrun, haggregated]
    rfl
  · by_cases hempty : q.associatedPolicies = []
    · simp [hnil hempty, hempty]
    · simp [hcons hempty, hempty]

theorem lookup_recordAll {q : Policy} {records : List (Policy × Effect)} (hne : records ≠ [])
    (results : List (Nat × Result)) :
    (recordAll permission q records results).lookup permission.identity =
      some (((results.lookup permission.identity).getD
        (Result.ofPermission permission)).policy q (PolicyResult.putAll records)) := by
  have hisEmpty : records.isEmpty = false := by simpa using hne
  simp only [recordAll, hisEmpty, Bool.false_eq_true, if_false]
  exact lookup_recordIn_self q _ results

theorem resultOf_getD (fed : List Policy) :
    (resultOf provider permission fed).getD (Result.ofPermission permission) =
      ⟨permission, resultEntries provider permission fed, .deny⟩ := by
  unfold resultOf
  split
  · rename_i hempty
    rw [List.isEmpty_iff.mp hempty]
    rfl
  · rfl

theorem resultOf_append_of_ne {fed : List Policy} {q : Policy}
    (hne : q.associatedPolicies ≠ []) :
    resultOf provider permission (fed ++ [q]) =
      some ⟨permission, addEntry provider permission (resultEntries provider permission fed) q,
        .deny⟩ := by
  have hcovers : q.id ∈ LinkedMap.keys (resultEntries provider permission (fed ++ [q])) :=
    resultEntries_covers (List.mem_append_right fed (List.mem_singleton_self q)) hne
  unfold resultOf
  rw [resultEntries_append] at hcovers ⊢
  split
  · rename_i hempty
    rw [List.isEmpty_iff.mp hempty] at hcovers
    simp at hcovers
  · rfl

theorem resultOf_append_of_mem {fed : List Policy} {q : Policy}
    (h : q ∈ fed ∨ q.associatedPolicies = []) :
    resultOf provider permission (fed ++ [q]) = resultOf provider permission fed := by
  have hentries : resultEntries provider permission (fed ++ [q]) =
      resultEntries provider permission fed := by
    rw [resultEntries_append, addEntry]
    by_cases hempty : q.associatedPolicies = []
    · simp [hempty]
    · have hcovers : q.id ∈ LinkedMap.keys (resultEntries provider permission fed) :=
        resultEntries_covers (h.resolve_right hempty) hempty
      simp [hcovers]
  unfold resultOf
  rw [hentries]

/-- Recording a permission's associated policies with their own effects gives the result of
the permissions fed so far and this one. -/
theorem policy_resultOf (g : PolicyGraph roots) {fed : List Policy} {q : Policy}
    (hroots : ∀ p ∈ fed, roots p) (hq : roots q) (hne : q.associatedPolicies ≠ []) :
    some (((resultOf provider permission fed).getD (Result.ofPermission permission)).policy q
        (PolicyResult.putAll
          (q.associatedPolicies.map fun p => (p, p.effect provider permission)))) =
      resultOf provider permission (fed ++ [q]) := by
  have hids : ((q.associatedPolicies.map fun p => (p, p.effect provider permission)).map
      (·.1.id)).Nodup := by
    simpa [Function.comp_def] using g.nodup _ (.inl hq)
  have hentry : (PolicyResult.ofPolicy q).putAll
      (q.associatedPolicies.map fun p => (p, p.effect provider permission)) =
        (entryOf provider permission q).2 := by
    rw [putAll_ofPolicy hids]
    simp [entryOf]
  rw [resultOf_append_of_ne hne, resultOf_getD]
  simp only [Result.policy, addEntry, Option.some.injEq, Result.mk.injEq, true_and, and_true]
  by_cases hmem : q.id ∈ LinkedMap.keys (resultEntries provider permission fed)
  · -- the permission is fed again: its entry holds these effects
    obtain ⟨entry, hentry_mem, hkey⟩ := List.mem_map.mp hmem
    obtain ⟨q', hq', -, rfl⟩ := mem_resultEntries hentry_mem
    have heq : q' = q := g.root_unique (hroots q' hq') hq hkey
    subst heq
    have hlookup := LinkedMap.lookup_of_mem (resultEntries_nodup fed)
      (show (q'.id, (entryOf provider permission q').2) ∈ _ from hentry_mem)
    have hself : (entryOf provider permission q').2.putAll
        (q'.associatedPolicies.map fun p => (p, p.effect provider permission)) =
          (entryOf provider permission q').2 := by
      rw [← hentry]
      exact PolicyResult.putAll_eq_self fun record hrecord =>
        PolicyResult.lookup_putAll hids hrecord
    rw [LinkedMap.alter_eq_self hlookup (by simpa using hself)]
    simp [hmem]
  · rw [LinkedMap.alter_of_not_mem hmem]
    simp only [Option.getD_none, hentry]
    simp [hmem, hne, entryOf]

def keepEffect (permission : ResourcePermission) (q : Policy) (x : Option Effect) (s : State) :
    State :=
  match parentKey permission q with
  | none => s
  | some key => s.put q.id key x

@[simp] theorem keepEffect_results (q : Policy) (x : Option Effect) (s : State) :
    (keepEffect permission q x s).results = s.results := by
  unfold keepEffect
  split <;> rfl

@[simp] theorem keepEffect_decided (q : Policy) (x : Option Effect) (s : State) :
    (keepEffect permission q x s).decided = s.decided := by
  unfold keepEffect
  split <;> rfl

@[simp] theorem keepEffect_claims (q : Policy) (x : Option Effect) (s : State) :
    (keepEffect permission q x s).claims = s.claims := by
  unfold keepEffect
  split <;> rfl

theorem keepEffect_cache_self {q : Policy} {key : CacheKey}
    (hkey : parentKey permission q = some key) (x : Option Effect) (s : State) :
    (keepEffect permission q x s).cache q.id key = x := by
  simp [keepEffect, hkey, State.put]

theorem keepEffect_cache_of_ne {q : Policy} {id : String} {key : CacheKey}
    (h : id ≠ q.id ∨ parentKey permission q ≠ some key) (x : Option Effect) (s : State) :
    (keepEffect permission q x s).cache id key = s.cache id key := by
  unfold keepEffect
  split
  · rfl
  · rename_i key' hkey'
    by_cases hid : id = q.id
    · subst hid
      have hne : key ≠ key' := by
        rintro rfl
        exact h.elim (fun hid => hid rfl) (fun hkey => hkey hkey')
      simp [State.put, Function.update_of_ne hne]
    · simp [State.put, Function.update_of_ne hid]

theorem Good.keepEffect (g : PolicyGraph roots) {start s : State} {seen : List Policy}
    (h : Good provider hits permission roots start seen s) {q : Policy} (hq : roots q)
    (x : Option Effect) :
    Good provider hits permission roots start seen (keepEffect permission q x s) where
  below := h.below
  cached hhits p hp := by
    rw [keepEffect_cache_of_ne (.inl (g.root_ne_below hq hp).symm)]
    exact h.cached hhits p hp
  claims := by
    rw [keepEffect_claims]
    exact h.claims
  logged := by
    rw [keepEffect_decided]
    exact h.logged
  decided := by
    rw [keepEffect_decided]
    exact h.decided

theorem feedFrame_of_loop {parents : List Policy} {q : Policy} (hmem : q ∈ parents)
    {records : List (Policy × Effect)} {x : Option Effect} {s s' : State}
    (heffect : x.isSome ↔ q.associatedPolicies ≠ [])
    (hnone : q.associatedPolicies = [] → ∀ key, parentKey permission q = some key →
      s.cache q.id key = none)
    (hloop : LoopSpec provider hits permission roots q q.associatedPolicies records s s') :
    FeedFrame permission parents s (keepEffect permission q x s') where
  results j hj := by
    rw [keepEffect_results, hloop.results, lookup_recordAll_of_ne hj]
  permissions id j hj := by
    have hkey : CacheKey.permission j ≠ .permission permission.identity := by simpa using hj
    have hparent : parentKey permission q ≠ some (.permission j) := by
      unfold parentKey
      split <;> simp [hj.symm]
    rw [keepEffect_cache_of_ne (.inr hparent), hloop.frame.cache id _ (.inl hkey)]
  resources id r hr := by
    have hkept := hloop.frame.cache id (.resource r) (.inl (by simp))
    by_cases hparent : id = q.id ∧ parentKey permission q = some (.resource r)
    · obtain ⟨rfl, hkey⟩ := hparent
      have htype : q.type = .resource ∧ permission.resource = r := by
        unfold parentKey at hkey
        split at hkey
        · rename_i htype
          exact ⟨htype, by simpa using hkey⟩
        · simp at hkey
        · simp at hkey
      have hempty : q.associatedPolicies = [] := by
        by_contra hne
        exact hr q hmem htype.1 hne rfl htype.2
      have hx : x = none := by simpa [hempty] using heffect
      rw [keepEffect_cache_self hkey, hx, hnone hempty _ hkey]
    · rw [keepEffect_cache_of_ne (not_and_or.mp hparent), hkept]
  claims j hj := by rw [keepEffect_claims, hloop.frame.claims j hj]
  last front before hnew hbefore := by
    rw [keepEffect_results, hloop.results, recordAll, hbefore]
    split
    · exact ⟨before, rfl⟩
    · exact ⟨some _, LinkedMap.alter_append hnew _ before⟩

theorem feedInv_of_loop (g : PolicyGraph roots) {parents fed : List Policy}
    (hroots : ∀ p ∈ parents, roots p) {q : Policy} (hq : roots q)
    {records : List (Policy × Effect)} {x : Option Effect} {s s' : State}
    (hinv : FeedInv hits permission parents fed s)
    (heffect : x.isSome ↔ q.associatedPolicies ≠ [])
    (hloop : LoopSpec provider hits permission roots q q.associatedPolicies records s s') :
    FeedInv hits permission parents (fed ++ [q]) (keepEffect permission q x s') where
  cached hhits p hp key hkey := by
    by_cases hid : p.id = q.id
    · have heq : p = q := g.root_unique (hroots p hp) hq hid
      subst heq
      rw [keepEffect_cache_self hkey]
      simpa using heffect
    · have hne : p ≠ q := fun heq => hid (congrArg Policy.id heq)
      have hkept := hloop.frame.cache p.id key (.inr fun r hr =>
        (g.root_ne_below (hroots p hp) hr).symm)
      rw [keepEffect_cache_of_ne (.inl hid), hkept, hinv.cached hhits p hp key hkey]
      simp [hne]
  recorded p hp hne := by
    rw [keepEffect_results, hloop.results]
    by_cases hrecords : records = []
    · have hqempty : q.associatedPolicies = [] := by rw [← hloop.policies, hrecords]; rfl
      have hmem : p ∈ fed := by
        rcases List.mem_append.mp hp with hp | hp
        · exact hp
        · rw [List.mem_singleton.mp hp] at hne
          exact (hne hqempty).elim
      simpa [hrecords, recordAll] using hinv.recorded p hmem hne
    · rw [lookup_recordAll hrecords]
      by_cases hid : p.id = q.id
      · exact ⟨_, _, rfl, by rw [hid, Result.lookup_policy_self]⟩
      · have hmem : p ∈ fed := by
          rcases List.mem_append.mp hp with hp | hp
          · exact hp
          · exact (hid (congrArg Policy.id (List.mem_singleton.mp hp))).elim
        obtain ⟨r, found, hr, hfound⟩ := hinv.recorded p hmem hne
        refine ⟨_, found, rfl, ?_⟩
        rw [Result.lookup_policy_of_ne _ hid, hr]
        exact hfound

theorem Bad.of_loop (g : PolicyGraph roots) {q : Policy} (hq : roots q)
    {records : List (Policy × Effect)} {x : Option Effect} {s s' : State}
    (hhits : hits = true)
    (hloop : LoopSpec provider hits permission roots q q.associatedPolicies records s s')
    (h : Bad provider permission roots s) :
    Bad provider permission roots (keepEffect permission q x s') := by
  rcases h with hlog | ⟨q₀, p₀, hq₀, hp₀, hneg, hcache, hrecords⟩
  · have hlog' := hlog.frame hloop.frame
    left
    unfold BadLog at hlog' ⊢
    rwa [keepEffect_decided]
  · have hbelow : Below roots p₀ := PolicyGraph.below_associated hq₀ hp₀
    refine .inr ⟨q₀, p₀, hq₀, hp₀, hneg, ?_, ?_⟩
    · rw [keepEffect_cache_of_ne (.inl (g.root_ne_below hq hbelow).symm)]
      exact hloop.frame.kept hhits _ _ hcache
    · rw [keepEffect_results, hloop.results]
      by_cases hempty : records = []
      · simpa [hempty, recordAll] using hrecords
      · obtain ⟨r, found, hr, hfound, hx⟩ := hrecords
        by_cases hid : q₀.id = q.id
        · -- the permission is fed again: the policy is replayed with the same effect
          have heq : q₀ = q := g.root_unique hq₀ hq hid
          subst heq
          obtain ⟨record, hrecord, rfl⟩ : ∃ record ∈ records, record.1 = p₀ := by
            rw [← hloop.policies] at hp₀
            exact List.mem_map.mp hp₀
          have hids := nodup_of_fst hloop.policies (g.nodup _ (.inl hq))
          refine ⟨_, _, lookup_recordAll hempty _, Result.lookup_policy_self _ _ _, ?_⟩
          rw [PolicyResult.lookup_putAll hids hrecord, hloop.replays hhits record hrecord _ hcache]
        · refine ⟨_, found, lookup_recordAll hempty _, ?_, hx⟩
          rw [Result.lookup_policy_of_ne _ hid, hr]
          exact hfound

theorem Bad.of_record (g : PolicyGraph roots) {q : Policy} (hq : roots q)
    {records : List (Policy × Effect)} {x : Option Effect} {s s' : State}
    (hloop : LoopSpec provider hits permission roots q q.associatedPolicies records s s')
    {record : Policy × Effect} (hrecord : record ∈ records)
    (hneg : record.1.logic = .negative)
    (heff : record.2 = record.1.logic.apply (record.1.effect provider permission))
    (hcache : s'.cache record.1.id (.permission permission.identity) =
      some (record.1.effect provider permission)) :
    Bad provider permission roots (keepEffect permission q x s') := by
  have hmem : record.1 ∈ q.associatedPolicies := by
    rw [← hloop.policies]
    exact List.mem_map_of_mem hrecord
  have hids := nodup_of_fst hloop.policies (g.nodup _ (.inl hq))
  have hbelow : Below roots record.1 := PolicyGraph.below_associated hq hmem
  refine .inr ⟨q, record.1, hq, hmem, hneg, ?_, ?_⟩
  · rw [keepEffect_cache_of_ne (.inl (g.root_ne_below hq hbelow).symm)]
    exact hcache
  · rw [keepEffect_results, hloop.results, ← heff]
    exact ⟨_, _, lookup_recordAll (List.ne_nil_of_mem hrecord) _,
      Result.lookup_policy_self _ _ _, PolicyResult.lookup_putAll hids hrecord⟩

theorem evaluate_permission_of_miss {q : Policy} (hq : q.IsPermission) {s s' : State}
    {e' : DefaultEvaluation} (hparent : e'.parentPolicy = q)
    (hmiss : ∀ key, parentKey permission q = some key → s.lookup hits q.id key = none)
    (hloop : evaluateAssociated provider hits q.associatedPolicies
      ⟨permission, q, none, none⟩ s = some (e', s')) :
    evaluate provider hits q ⟨permission, q, none, none⟩ s =
      some (e', keepEffect permission q e'.effect s') := by
  rw [evaluate_permission hq]
  unfold keepEffect
  cases hkey : parentKey permission q with
  | none => exact hloop
  | some key =>
      simp only [hmiss key hkey, hloop, Option.map_some, hparent]

theorem FeedStep.of_replay {parents fed : List Policy} {q : Policy} (hq : q.IsPermission)
    (hmem : q ∈ parents) {ids : List String} (hids : ∀ id, id ∈ ids ↔ id ∈ fed.map Policy.id)
    {s : State} (hinv : FeedInv hits permission parents fed s) {key : CacheKey}
    (hkey : parentKey permission q = some key) {x : Effect}
    (hx : s.lookup hits q.id key = some x) :
    (∃ e', evaluate provider hits q ⟨permission, q, none, none⟩ s = some (e', s)) ∧
      FeedStep provider hits permission roots parents fed ids q s s := by
  obtain ⟨hhits, hcache⟩ := lookup_eq_some.mp hx
  obtain ⟨hqfed, hne⟩ := (hinv.cached hhits q hmem key hkey).mp (by simp [hcache])
  obtain ⟨r, found, hr, hfound⟩ := hinv.recorded q hqfed hne
  obtain ⟨e', hset⟩ := setEffect_parent hr hfound x
  have hcovered : ∀ p, p ∈ fed ++ [q] ↔ p ∈ fed := by
    intro p
    constructor
    · intro hp
      rcases List.mem_append.mp hp with hp | hp
      · exact hp
      · rw [List.mem_singleton.mp hp]
        exact hqfed
    · exact List.mem_append_left _
  refine ⟨⟨e', ?_⟩, ?_, fun _ => .refl s, fun _ hbad => hbad, ?_⟩
  · rw [evaluate_permission hq]
    simp only [hkey, hx, hset]
  · refine ⟨fun hhits p hp key hkey => ?_, fun p hp => hinv.recorded p ((hcovered p).mp hp)⟩
    rw [hcovered]
    exact hinv.cached hhits p hp key hkey
  · intro start seen hgood
    have htype : q.type ≠ .uma := by
      intro htype
      simp [parentKey, htype] at hkey
    have hid : q.id ∈ ids := (hids q.id).mpr (List.mem_map_of_mem hqfed)
    have hvisit : visitParent hits ids seen q = ([], seen) := by
      simp [visitParent, hhits, htype, hid]
    rw [hvisit]
    refine .inl ⟨by simp, hgood.good, ?_, fun p hp => hgood.covers p ((hcovered p).mp hp)⟩
    rw [hgood.result, resultOf_append_of_mem (.inl hqfed)]

/-- A permission that is not replayed visits its associated policies: if it has been fed
before, it has none. -/
theorem visitParent_of_miss (g : PolicyGraph roots) {parents fed : List Policy}
    (hroots : ∀ p ∈ parents, roots p) (hfed : ∀ p ∈ fed, p ∈ parents) {q : Policy}
    (hmem : q ∈ parents) {ids : List String} (hids : ∀ id, id ∈ ids ↔ id ∈ fed.map Policy.id)
    {s : State} (hinv : FeedInv hits permission parents fed s)
    (hmiss : ∀ key, parentKey permission q = some key → s.lookup hits q.id key = none)
    (seen : List Policy) :
    visitParent hits ids seen q = Policy.visitAll hits seen q.associatedPolicies := by
  unfold visitParent
  split
  · rename_i hskip
    simp only [Bool.and_eq_true, decide_eq_true_eq, List.contains_iff_mem] at hskip
    obtain ⟨p, hp, hid⟩ := List.mem_map.mp ((hids q.id).mp hskip.2.2)
    have heq : p = q := g.root_unique (hroots p (hfed p hp)) (hroots q hmem) hid
    subst heq
    have hempty : p.associatedPolicies = [] := by
      by_contra hne
      obtain ⟨key, hkey⟩ : ∃ key, parentKey permission p = some key := by
        rcases g.permission p (hroots p hmem) with htype | htype | htype
        · exact ⟨_, by simp [parentKey, htype]; rfl⟩
        · exact ⟨_, by simp [parentKey, htype]; rfl⟩
        · exact (hskip.2.1 htype).elim
      have hsome := (hinv.cached hskip.1 p hmem key hkey).mpr ⟨hp, hne⟩
      rw [lookup_eq_none.mp (hmiss key hkey) hskip.1] at hsome
      simp at hsome
    simp [hempty, Policy.visitAll]
  · rfl

theorem FeedGood.of_loop (g : PolicyGraph roots) {fed : List Policy} {q : Policy}
    (hfed : ∀ p ∈ fed, roots p) (hq : roots q) {records : List (Policy × Effect)}
    {x : Option Effect} {start s s' : State} {seen : List Policy}
    (h : FeedGood provider hits permission roots start fed seen s)
    (hresults : s'.results = recordAll permission q records s.results)
    (hrecords : records = q.associatedPolicies.map fun p => (p, p.effect provider permission))
    (hgood : Good provider hits permission roots start
      (Policy.visitAll hits seen q.associatedPolicies).2 s') :
    FeedGood provider hits permission roots start (fed ++ [q])
      (Policy.visitAll hits seen q.associatedPolicies).2 (keepEffect permission q x s') where
  good := hgood.keepEffect g hq x
  result := by
    rw [keepEffect_results, hresults]
    by_cases hempty : q.associatedPolicies = []
    · rw [resultOf_append_of_mem (.inr hempty), hrecords, hempty]
      exact h.result
    · have hne : records ≠ [] := by
        rw [hrecords]
        simpa using hempty
      rw [lookup_recordAll hne, h.result, hrecords]
      exact policy_resultOf g hfed hq hempty
  covers p hp hfirst a ha := by
    rcases List.mem_append.mp hp with hp | hp
    · have hextends : seen <+: (Policy.visitAll hits seen q.associatedPolicies).2 :=
        visitAll_extends (fun p _ => visit_extends hits p) seen
      exact (hextends.map Policy.id).subset (h.covers p hp hfirst a ha)
    · rw [List.mem_singleton.mp hp] at ha
      exact visitAll_covers hits seen q.associatedPolicies a ha

theorem FeedStep.of_loop (g : PolicyGraph roots) {parents fed : List Policy}
    (hroots : ∀ p ∈ parents, roots p) (hfed : ∀ p ∈ fed, p ∈ parents) {q : Policy}
    (hmem : q ∈ parents) {ids : List String} (hids : ∀ id, id ∈ ids ↔ id ∈ fed.map Policy.id)
    {s s' : State} (hinv : FeedInv hits permission parents fed s)
    (hmiss : ∀ key, parentKey permission q = some key → s.lookup hits q.id key = none)
    {records : List (Policy × Effect)} {x : Option Effect}
    (heffect : x.isSome ↔ q.associatedPolicies ≠ [])
    (hloop : LoopSpec provider hits permission roots q q.associatedPolicies records s s') :
    FeedStep provider hits permission roots parents fed ids q s
      (keepEffect permission q x s') := by
  have hq := hroots q hmem
  refine ⟨feedInv_of_loop g hroots hq hinv heffect hloop, fun hhits => ?_,
    fun hhits hbad => hbad.of_loop g hq hhits hloop, fun start seen hseen => ?_⟩
  · refine feedFrame_of_loop hmem heffect (fun _ key hkey => ?_) hloop
    exact lookup_eq_none.mp (hmiss key hkey) hhits
  · rw [visitParent_of_miss g hroots hfed hmem hids hinv hmiss]
    rcases hloop.decides start seen hseen.good with
      ⟨hpos, hrecords, hgood⟩ | ⟨⟨r, hr, hrneg⟩, hbad⟩
    · exact .inl ⟨hpos, hseen.of_loop g (fun p hp => hroots p (hfed p hp)) hq hloop.results
        hrecords hgood⟩
    · have hhits : hits = true := visitAll_hits (fun p _ seen => visit_hits p seen) seen r hr
      refine .inr ⟨hhits, ⟨r, hr, hrneg⟩, ?_⟩
      rcases hbad with hlog | ⟨record, hrecord, hneg, heff, hcache⟩
      · left
        unfold BadLog at hlog ⊢
        rwa [keepEffect_decided]
      · exact Bad.of_record g hq hloop hrecord hneg heff hcache

variable (provider) in
theorem feed_step (g : PolicyGraph roots) {parents fed : List Policy}
    (hroots : ∀ p ∈ parents, roots p) (hfed : ∀ p ∈ fed, p ∈ parents) {q : Policy}
    (hmem : q ∈ parents) {ids : List String} (hids : ∀ id, id ∈ ids ↔ id ∈ fed.map Policy.id)
    {s : State} (hinv : FeedInv hits permission parents fed s) :
    ∃ e' s', evaluate provider hits q ⟨permission, q, none, none⟩ s = some (e', s') ∧
      FeedStep provider hits permission roots parents fed ids q s s' := by
  have hq := hroots q hmem
  have hpermission := g.permission q hq
  by_cases hreplay : ∃ key, parentKey permission q = some key ∧
      ∃ x, s.lookup hits q.id key = some x
  · obtain ⟨key, hkey, x, hx⟩ := hreplay
    obtain ⟨⟨e', hevaluate⟩, hstep⟩ := FeedStep.of_replay hpermission hmem hids hinv hkey hx
    exact ⟨e', s, hevaluate, hstep⟩
  · have hmiss : ∀ key, parentKey permission q = some key →
        s.lookup hits q.id key = none := by
      intro key hkey
      rw [Option.eq_none_iff_forall_ne_some]
      exact fun x hx => hreplay ⟨key, hkey, x, hx⟩
    obtain ⟨records, e', s', hevaluate, hparent, heffect, hloop⟩ :=
      evaluateAssociated_spec provider hits permission g hq s
    exact ⟨e', keepEffect permission q e'.effect s',
      evaluate_permission_of_miss hpermission hparent hmiss hevaluate,
      .of_loop g hroots hfed hmem hids hinv hmiss heffect hloop⟩

variable (provider) in
/-- Feeding permissions: as long as no policy with negative logic is replayed, the
collector holds their result. -/
theorem feed_spec (g : PolicyGraph roots) {parents : List Policy}
    (hroots : ∀ p ∈ parents, roots p) {rest fed : List Policy}
    (hfed : ∀ p ∈ fed, p ∈ parents) (hrest : ∀ p ∈ rest, p ∈ parents) {ids : List String}
    (hids : ∀ id, id ∈ ids ↔ id ∈ fed.map Policy.id) {s : State}
    (hinv : FeedInv hits permission parents fed s) :
    ∃ s', feed provider hits permission rest s = some s' ∧
      FeedInv hits permission parents (fed ++ rest) s' ∧
      (hits = true → FeedFrame permission parents s s') ∧
      (hits = true → Bad provider permission roots s → Bad provider permission roots s') ∧
      ∀ start seen, FeedGood provider hits permission roots start fed seen s →
        ((∀ r ∈ (visitFed hits ids seen rest).1, r.logic = .positive) ∧
          FeedGood provider hits permission roots start (fed ++ rest)
            (visitFed hits ids seen rest).2 s') ∨
        ((∃ r ∈ (visitFed hits ids seen rest).1, r.logic = .negative) ∧
          Bad provider permission roots s') := by
  induction rest generalizing fed ids s with
  | nil =>
      rw [List.append_nil]
      exact ⟨s, rfl, hinv, fun _ => .refl s, fun _ hbad => hbad,
        fun start seen hgood => .inl ⟨by simp [visitFed], hgood⟩⟩
  | cons q rest ih =>
      obtain ⟨e₁, s₁, hevaluate, hinv₁, hframe₁, hbad₁, hgood₁⟩ :=
        feed_step provider g hroots hfed (hrest q List.mem_cons_self) hids hinv
      have hfed₁ : ∀ p ∈ fed ++ [q], p ∈ parents := by
        intro p hp
        rcases List.mem_append.mp hp with hp | hp
        · exact hfed p hp
        · rw [List.mem_singleton.mp hp]
          exact hrest q List.mem_cons_self
      have hids₁ : ∀ id, id ∈ q.id :: ids ↔ id ∈ (fed ++ [q]).map Policy.id := by
        intro id
        simp only [List.mem_cons, hids id, List.map_append, List.mem_append, List.map_cons,
          List.map_nil, List.not_mem_nil, or_false]
        exact Or.comm
      obtain ⟨s', hfeed, hinv', hframe, hbad, hgood⟩ :=
        ih hfed₁ (fun p hp => hrest p (List.mem_cons_of_mem q hp)) hids₁ hinv₁
      rw [List.append_assoc] at hinv'
      refine ⟨s', ?_, hinv', fun hhits => (hframe₁ hhits).trans (hframe hhits),
        fun hhits h => hbad hhits (hbad₁ hhits h), fun start seen hseen => ?_⟩
      · simp only [feed, hevaluate, Option.bind_some]
        exact hfeed
      · simp only [visitFed, List.mem_append]
        rcases hgood₁ start seen hseen with ⟨hpos₁, hseen₁⟩ | ⟨hhits, ⟨r, hr, hneg⟩, hbad'⟩
        · rcases hgood start _ hseen₁ with ⟨hpos, hseen'⟩ | ⟨⟨r, hr, hneg⟩, hbad'⟩
          · refine .inl ⟨fun r hr => hr.elim (hpos₁ r) (hpos r), ?_⟩
            rwa [List.append_assoc] at hseen'
          · exact .inr ⟨⟨r, .inr hr, hneg⟩, hbad'⟩
        · exact .inr ⟨⟨r, .inl hr, hneg⟩, hbad hhits hbad'⟩

theorem feed_fresh (provider : Provider) (hits : Bool) (permission : ResourcePermission)
    (g : PolicyGraph roots) (parents : List Policy) (hroots : ∀ p ∈ parents, roots p)
    (s : State) (hinv : FeedInv hits permission parents [] s)
    (hgood : FeedGood provider hits permission roots s [] [] s) :
    ∃ s', feed provider hits permission parents s = some s' ∧
      FeedInv hits permission parents parents s' ∧
      (hits = true → FeedFrame permission parents s s') ∧
      (((∀ r ∈ (visitFed hits [] [] parents).1, r.logic = .positive) ∧
          FeedGood provider hits permission roots s parents (visitFed hits [] [] parents).2 s') ∨
        ((∃ r ∈ (visitFed hits [] [] parents).1, r.logic = .negative) ∧
          Bad provider permission roots s')) := by
  have hids : ∀ id, id ∈ ([] : List String) ↔ id ∈ ([] : List Policy).map Policy.id := by simp
  obtain ⟨s', hfeed, hinv', hframe, -, hcases⟩ := feed_spec provider g hroots
    (fun p hp => absurd hp List.not_mem_nil) (fun p hp => hp) hids hinv
  exact ⟨s', hfeed, hinv', hframe, hcases s [] hgood⟩

end

end Keycloak.Authz
