import Mathlib.Data.Finset.Card
import Mathlib.Data.Finset.Insert

/-!
# Deleting a policy

`PolicyStore.delete` takes the policy out of those that are associated with it, and deletes first
each of them that is left without an associated policy.  The query for the dependent policies
does not flush, so within a deletion it answers from the rows as they were when it began.
-/

namespace Keycloak.Authz.PolicyDeletion

structure PolicyEntity where
  associatedPolicies : Finset String
  scopes : Finset String
  resources : Finset String
  deriving DecidableEq

/-- The policies of a resource server as they are stored, with the ids in the order in which a
query lists them.  An associated policy is a row, as its foreign key asks. -/
structure PolicyTable where
  ids : List String
  rows : String → Option PolicyEntity
  mem_ids : ∀ id, (rows id).isSome → id ∈ ids
  exists_associated : ∀ id entity, rows id = some entity →
    ∀ policy ∈ entity.associatedPolicies, (rows policy).isSome

structure Session where
  entities : String → Option PolicyEntity
  removed : Finset String

def PolicyTable.session (t : PolicyTable) : Session := ⟨t.rows, ∅⟩

namespace Session

def findById (s : Session) (id : String) : Option PolicyEntity :=
  if id ∈ s.removed then none else s.entities id

def removeAssociatedPolicy (s : Session) (id policy : String) : Session :=
  { s with
    entities := Function.update s.entities id ((s.entities id).map fun entity =>
      { entity with associatedPolicies := entity.associatedPolicies.erase policy }) }

def hasNone (s : Session) (id : String) : Bool :=
  (s.entities id).all fun entity => decide (entity.associatedPolicies = ∅)

def remove (s : Session) (id : String) : Session :=
  if (s.findById id).isSome then { s with removed := insert id s.removed } else s

end Session

section

variable (t : PolicyTable)

/-- The rows with the policy among their associated policies, without the removed ones. -/
def findDependentPolicies (s : Session) (policy : String) : List String :=
  (t.ids.filter fun id => (t.rows id).any fun entity => decide (policy ∈ entity.associatedPolicies))
    |>.filter fun id => (s.findById id).isSome

def forEachDependent (delete : String → Session → Option Session) (policy : String) :
    List String → Session → Option Session
  | [], s => some s
  | dependentPolicy :: rest, s =>
      let s := s.removeAssociatedPolicy dependentPolicy policy
      if s.hasNone dependentPolicy then
        (delete dependentPolicy s).bind (forEachDependent delete policy rest)
      else forEachDependent delete policy rest s

/-- `PolicyStore.delete`. -/
def delete : Nat → String → Session → Option Session
  | 0, _, _ => none
  | fuel + 1, id, s =>
      match s.findById id with
      | none => some s
      | some _ =>
          (forEachDependent (delete fuel) id (findDependentPolicies t s id) s).map (·.remove id)

/-! ## What a deletion should do -/

/-- The least set with the policy and every policy with associated policies that are all in it. -/
inductive Doomed (id : String) : String → Prop
  | self : Doomed id id
  | all {policy : String} {entity : PolicyEntity} : t.rows policy = some entity →
      entity.associatedPolicies.Nonempty →
      (∀ associated ∈ entity.associatedPolicies, Doomed id associated) → Doomed id policy

structure DeletedExactly (id : String) (s : Session) : Prop where
  deleted : ∀ policy, s.findById policy = none ↔ t.rows policy = none ∨ Doomed t id policy
  no_dangling : ∀ policy entity, s.findById policy = some entity →
    ∀ associated ∈ entity.associatedPolicies, (s.findById associated).isSome
  no_vacuous : ∀ policy entity entity', t.rows policy = some entity →
    entity.associatedPolicies.Nonempty → s.findById policy = some entity' →
    entity'.associatedPolicies.Nonempty
  unchanged : ∀ policy entity', s.findById policy = some entity' →
    ∃ entity, t.rows policy = some entity ∧ entity'.scopes = entity.scopes ∧
      entity'.resources = entity.resources ∧
      ∀ associated, associated ∈ entity'.associatedPolicies ↔
        associated ∈ entity.associatedPolicies ∧ ¬ Doomed t id associated

/-- The deletion ends, and has deleted the policy and what depends on it alone. -/
def DeletesExactly (id : String) : Prop :=
  ∃ fuel s, delete t fuel id t.session = some s ∧ DeletedExactly t id s

def DoomsItself (id : String) : Prop :=
  ∃ entity, t.rows id = some entity ∧ entity.associatedPolicies.Nonempty ∧
    ∀ associated ∈ entity.associatedPolicies, Doomed t id associated

def Associated (policy associated : String) : Prop :=
  ∃ entity, t.rows policy = some entity ∧ associated ∈ entity.associatedPolicies

end

/-! ## The persistence context -/

namespace Session

variable {s : Session} {id policy : String}

theorem findById_removeAssociatedPolicy_self :
    (s.removeAssociatedPolicy id policy).findById id = (s.findById id).map fun entity =>
      { entity with associatedPolicies := entity.associatedPolicies.erase policy } := by
  unfold findById removeAssociatedPolicy
  split
  · rfl
  · exact Function.update_self ..

theorem findById_removeAssociatedPolicy_of_ne {other : String} (hne : other ≠ id) :
    (s.removeAssociatedPolicy id policy).findById other = s.findById other := by
  unfold findById removeAssociatedPolicy
  simp only [Function.update_of_ne hne]

theorem isSome_removeAssociatedPolicy (s : Session) (id policy other : String) :
    ((s.removeAssociatedPolicy id policy).findById other).isSome = (s.findById other).isSome := by
  by_cases hself : other = id
  · rw [hself, findById_removeAssociatedPolicy_self, Option.isSome_map]
  · rw [findById_removeAssociatedPolicy_of_ne hself]

theorem findById_remove_self : (s.remove id).findById id = none := by
  unfold remove
  split
  · exact if_pos (Finset.mem_insert_self _ _)
  · rename_i hnone
    exact Option.not_isSome_iff_eq_none.mp hnone

theorem findById_remove_of_ne {other : String} (hne : other ≠ id) :
    (s.remove id).findById other = s.findById other := by
  unfold remove
  split
  · unfold findById
    simp only [Finset.mem_insert, hne, false_or]
  · rfl

theorem findById_of_remove {other : String} {entity : PolicyEntity}
    (h : (s.remove id).findById other = some entity) :
    other ≠ id ∧ s.findById other = some entity := by
  by_cases hself : other = id
  · rw [hself, findById_remove_self] at h
    cases h
  · rw [findById_remove_of_ne hself] at h
    exact ⟨hself, h⟩

theorem associatedPolicies_of_hasNone {entity : PolicyEntity} (h : s.hasNone id = true)
    (hentity : s.findById id = some entity) : entity.associatedPolicies = ∅ := by
  unfold findById at hentity
  split at hentity
  · cases hentity
  · rw [hasNone, hentity] at h
    exact of_decide_eq_true h

theorem nonempty_of_not_hasNone {entity : PolicyEntity} (h : ¬ s.hasNone id = true)
    (hentity : s.findById id = some entity) : entity.associatedPolicies.Nonempty := by
  unfold findById at hentity
  split at hentity
  · cases hentity
  · rw [hasNone, hentity] at h
    apply Finset.nonempty_iff_ne_empty.mpr
    exact fun hempty => h (decide_eq_true hempty)

end Session

section

variable {t : PolicyTable} {id policy : String} {s s' : Session}

theorem mem_findDependentPolicies {dependent : String} :
    dependent ∈ findDependentPolicies t s policy ↔
      Associated t dependent policy ∧ (s.findById dependent).isSome := by
  rw [findDependentPolicies, List.mem_filter, List.mem_filter, Option.any_eq_true]
  constructor
  · intro ⟨⟨_, entity, hentity, hmem⟩, hsome⟩
    exact ⟨⟨entity, hentity, of_decide_eq_true hmem⟩, hsome⟩
  · intro ⟨⟨entity, hentity, hmem⟩, hsome⟩
    have hrow : (t.rows dependent).isSome := by
      rw [hentity]
      rfl
    exact ⟨⟨t.mem_ids dependent hrow, entity, hentity, decide_eq_true hmem⟩, hsome⟩

theorem PolicyTable.findById_session (t : PolicyTable) (id : String) :
    t.session.findById id = t.rows id := rfl

theorem delete_of_removed {fuel : Nat} (h : s.findById id = none) :
    delete t (fuel + 1) id s = some s := by
  rw [delete, h]

theorem eq_of_delete_removed {fuel : Nat} (h : s.findById id = none)
    (hdelete : delete t fuel id s = some s') : s' = s := by
  cases fuel with
  | zero => cases hdelete
  | succ fuel =>
      rw [delete_of_removed h] at hdelete
      exact (Option.some.inj hdelete).symm

theorem delete_eq_some {fuel : Nat} {entity : PolicyEntity} (h : s.findById id = some entity)
    (hdelete : delete t (fuel + 1) id s = some s') :
    ∃ s₁, forEachDependent (delete t fuel) id (findDependentPolicies t s id) s = some s₁ ∧
      s' = s₁.remove id := by
  rw [delete, h] at hdelete
  obtain ⟨s₁, hloop, hs'⟩ := Option.map_eq_some_iff.mp hdelete
  exact ⟨s₁, hloop, hs'.symm⟩

end

/-! ## What a deletion that ends has done -/

/-- The entity has lost associated policies that have been removed or are in `cut`, but not its
last one. -/
structure Kept (cut : String → Prop) (s' : Session) (entity entity' : PolicyEntity) : Prop where
  scopes : entity'.scopes = entity.scopes
  resources : entity'.resources = entity.resources
  subset : entity'.associatedPolicies ⊆ entity.associatedPolicies
  nonempty : entity.associatedPolicies.Nonempty → entity'.associatedPolicies.Nonempty
  lost : ∀ policy ∈ entity.associatedPolicies, policy ∉ entity'.associatedPolicies →
    cut policy ∨ s'.findById policy = none

/-- What is still found has been kept, and has no policy that has been removed meanwhile. -/
structure Leaves (t : PolicyTable) (cut : String → Prop) (s s' : Session) : Prop where
  kept : ∀ policy entity', s'.findById policy = some entity' →
    ∃ entity, s.findById policy = some entity ∧ Kept cut s' entity entity'
  cleared : ∀ gone, (s.findById gone).isSome → s'.findById gone = none →
    ∀ policy entity', s'.findById policy = some entity' → Associated t policy gone →
      gone ∉ entity'.associatedPolicies

section

variable {t : PolicyTable} {cut : String → Prop} {s s' s'' : Session}

theorem Kept.refl (entity : PolicyEntity) : Kept cut s entity entity :=
  ⟨rfl, rfl, Finset.Subset.refl _, id, fun _ hmem hnot => absurd hmem hnot⟩

theorem Leaves.refl (s : Session) : Leaves t cut s s where
  kept _ entity' h := ⟨entity', h, .refl entity'⟩
  cleared gone hsome hnone := by
    rw [hnone] at hsome
    cases hsome

theorem Leaves.findById_none (h : Leaves t cut s s') {policy : String}
    (hnone : s.findById policy = none) : s'.findById policy = none := by
  cases hfound : s'.findById policy with
  | none => rfl
  | some entity' =>
      obtain ⟨entity, hentity, -⟩ := h.kept policy entity' hfound
      rw [hnone] at hentity
      cases hentity

theorem Leaves.trans (h : Leaves t cut s s') (h' : Leaves t cut s' s'') :
    Leaves t cut s s'' where
  kept policy entity'' hentity'' := by
    obtain ⟨entity', hentity', hkept'⟩ := h'.kept policy entity'' hentity''
    obtain ⟨entity, hentity, hkept⟩ := h.kept policy entity' hentity'
    refine ⟨entity, hentity, hkept'.scopes.trans hkept.scopes,
      hkept'.resources.trans hkept.resources, hkept'.subset.trans hkept.subset,
      fun hne => hkept'.nonempty (hkept.nonempty hne), fun r hr hlost => ?_⟩
    by_cases hmem : r ∈ entity'.associatedPolicies
    · exact hkept'.lost r hmem hlost
    · exact (hkept.lost r hr hmem).imp_right h'.findById_none
  cleared gone hsome hnone policy entity'' hentity'' hassociated := by
    obtain ⟨entity', hentity', hkept'⟩ := h'.kept policy entity'' hentity''
    cases hmid : s'.findById gone with
    | none =>
        have hclear := h.cleared gone hsome hmid policy entity' hentity' hassociated
        exact fun hmem => hclear (hkept'.subset hmem)
    | some found =>
        have hsome' : (s'.findById gone).isSome := by
          rw [hmid]
          rfl
        exact h'.cleared gone hsome' hnone policy entity'' hentity'' hassociated

theorem Leaves.mono {cut' : String → Prop} (h : Leaves t cut s s')
    (himp : ∀ policy, cut policy → cut' policy) : Leaves t cut' s s' where
  kept policy entity' hentity' := by
    obtain ⟨entity, hentity, hkept⟩ := h.kept policy entity' hentity'
    exact ⟨entity, hentity, hkept.scopes, hkept.resources, hkept.subset, hkept.nonempty,
      fun r hr hlost => (hkept.lost r hr hlost).imp_left (himp r)⟩
  cleared := h.cleared

def Removes (t : PolicyTable) (delete : String → Session → Option Session) : Prop :=
  ∀ policy s s', delete policy s = some s' →
    Leaves t (fun _ => False) s s' ∧ s'.findById policy = none

theorem leaves_removeAssociatedPolicy {dependent policy : String}
    (hsome : ¬ (s.removeAssociatedPolicy dependent policy).hasNone dependent = true) :
    Leaves t (· = policy) s (s.removeAssociatedPolicy dependent policy) where
  kept other entity' hentity' := by
    by_cases hself : other = dependent
    · subst hself
      have hnonempty := Session.nonempty_of_not_hasNone hsome hentity'
      rw [Session.findById_removeAssociatedPolicy_self, Option.map_eq_some_iff] at hentity'
      obtain ⟨entity, hentity, rfl⟩ := hentity'
      refine ⟨entity, hentity, rfl, rfl, Finset.erase_subset _ _, fun _ => hnonempty, ?_⟩
      intro r hr hlost
      by_cases hcut : r = policy
      · exact .inl hcut
      · exact absurd (Finset.mem_erase.mpr ⟨hcut, hr⟩) hlost
    · rw [Session.findById_removeAssociatedPolicy_of_ne hself] at hentity'
      exact ⟨entity', hentity', .refl entity'⟩
  cleared gone hgone hnone := by
    rw [← Option.not_isSome_iff_eq_none, Session.isSome_removeAssociatedPolicy] at hnone
    exact absurd hgone hnone

theorem leaves_of_removed {dependent policy : String}
    (h : Leaves t (fun _ => False) (s.removeAssociatedPolicy dependent policy) s')
    (hnone : s'.findById dependent = none) : Leaves t (· = policy) s s' where
  kept other entity' hentity' := by
    have hne : other ≠ dependent := by
      intro hself
      rw [hself, hnone] at hentity'
      cases hentity'
    obtain ⟨entity, hentity, hkept⟩ := h.kept other entity' hentity'
    rw [Session.findById_removeAssociatedPolicy_of_ne hne] at hentity
    exact ⟨entity, hentity, hkept.scopes, hkept.resources, hkept.subset, hkept.nonempty,
      fun r hr hlost => (hkept.lost r hr hlost).imp_left False.elim⟩
  cleared gone hsome := by
    rw [← Session.isSome_removeAssociatedPolicy s dependent policy] at hsome
    exact h.cleared gone hsome

theorem forEachDependent_leaves {delete : String → Session → Option Session}
    (hdelete : Removes t delete) {policy : String} {dependents : List String}
    (h : forEachDependent delete policy dependents s = some s') :
    Leaves t (· = policy) s s' ∧ ∀ dependent ∈ dependents, ∀ entity',
      s'.findById dependent = some entity' → policy ∉ entity'.associatedPolicies := by
  induction dependents generalizing s with
  | nil =>
      cases h
      exact ⟨.refl _, fun _ hmem => absurd hmem List.not_mem_nil⟩
  | cons dependent rest ih =>
      rw [forEachDependent] at h
      by_cases hnone : (s.removeAssociatedPolicy dependent policy).hasNone dependent = true
      · rw [if_pos hnone, Option.bind_eq_some_iff] at h
        obtain ⟨s₁, hdeleted, hrest⟩ := h
        obtain ⟨hinner, hremoved⟩ := hdelete _ _ _ hdeleted
        obtain ⟨hleaves, hcut⟩ := ih hrest
        refine ⟨(leaves_of_removed hinner hremoved).trans hleaves, ?_⟩
        rw [List.forall_mem_cons]
        refine ⟨fun entity' hentity' => ?_, hcut⟩
        rw [hleaves.findById_none hremoved] at hentity'
        cases hentity'
      · rw [if_neg hnone] at h
        obtain ⟨hleaves, hcut⟩ := ih h
        refine ⟨(leaves_removeAssociatedPolicy hnone).trans hleaves, ?_⟩
        rw [List.forall_mem_cons]
        refine ⟨fun entity' hentity' hmem => ?_, hcut⟩
        obtain ⟨entity, hentity, hkept⟩ := hleaves.kept dependent entity' hentity'
        rw [Session.findById_removeAssociatedPolicy_self, Option.map_eq_some_iff] at hentity
        obtain ⟨before, -, rfl⟩ := hentity
        exact Finset.notMem_erase policy _ (hkept.subset hmem)

theorem leaves_remove {policy : String} (h : Leaves t (· = policy) s s')
    (hcut : ∀ dependent ∈ findDependentPolicies t s policy, ∀ entity',
      s'.findById dependent = some entity' → policy ∉ entity'.associatedPolicies) :
    Leaves t (fun _ => False) s (s'.remove policy) := by
  have hfound : ∀ {other entity'}, (s'.remove policy).findById other = some entity' →
      s'.findById other = some entity' := fun h => (Session.findById_of_remove h).2
  constructor
  · intro other entity' hentity'
    obtain ⟨entity, hentity, hkept⟩ := h.kept other entity' (hfound hentity')
    refine ⟨entity, hentity, hkept.scopes, hkept.resources, hkept.subset, hkept.nonempty, ?_⟩
    intro r hr hlost
    right
    by_cases hself : r = policy
    · rw [hself, Session.findById_remove_self]
    · rw [Session.findById_remove_of_ne hself]
      exact (hkept.lost r hr hlost).resolve_left hself
  · intro gone hsome hnone other entity' hentity' hassociated
    by_cases hself : gone = policy
    · subst hself
      obtain ⟨entity, hentity, -⟩ := h.kept other entity' (hfound hentity')
      have hdependent : other ∈ findDependentPolicies t s gone := by
        rw [mem_findDependentPolicies, hentity]
        exact ⟨hassociated, rfl⟩
      exact hcut other hdependent entity' (hfound hentity')
    · rw [Session.findById_remove_of_ne hself] at hnone
      exact h.cleared gone hsome hnone other entity' (hfound hentity') hassociated

theorem delete_removes (t : PolicyTable) (fuel : Nat) : Removes t (delete t fuel) := by
  induction fuel with
  | zero =>
      intro policy s s' h
      cases h
  | succ fuel ih =>
      intro policy s s' h
      cases hentity : s.findById policy with
      | none =>
          rw [delete_of_removed hentity] at h
          cases h
          exact ⟨.refl s, hentity⟩
      | some entity =>
          obtain ⟨s₁, hloop, rfl⟩ := delete_eq_some hentity h
          obtain ⟨hleaves, hcut⟩ := forEachDependent_leaves ih hloop
          exact ⟨leaves_remove hleaves hcut, Session.findById_remove_self⟩

theorem not_mem_of_gone {id policy gone : String} (h : Leaves t (· = id) t.session s)
    (hcut : ∀ dependent ∈ findDependentPolicies t t.session id, ∀ entity',
      s.findById dependent = some entity' → id ∉ entity'.associatedPolicies)
    {entity' : PolicyEntity} (hfound : s.findById policy = some entity')
    (hgone : gone = id ∨ s.findById gone = none) : gone ∉ entity'.associatedPolicies := by
  intro hmem
  obtain ⟨entity, hentity, hkept⟩ := h.kept policy entity' hfound
  rw [PolicyTable.findById_session] at hentity
  have hassociated : Associated t policy gone := ⟨entity, hentity, hkept.subset hmem⟩
  cases hgone with
  | inl hself =>
      subst hself
      refine hcut policy ?_ entity' hfound hmem
      rw [mem_findDependentPolicies, PolicyTable.findById_session, hentity]
      exact ⟨hassociated, rfl⟩
  | inr hnone =>
      have hrow : (t.session.findById gone).isSome := by
        rw [PolicyTable.findById_session]
        exact t.exists_associated policy entity hentity gone (hkept.subset hmem)
      exact h.cleared gone hrow hnone policy entity' hfound hassociated hmem

theorem findById_of_doomed {id policy : String} (h : Leaves t (· = id) t.session s)
    (hcut : ∀ dependent ∈ findDependentPolicies t t.session id, ∀ entity',
      s.findById dependent = some entity' → id ∉ entity'.associatedPolicies)
    (hdoomed : Doomed t id policy) : policy = id ∨ s.findById policy = none := by
  induction hdoomed with
  | self => exact .inl rfl
  | @all policy entity hentity hnonempty _ ih =>
      right
      cases hfound : s.findById policy with
      | none => rfl
      | some entity' =>
          exfalso
          obtain ⟨entity₀, hentity₀, hkept⟩ := h.kept policy entity' hfound
          rw [PolicyTable.findById_session, hentity] at hentity₀
          cases hentity₀
          obtain ⟨last, hlast⟩ := hkept.nonempty hnonempty
          exact not_mem_of_gone h hcut hfound (ih last (hkept.subset hlast)) hlast

end

/-! ## A deletion that meets itself -/

def Emptied (policies : Set String) (s : Session) : Prop :=
  ∀ policy ∈ policies, ∃ entity, s.findById policy = some entity ∧ entity.associatedPolicies = ∅

section

variable {t : PolicyTable} {policies : Set String} {s s' : Session}

theorem Emptied.removeAssociatedPolicy (h : Emptied policies s) (dependent policy : String) :
    Emptied policies (s.removeAssociatedPolicy dependent policy) := by
  intro other hother
  obtain ⟨entity, hentity, hempty⟩ := h other hother
  by_cases hself : other = dependent
  · subst hself
    rw [Session.findById_removeAssociatedPolicy_self, hentity]
    refine ⟨_, rfl, ?_⟩
    show entity.associatedPolicies.erase policy = ∅
    rw [hempty]
    rfl
  · rw [Session.findById_removeAssociatedPolicy_of_ne hself]
    exact ⟨entity, hentity, hempty⟩

theorem Session.hasNone_of_findById {id : String} {entity : PolicyEntity}
    (h : s.findById id = some entity) (hempty : entity.associatedPolicies = ∅) :
    s.hasNone id = true := by
  unfold Session.findById at h
  split at h
  · cases h
  · rw [Session.hasNone, h]
    exact decide_eq_true hempty

/-- Deletions that end do not get to the policies, and leave them as they are. -/
def Avoids (policies : Set String) (delete : String → Session → Option Session) : Prop :=
  ∀ id s s', Emptied policies s → delete id s = some s' → id ∉ policies ∧ Emptied policies s'

theorem forEachDependent_emptied {delete : String → Session → Option Session}
    (hdelete : Avoids policies delete) {id : String} {dependents : List String}
    (hemptied : Emptied policies s) (h : forEachDependent delete id dependents s = some s') :
    (∀ dependent ∈ dependents, dependent ∉ policies) ∧ Emptied policies s' := by
  induction dependents generalizing s with
  | nil =>
      cases h
      exact ⟨fun _ hmem => absurd hmem List.not_mem_nil, hemptied⟩
  | cons dependent rest ih =>
      have hcut := hemptied.removeAssociatedPolicy dependent id
      rw [forEachDependent] at h
      rw [List.forall_mem_cons]
      by_cases hnone : (s.removeAssociatedPolicy dependent id).hasNone dependent = true
      · rw [if_pos hnone, Option.bind_eq_some_iff] at h
        obtain ⟨s₁, hdeleted, hrest⟩ := h
        obtain ⟨havoids, hemptied₁⟩ := hdelete _ _ _ hcut hdeleted
        obtain ⟨hrest', hemptied'⟩ := ih hemptied₁ hrest
        exact ⟨⟨havoids, hrest'⟩, hemptied'⟩
      · rw [if_neg hnone] at h
        obtain ⟨hrest', hemptied'⟩ := ih hcut h
        refine ⟨⟨fun hmem => hnone ?_, hrest'⟩, hemptied'⟩
        obtain ⟨entity, hentity, hempty⟩ := hcut dependent hmem
        exact Session.hasNone_of_findById hentity hempty

/-- Emptied policies each of which has a dependent one among them: no deletion that ends gets to
one of them. -/
theorem delete_emptied (hcycle : ∀ policy ∈ policies, ∃ dependent ∈ policies,
      Associated t dependent policy) (fuel : Nat) : Avoids policies (delete t fuel) := by
  induction fuel with
  | zero =>
      intro id s s' _ h
      cases h
  | succ fuel ih =>
      intro id s s' hemptied h
      cases hentity : s.findById id with
      | none =>
          rw [delete_of_removed hentity] at h
          cases h
          refine ⟨fun hmem => ?_, hemptied⟩
          obtain ⟨entity, hsome, -⟩ := hemptied id hmem
          rw [hentity] at hsome
          cases hsome
      | some entity =>
          obtain ⟨s₁, hloop, rfl⟩ := delete_eq_some hentity h
          obtain ⟨havoids, hemptied₁⟩ := forEachDependent_emptied ih hemptied hloop
          have hid : id ∉ policies := by
            intro hmem
            obtain ⟨dependent, hdependent, hassociated⟩ := hcycle id hmem
            obtain ⟨found, hfound, -⟩ := hemptied dependent hdependent
            refine havoids dependent ?_ hdependent
            rw [mem_findDependentPolicies, hfound]
            exact ⟨hassociated, rfl⟩
          refine ⟨hid, fun policy hmem => ?_⟩
          have hne : policy ≠ id := fun heq => hid (heq ▸ hmem)
          rw [Session.findById_remove_of_ne hne]
          exact hemptied₁ policy hmem

/-- While `current` is deleted, the policies of `stack` wait for it: all but the first one, `id`,
have been emptied, and each has a dependent one that was deleted for it. -/
structure OnStack (t : PolicyTable) (id : String) (stack : Set String) (current : String)
    (s : Session) : Prop where
  first : id ∈ insert current stack
  found : ∀ policy ∈ insert current stack, ∃ entity, s.findById policy = some entity ∧
    (policy ≠ id → entity.associatedPolicies = ∅)
  waits : ∀ policy ∈ stack, ∃ dependent ∈ insert current stack, dependent ≠ id ∧
    Associated t dependent policy

def KeepsStack (t : PolicyTable) (id : String)
    (delete : String → Session → Option Session) : Prop :=
  ∀ stack current s s', OnStack t id stack current s → current ∉ stack →
    delete current s = some s' → ∀ policy ∈ stack, ∃ entity, s'.findById policy = some entity ∧
      (policy ≠ id → entity.associatedPolicies = ∅)

variable {id current : String} {stack : Set String}

theorem OnStack.removeAssociatedPolicy (h : OnStack t id stack current s)
    (dependent policy : String) :
    OnStack t id stack current (s.removeAssociatedPolicy dependent policy) where
  first := h.first
  found other hother := by
    obtain ⟨entity, hentity, hempty⟩ := h.found other hother
    by_cases hself : other = dependent
    · subst hself
      rw [Session.findById_removeAssociatedPolicy_self, hentity]
      refine ⟨_, rfl, fun hne => ?_⟩
      show entity.associatedPolicies.erase policy = ∅
      rw [hempty hne]
      rfl
    · rw [Session.findById_removeAssociatedPolicy_of_ne hself]
      exact ⟨entity, hentity, hempty⟩
  waits := h.waits

theorem OnStack.not_emptied (h : OnStack t id stack current s) {dependent : String}
    (hassociated : Associated t dependent current) (hnone : s.hasNone dependent = true)
    {fuel : Nat} (hdelete : delete t fuel dependent s = some s') :
    dependent ∉ insert current stack := by
  intro hmem
  -- the emptied policies of the stack form the cycle
  have hcycle : ∀ policy ∈ {policy | policy ∈ insert current stack ∧ s.hasNone policy = true},
      ∃ other ∈ {policy | policy ∈ insert current stack ∧ s.hasNone policy = true},
        Associated t other policy := by
    intro policy ⟨hpolicy, _⟩
    cases hpolicy with
    | inl hcurrent => exact ⟨dependent, ⟨hmem, hnone⟩, hcurrent ▸ hassociated⟩
    | inr hstack =>
        obtain ⟨other, hother, hne, hassociated'⟩ := h.waits policy hstack
        obtain ⟨entity, hentity, hempty⟩ := h.found other hother
        exact ⟨other, ⟨hother, Session.hasNone_of_findById hentity (hempty hne)⟩, hassociated'⟩
  have hemptied : Emptied {policy | policy ∈ insert current stack ∧ s.hasNone policy = true} s := by
    intro policy ⟨hpolicy, hpolicyNone⟩
    obtain ⟨entity, hentity, -⟩ := h.found policy hpolicy
    exact ⟨entity, hentity, Session.associatedPolicies_of_hasNone hpolicyNone hentity⟩
  exact (delete_emptied hcycle fuel dependent s s' hemptied hdelete).1 ⟨hmem, hnone⟩

theorem OnStack.push (h : OnStack t id stack current s) {dependent : String}
    (hassociated : Associated t dependent current) (hnew : dependent ∉ insert current stack)
    {entity : PolicyEntity} (hentity : s.findById dependent = some entity)
    (hempty : entity.associatedPolicies = ∅) :
    OnStack t id (insert current stack) dependent s where
  first := Set.mem_insert_of_mem _ h.first
  found policy hpolicy := by
    cases hpolicy with
    | inl hself =>
        subst hself
        exact ⟨entity, hentity, fun _ => hempty⟩
    | inr hmem => exact h.found policy hmem
  waits policy hpolicy := by
    have hne : dependent ≠ id := fun heq => hnew (heq ▸ h.first)
    cases hpolicy with
    | inl hself => exact ⟨dependent, Set.mem_insert _ _, hne, hself ▸ hassociated⟩
    | inr hmem =>
        obtain ⟨other, hother, hother'⟩ := h.waits policy hmem
        exact ⟨other, Set.mem_insert_of_mem _ hother, hother'⟩

theorem OnStack.loop {fuel : Nat} (hdelete : KeepsStack t id (delete t fuel))
    {dependents : List String} (hdependents : ∀ dependent ∈ dependents,
      Associated t dependent current) (h : OnStack t id stack current s)
    (hloop : forEachDependent (delete t fuel) current dependents s = some s') :
    OnStack t id stack current s' := by
  induction dependents generalizing s with
  | nil =>
      cases hloop
      exact h
  | cons dependent rest ih =>
      rw [List.forall_mem_cons] at hdependents
      have hcut := h.removeAssociatedPolicy dependent current
      rw [forEachDependent] at hloop
      by_cases hnone : (s.removeAssociatedPolicy dependent current).hasNone dependent = true
      · rw [if_pos hnone, Option.bind_eq_some_iff] at hloop
        obtain ⟨s₁, hdeleted, hrest⟩ := hloop
        have hnew := hcut.not_emptied hdependents.1 hnone hdeleted
        have hkept : ∀ policy ∈ insert current stack, ∃ entity, s₁.findById policy = some entity ∧
            (policy ≠ id → entity.associatedPolicies = ∅) := by
          cases hentity : (s.removeAssociatedPolicy dependent current).findById dependent with
          | none =>
              rw [eq_of_delete_removed hentity hdeleted]
              exact hcut.found
          | some entity =>
              have hempty := Session.associatedPolicies_of_hasNone hnone hentity
              exact hdelete _ dependent _ s₁ (hcut.push hdependents.1 hnew hentity hempty) hnew
                hdeleted
        exact ih hdependents.2 ⟨h.first, hkept, h.waits⟩ hrest
      · rw [if_neg hnone] at hloop
        exact ih hdependents.2 hcut hloop

theorem delete_keepsStack (t : PolicyTable) (id : String) (fuel : Nat) :
    KeepsStack t id (delete t fuel) := by
  induction fuel with
  | zero =>
      intro stack current s s' _ _ h
      cases h
  | succ fuel ih =>
      intro stack current s s' h hnew hdelete policy hpolicy
      obtain ⟨entity, hentity, -⟩ := h.found current (Set.mem_insert _ _)
      obtain ⟨s₁, hloop, rfl⟩ := delete_eq_some hentity hdelete
      have hdependents : ∀ dependent ∈ findDependentPolicies t s current,
          Associated t dependent current :=
        fun dependent hmem => (mem_findDependentPolicies.mp hmem).1
      have hne : policy ≠ current := fun heq => hnew (heq ▸ hpolicy)
      rw [Session.findById_remove_of_ne hne]
      exact (h.loop ih hdependents hloop).found policy (Set.mem_insert_of_mem _ hpolicy)

theorem delete_of_doomsItself (hdooms : DoomsItself t id) (fuel : Nat) :
    delete t fuel id t.session = none := by
  obtain ⟨entity, hentity, hnonempty, hall⟩ := hdooms
  cases hdelete : delete t fuel id t.session with
  | none => rfl
  | some s' =>
      exfalso
      cases fuel with
      | zero => cases hdelete
      | succ fuel =>
          obtain ⟨s₁, hloop, -⟩ := delete_eq_some (s := t.session) hentity hdelete
          have hstack : OnStack t id ∅ id t.session := by
            refine ⟨Set.mem_insert _ _, fun policy hpolicy => ?_, fun policy hpolicy => ?_⟩
            · rw [insert_empty_eq, Set.mem_singleton_iff] at hpolicy
              subst hpolicy
              exact ⟨entity, hentity, fun hne => absurd rfl hne⟩
            · exact absurd hpolicy (Set.notMem_empty _)
          have hdependents : ∀ dependent ∈ findDependentPolicies t t.session id,
              Associated t dependent id :=
            fun dependent hmem => (mem_findDependentPolicies.mp hmem).1
          obtain ⟨entity', hentity', -⟩ := (hstack.loop (delete_keepsStack t id fuel) hdependents
            hloop).found id (Set.mem_insert _ _)
          obtain ⟨hleaves, hcut⟩ := forEachDependent_leaves (delete_removes t fuel) hloop
          obtain ⟨entity₀, hentity₀, hkept⟩ := hleaves.kept id entity' hentity'
          rw [PolicyTable.findById_session, hentity] at hentity₀
          cases hentity₀
          -- the policy has kept an associated policy, which has gone all the same
          obtain ⟨last, hlast⟩ := hkept.nonempty hnonempty
          have hgone := findById_of_doomed hleaves hcut (hall last (hkept.subset hlast))
          exact not_mem_of_gone hleaves hcut hentity' hgone hlast

end

/-! ## A deletion that ends -/

/-- What holds during the deletion of `id`, while the policies of `stack` are being deleted. -/
structure Progress (t : PolicyTable) (id : String) (stack : Finset String) (s : Session) :
    Prop where
  rows : ∀ policy, (s.findById policy).isSome → (t.rows policy).isSome
  /-- Only the policies of the stack are taken out of others. -/
  fresh : ∀ policy entity, s.findById policy = some entity → ∀ associated,
    Associated t policy associated → associated ∉ stack → (s.findById associated).isSome →
      associated ∈ entity.associatedPolicies
  started : ∀ policy ∈ stack, policy ≠ id → ∀ associated, Associated t policy associated →
    associated ∈ stack ∨ s.findById associated = none
  spared : ∀ entity, s.findById id = some entity → ∀ associated, Associated t id associated →
    ∃ kept ∈ entity.associatedPolicies, ¬ Doomed t id kept
  doomed : ∀ policy, (t.rows policy).isSome → s.findById policy = none → Doomed t id policy
  stack_doomed : ∀ policy ∈ stack, Doomed t id policy
  stack_found : ∀ policy ∈ stack, (s.findById policy).isSome

section

variable {t : PolicyTable} {id : String} {stack : Finset String} {s s' : Session}

theorem Progress.removeAssociatedPolicy (h : Progress t id stack s) {current : String}
    (hcurrent : current ∈ stack) (dependent : String) :
    Progress t id stack (s.removeAssociatedPolicy dependent current) where
  rows policy hsome := by
    rw [Session.isSome_removeAssociatedPolicy] at hsome
    exact h.rows policy hsome
  fresh policy entity' hentity' associated hassociated hstack hsome := by
    rw [Session.isSome_removeAssociatedPolicy] at hsome
    have hne : associated ≠ current := fun heq => hstack (heq ▸ hcurrent)
    by_cases hself : policy = dependent
    · subst hself
      rw [Session.findById_removeAssociatedPolicy_self, Option.map_eq_some_iff] at hentity'
      obtain ⟨entity, hentity, rfl⟩ := hentity'
      exact Finset.mem_erase.mpr ⟨hne, h.fresh policy entity hentity associated hassociated
        hstack hsome⟩
    · rw [Session.findById_removeAssociatedPolicy_of_ne hself] at hentity'
      exact h.fresh policy entity' hentity' associated hassociated hstack hsome
  started policy hpolicy hne associated hassociated := by
    rw [← Option.not_isSome_iff_eq_none, Session.isSome_removeAssociatedPolicy,
      Option.not_isSome_iff_eq_none]
    exact h.started policy hpolicy hne associated hassociated
  spared entity' hentity' associated hassociated := by
    by_cases hself : id = dependent
    · subst hself
      rw [Session.findById_removeAssociatedPolicy_self, Option.map_eq_some_iff] at hentity'
      obtain ⟨entity, hentity, rfl⟩ := hentity'
      obtain ⟨kept, hkept, hspared⟩ := h.spared entity hentity associated hassociated
      have hne : kept ≠ current := fun heq => hspared (heq ▸ h.stack_doomed current hcurrent)
      exact ⟨kept, Finset.mem_erase.mpr ⟨hne, hkept⟩, hspared⟩
    · rw [Session.findById_removeAssociatedPolicy_of_ne hself] at hentity'
      exact h.spared entity' hentity' associated hassociated
  doomed policy hrow hnone := by
    rw [← Option.not_isSome_iff_eq_none, Session.isSome_removeAssociatedPolicy,
      Option.not_isSome_iff_eq_none] at hnone
    exact h.doomed policy hrow hnone
  stack_doomed := h.stack_doomed
  stack_found policy hpolicy := by
    rw [Session.isSome_removeAssociatedPolicy]
    exact h.stack_found policy hpolicy

/-- A policy is deleted when no associated policy is left: it was the first one, or those that
it had are being deleted or have been. -/
theorem Progress.push (h : Progress t id stack s) {policy : String}
    (hdoomed : Doomed t id policy) (hnew : policy ∉ stack)
    (hempty : policy ≠ id → ∀ entity, s.findById policy = some entity →
      entity.associatedPolicies = ∅) {entity : PolicyEntity}
    (hentity : s.findById policy = some entity) :
    Progress t id (insert policy stack) s where
  rows := h.rows
  fresh other entity' hentity' associated hassociated hstack :=
    h.fresh other entity' hentity' associated hassociated
      fun hmem => hstack (Finset.mem_insert_of_mem hmem)
  started other hother hne associated hassociated := by
    by_cases hstack : associated ∈ stack
    · exact .inl (Finset.mem_insert_of_mem hstack)
    · cases Finset.mem_insert.mp hother with
      | inl hself =>
          subst hself
          right
          cases hfound : s.findById associated with
          | none => rfl
          | some found =>
              have hmem := h.fresh other entity hentity associated hassociated hstack (by
                rw [hfound]
                rfl)
              rw [hempty hne entity hentity] at hmem
              exact absurd hmem (Finset.notMem_empty _)
      | inr hmem =>
          exact .inr ((h.started other hmem hne associated hassociated).resolve_left hstack)
  spared := h.spared
  doomed := h.doomed
  stack_doomed other hother := by
    cases Finset.mem_insert.mp hother with
    | inl hself => exact hself ▸ hdoomed
    | inr hmem => exact h.stack_doomed other hmem
  stack_found other hother := by
    cases Finset.mem_insert.mp hother with
    | inl hself =>
        rw [hself, hentity]
        rfl
    | inr hmem => exact h.stack_found other hmem

theorem Progress.pop {policy : String} (h : Progress t id (insert policy stack) s)
    (hnew : policy ∉ stack) : Progress t id stack (s.remove policy) where
  rows other hsome := by
    obtain ⟨entity, hentity⟩ := Option.isSome_iff_exists.mp hsome
    apply h.rows other
    rw [(Session.findById_of_remove hentity).2]
    rfl
  fresh other entity hentity associated hassociated hstack hsome := by
    obtain ⟨found, hfound⟩ := Option.isSome_iff_exists.mp hsome
    obtain ⟨hne, hfound⟩ := Session.findById_of_remove hfound
    refine h.fresh other entity (Session.findById_of_remove hentity).2 associated hassociated ?_ ?_
    · rw [Finset.mem_insert, not_or]
      exact ⟨hne, hstack⟩
    · rw [hfound]
      rfl
  started other hother hne associated hassociated := by
    by_cases hself : associated = policy
    · rw [hself]
      exact .inr Session.findById_remove_self
    · rw [Session.findById_remove_of_ne hself]
      have hstarted := h.started other (Finset.mem_insert_of_mem hother) hne associated hassociated
      rwa [Finset.mem_insert, or_iff_right hself] at hstarted
  spared entity hentity := h.spared entity (Session.findById_of_remove hentity).2
  doomed other hrow hnone := by
    by_cases hself : other = policy
    · rw [hself]
      exact h.stack_doomed policy (Finset.mem_insert_self _ _)
    · rw [Session.findById_remove_of_ne hself] at hnone
      exact h.doomed other hrow hnone
  stack_doomed other hother := h.stack_doomed other (Finset.mem_insert_of_mem hother)
  stack_found other hother := by
    have hne : other ≠ policy := fun heq => hnew (heq ▸ hother)
    rw [Session.findById_remove_of_ne hne]
    exact h.stack_found other (Finset.mem_insert_of_mem hother)

theorem Progress.doomed_of_hasNone (h : Progress t id stack s) {policy associated : String}
    (hassociated : Associated t policy associated) (hnone : s.hasNone policy = true) :
    Doomed t id policy := by
  obtain ⟨entity₀, hentity₀, hmem⟩ := hassociated
  cases hfound : s.findById policy with
  | none =>
      refine h.doomed policy ?_ hfound
      rw [hentity₀]
      rfl
  | some entity =>
      have hempty := Session.associatedPolicies_of_hasNone hnone hfound
      refine .all hentity₀ ⟨associated, hmem⟩ fun other hother => ?_
      by_cases hstack : other ∈ stack
      · exact h.stack_doomed other hstack
      · apply h.doomed other (t.exists_associated policy entity₀ hentity₀ other hother)
        cases hother' : s.findById other with
        | none => rfl
        | some found =>
            have hkept := h.fresh policy entity hfound other ⟨entity₀, hentity₀, hother⟩ hstack (by
              rw [hother']
              rfl)
            rw [hempty] at hkept
            exact absurd hkept (Finset.notMem_empty _)

theorem Progress.ne_of_hasNone (h : Progress t id stack s) (hid : id ∈ stack)
    {policy associated : String} (hassociated : Associated t policy associated)
    (hnone : s.hasNone policy = true) : policy ≠ id := by
  rintro rfl
  obtain ⟨entity, hentity⟩ := Option.isSome_iff_exists.mp (h.stack_found policy hid)
  obtain ⟨kept, hkept, -⟩ := h.spared entity hentity associated hassociated
  rw [Session.associatedPolicies_of_hasNone hnone hentity] at hkept
  exact Finset.notMem_empty _ hkept

def Ends (t : PolicyTable) (id : String) (stack : Finset String)
    (delete : String → Session → Option Session) : Prop :=
  ∀ policy s, Progress t id stack s → policy ∉ stack → Doomed t id policy →
    (policy ≠ id → ∀ entity, s.findById policy = some entity →
      entity.associatedPolicies = ∅) → ∃ s', delete policy s = some s' ∧ Progress t id stack s'

theorem Progress.loop {delete : String → Session → Option Session}
    (hdelete : Ends t id stack delete) (hid : id ∈ stack) {current : String}
    (hcurrent : current ∈ stack) {dependents : List String}
    (hdependents : ∀ dependent ∈ dependents,
      Associated t dependent current ∧ (dependent ≠ id → dependent ∉ stack))
    (h : Progress t id stack s) :
    ∃ s', forEachDependent delete current dependents s = some s' ∧ Progress t id stack s' := by
  induction dependents generalizing s with
  | nil => exact ⟨s, rfl, h⟩
  | cons dependent rest ih =>
      rw [List.forall_mem_cons] at hdependents
      obtain ⟨⟨hassociated, hnew⟩, hrest⟩ := hdependents
      have hcut := h.removeAssociatedPolicy hcurrent dependent
      rw [forEachDependent]
      by_cases hnone : (s.removeAssociatedPolicy dependent current).hasNone dependent = true
      · have hne := hcut.ne_of_hasNone hid hassociated hnone
        obtain ⟨s₁, hdeleted, h₁⟩ := hdelete dependent _ hcut (hnew hne)
          (hcut.doomed_of_hasNone hassociated hnone)
          fun _ entity hentity => Session.associatedPolicies_of_hasNone hnone hentity
        rw [if_pos hnone, hdeleted]
        exact ih hrest h₁
      · rw [if_neg hnone]
        exact ih hrest hcut

theorem Progress.delete {fuel : Nat} (h : Progress t id stack s) {policy : String}
    (hnew : policy ∉ stack) (hdoomed : Doomed t id policy)
    (hempty : policy ≠ id → ∀ entity, s.findById policy = some entity →
      entity.associatedPolicies = ∅) (hid : id ∈ insert policy stack)
    (hends : (t.rows policy).isSome → Ends t id (insert policy stack) (delete t fuel)) :
    ∃ s', PolicyDeletion.delete t (fuel + 1) policy s = some s' ∧ Progress t id stack s' := by
  cases hentity : s.findById policy with
  | none => exact ⟨s, delete_of_removed hentity, h⟩
  | some entity =>
      have hfound : (s.findById policy).isSome := by
        rw [hentity]
        rfl
      have hdependents : ∀ dependent ∈ findDependentPolicies t s policy,
          Associated t dependent policy ∧ (dependent ≠ id → dependent ∉ insert policy stack) := by
        intro dependent hmem
        obtain ⟨hassociated, hsome⟩ := mem_findDependentPolicies.mp hmem
        refine ⟨hassociated, fun hne hstack => ?_⟩
        cases Finset.mem_insert.mp hstack with
        | inl hself =>
            -- an emptied policy is not associated with itself
            subst hself
            have hmem := h.fresh dependent entity hentity dependent hassociated hnew hfound
            rw [hempty hne entity hentity] at hmem
            exact Finset.notMem_empty _ hmem
        | inr hstack =>
            cases h.started dependent hstack hne policy hassociated with
            | inl hpolicy => exact hnew hpolicy
            | inr hnone =>
                rw [hnone] at hfound
                cases hfound
      obtain ⟨s₁, hloop, h₁⟩ := (h.push hdoomed hnew hempty hentity).loop
        (hends (h.rows policy hfound)) hid (Finset.mem_insert_self _ _) hdependents
      refine ⟨s₁.remove policy, ?_, h₁.pop hnew⟩
      rw [PolicyDeletion.delete, hentity]
      show (forEachDependent _ _ _ _).map _ = _
      rw [hloop]
      rfl

theorem card_sdiff_insert_lt {ids : Finset String} {policy : String} (hmem : policy ∈ ids)
    (hnew : policy ∉ stack) : (ids \ insert policy stack).card < (ids \ stack).card := by
  rw [Finset.sdiff_insert]
  exact Finset.card_erase_lt_of_mem (Finset.mem_sdiff.mpr ⟨hmem, hnew⟩)

theorem delete_ends (fuel : Nat) (hid : id ∈ stack)
    (hfuel : (t.ids.toFinset \ stack).card < fuel) : Ends t id stack (delete t fuel) := by
  induction fuel generalizing stack with
  | zero => omega
  | succ fuel ih =>
      intro policy s h hnew hdoomed hempty
      apply h.delete hnew hdoomed hempty (Finset.mem_insert_of_mem hid)
      intro hrow
      apply ih (Finset.mem_insert_of_mem hid)
      have hlt := card_sdiff_insert_lt (List.mem_toFinset.mpr (t.mem_ids policy hrow)) hnew
      omega

theorem progress_session (h : ¬ DoomsItself t id) : Progress t id ∅ t.session where
  rows _ hsome := hsome
  fresh policy entity hentity associated hassociated _ _ := by
    obtain ⟨entity₀, hentity₀, hmem⟩ := hassociated
    rw [PolicyTable.findById_session, hentity₀] at hentity
    cases hentity
    exact hmem
  started policy hpolicy := absurd hpolicy (Finset.notMem_empty _)
  spared entity hentity associated hassociated := by
    obtain ⟨entity₀, hentity₀, hmem⟩ := hassociated
    rw [PolicyTable.findById_session, hentity₀] at hentity
    cases hentity
    by_contra hnone
    push Not at hnone
    exact h ⟨_, hentity₀, ⟨associated, hmem⟩, hnone⟩
  doomed policy hrow hnone := by
    rw [PolicyTable.findById_session] at hnone
    rw [hnone] at hrow
    cases hrow
  stack_doomed policy hpolicy := absurd hpolicy (Finset.notMem_empty _)
  stack_found policy hpolicy := absurd hpolicy (Finset.notMem_empty _)

/-- A deletion ends, with doomed policies removed only, if not all of the associated policies
are doomed. -/
theorem exists_delete (h : ¬ DoomsItself t id) :
    ∃ fuel s, delete t fuel id t.session = some s ∧ Progress t id ∅ s := by
  refine ⟨t.ids.toFinset.card + 1 + 1, (progress_session h).delete (Finset.notMem_empty _) .self
    (fun hne => absurd rfl hne) (Finset.mem_insert_self _ _) fun _ => ?_⟩
  apply delete_ends _ (Finset.mem_insert_self _ _)
  have hle : (t.ids.toFinset \ insert id ∅).card ≤ t.ids.toFinset.card :=
    Finset.card_le_card Finset.sdiff_subset
  omega

theorem deletedExactly_of_leaves (h : Leaves t (fun _ => False) t.session s)
    (hid : s.findById id = none)
    (hdoomed : ∀ policy, (t.rows policy).isSome → s.findById policy = none → Doomed t id policy) :
    DeletedExactly t id s := by
  have hleaves : Leaves t (· = id) t.session s := h.mono fun _ => False.elim
  have hcut : ∀ dependent ∈ findDependentPolicies t t.session id, ∀ entity',
      s.findById dependent = some entity' → id ∉ entity'.associatedPolicies := by
    intro dependent hdependent entity' hentity'
    have hassociated := (mem_findDependentPolicies.mp hdependent).1
    obtain ⟨entity, hentity, hmem⟩ := hassociated
    exact h.cleared id (t.exists_associated dependent entity hentity id hmem) hid dependent entity'
      hentity' ⟨entity, hentity, hmem⟩
  have hgone : ∀ policy, Doomed t id policy → s.findById policy = none := by
    intro policy hpolicy
    cases findById_of_doomed hleaves hcut hpolicy with
    | inl hself => exact hself ▸ hid
    | inr hnone => exact hnone
  constructor
  · intro policy
    constructor
    · intro hnone
      by_cases hrow : (t.rows policy).isSome
      · exact .inr (hdoomed policy hrow hnone)
      · exact .inl (Option.not_isSome_iff_eq_none.mp hrow)
    · intro hpolicy
      exact hpolicy.elim (fun hrow => h.findById_none hrow) (hgone policy)
  · intro policy entity hentity associated hmem
    by_contra hnone
    exact not_mem_of_gone hleaves hcut hentity
      (.inr (Option.not_isSome_iff_eq_none.mp hnone)) hmem
  · intro policy entity entity' hentity hnonempty hentity'
    obtain ⟨entity₀, hentity₀, hkept⟩ := h.kept policy entity' hentity'
    rw [PolicyTable.findById_session, hentity] at hentity₀
    cases hentity₀
    exact hkept.nonempty hnonempty
  · intro policy entity' hentity'
    obtain ⟨entity, hentity, hkept⟩ := h.kept policy entity' hentity'
    refine ⟨entity, hentity, hkept.scopes, hkept.resources, fun associated => ?_⟩
    constructor
    · intro hmem
      refine ⟨hkept.subset hmem, fun hassociated => ?_⟩
      exact not_mem_of_gone hleaves hcut hentity' (.inr (hgone associated hassociated)) hmem
    · intro ⟨hmem, hspared⟩
      by_contra hlost
      have hnone := (hkept.lost associated hmem hlost).resolve_left not_false
      exact hspared (hdoomed associated (t.exists_associated policy entity hentity _ hmem) hnone)

end

/-- The deletion of a policy ends with exactly the policy and those that depend on it alone
deleted if and only if not all of its associated policies, of which it has some, are deleted
with it. -/
theorem deletesExactly_iff (t : PolicyTable) (id : String) :
    DeletesExactly t id ↔ ¬ DoomsItself t id := by
  constructor
  · intro ⟨fuel, s, hdelete, _⟩ hdooms
    rw [delete_of_doomsItself hdooms] at hdelete
    cases hdelete
  · intro hdooms
    obtain ⟨fuel, s, hdelete, hprogress⟩ := exists_delete hdooms
    obtain ⟨hleaves, hid⟩ := delete_removes t fuel id t.session s hdelete
    exact ⟨fuel, s, hdelete, deletedExactly_of_leaves hleaves hid hprogress.doomed⟩

/-! ## A permission and the policy it applies -/

/-- A permission that applies an aggregated policy, which has come to apply the permission. -/
def circularTable : PolicyTable where
  ids := ["permission", "policy"]
  rows id :=
    if id = "permission" then some ⟨{"policy"}, {"scope"}, ∅⟩
    else if id = "policy" then some ⟨{"permission"}, ∅, ∅⟩
    else none
  mem_ids id hsome := by
    split at hsome
    · simp [*]
    · split at hsome
      · simp [*]
      · cases hsome
  exists_associated id entity hentity associated hmem := by
    split at hentity
    · cases hentity
      rw [Finset.mem_singleton] at hmem
      subst hmem
      rfl
    · split at hentity
      · cases hentity
        rw [Finset.mem_singleton] at hmem
        subst hmem
        rfl
      · cases hentity

/-- Neither of the two can be deleted. -/
theorem circular_not_deleted : ¬ DeletesExactly circularTable "permission" := by
  intro ⟨fuel, s, hdelete, _⟩
  have hpolicy : Doomed circularTable "permission" "policy" := by
    refine .all rfl ⟨"permission", Finset.mem_singleton_self _⟩ fun associated hmem => ?_
    rw [Finset.mem_singleton.mp hmem]
    exact .self
  have hdooms : DoomsItself circularTable "permission" := by
    refine ⟨_, rfl, ⟨"policy", Finset.mem_singleton_self _⟩, fun associated hmem => ?_⟩
    rw [Finset.mem_singleton.mp hmem]
    exact hpolicy
  rw [delete_of_doomsItself hdooms] at hdelete
  cases hdelete

end Keycloak.Authz.PolicyDeletion
