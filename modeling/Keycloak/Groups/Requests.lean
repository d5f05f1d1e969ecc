import Keycloak.Groups.Hierarchy
import Keycloak.Lib.Machine

/-!
# Admin requests on the group hierarchy

`GroupsResource` and `GroupResource`, as far as they change the groups of the realm.
A request runs in a transaction of its own, and the response of `addChild` is built
from the changed hierarchy before that transaction is committed.
-/

namespace Keycloak

namespace Groups

open ParentWalk

structure GroupRepresentation where
  id : Option GroupId
  name : Option String
  deriving DecidableEq, Repr

/-- The requests.  For `addTopLevelGroup` the label also has the row that the search by
name returns first, if there is one. -/
inductive Request where
  | addTopLevelGroup (rep : GroupRepresentation) (found : Option GroupId)
  | addChild (group : GroupId) (rep : GroupRepresentation)
  | updateGroup (group : GroupId) (rep : GroupRepresentation)
  | deleteGroup (group : GroupId)
  deriving DecidableEq, Repr

inductive Outcome where
  /-- An error response or an exception; nothing of the request is kept. -/
  | refused
  | done (t : Table)
  /-- The table is changed and the response is about to be built from the group. -/
  | rendering (t : Table) (child : GroupId)
  /-- A loop that does not end. -/
  | hangs

/-- `GroupResource.updateGroup`, the part that concerns the name. -/
def updateGroup (t : Table) (rep : GroupRepresentation) (model : GroupId) : Table :=
  match rep.name with
  | some name => t.setName model name
  | none => t

/-- The group that a representation names by its id or that is created for it. -/
def childOf (t : Table) (rep : GroupRepresentation) : Option (Table × GroupId) :=
  match rep.id with
  | some id => (t.getGroupById id).map fun child => (t, child)
  | none => some (updateGroup (t.createGroup rep.name) rep t.nextId, t.nextId)

/-- A subgroup has the name of the representation, or none at all: the comparison then
dereferences a null reference. -/
def subGroupNamed (t : Table) (group : GroupId) (rep : GroupRepresentation) : Bool :=
  (t.getSubGroups group).any fun sub => t.getName sub = none || t.getName sub = rep.name

def addChild (t : Table) (group : GroupId) (rep : GroupRepresentation) : Outcome :=
  if subGroupNamed t group rep then .refused
  else
    match childOf t rep with
    | none => .refused
    | some (t, child) =>
        match t.moveGroup child (some group) with
        | some t => .rendering t child
        | none => .refused

/-- `addTopLevelGroup`.  The search for the name goes up from the row it found, and builds
the representation of the group it arrives at. -/
def addTopLevelGroup (t : Table) (rep : GroupRepresentation) (found : Option GroupId) : Outcome :=
  match t.searchForGroupByName t.nextId found.toList with
  | none => .hangs
  | some groups =>
      match groups.mapM (t.toGroupHierarchy t.nextId) with
      | none => .refused
      | some _ =>
          if groups.head?.map t.getName = some rep.name then .refused
          else
            match childOf t rep with
            | none => .refused
            | some (t, child) =>
                match t.moveGroup child none with
                | some t => .done t
                | none => .refused

/-- The resource method of a request.  The group in the path of a request is looked up
first. -/
def handle (t : Table) : Request → Outcome
  | .addTopLevelGroup rep found => addTopLevelGroup t rep found
  | .addChild group rep =>
      if (t.getGroupById group).isSome then addChild t group rep else .refused
  | .updateGroup group rep =>
      if (t.getGroupById group).isSome then .done (updateGroup t rep group) else .refused
  | .deleteGroup group =>
      if (t.getGroupById group).isSome then
        match Table.removeGroup t.nextId t group with
        | some t => .done t
        | none => .refused
      else .refused

/-- `groups` is the table as the transaction of the current request sees it, `committed`
the table without that transaction. -/
structure State where
  groups : Table
  committed : Table
  rendering : Option GroupId

def init : State where
  groups := ⟨fun _ => none, 0⟩
  committed := ⟨fun _ => none, 0⟩
  rendering := none

inductive Label where
  | request (request : Request)
  | respond
  deriving DecidableEq, Repr

/-- One request after the other.  Building the response of `addChild` is a step of its
own: a recursion that does not end is a `StackOverflowError`, for which the error handler
rolls the transaction back. -/
def step (s : State) : Label → Option State
  | .request request =>
      match s.rendering with
      | some _ => none
      | none =>
          match handle s.groups request with
          | .refused => some s
          | .done t => some { groups := t, committed := t, rendering := none }
          | .rendering t child => some { s with groups := t, rendering := some child }
          | .hangs => none
  | .respond =>
      s.rendering.map fun child =>
        match s.groups.toGroupHierarchy s.groups.nextId child with
        | some _ => { s with committed := s.groups, rendering := none }
        | none => { s with groups := s.committed, rendering := none }

/-- The request moves a group below one of its own descendants: `addChild` names by its id
a proper ancestor of the group it is posted to, and no subgroup has the name already. -/
def MovesBelowItself (t : Table) : Request → Prop
  | .addChild group rep =>
      subGroupNamed t group rep = false ∧
        ∃ id, rep.id = some id ∧ Relation.TransGen (IsParent t.getParentId) group id
  | _ => False

/-- Between two requests, the next one does not move a group below itself. -/
def KeepsOrder (s : State) : Label → Prop
  | .request request => s.rendering = none → ¬ MovesBelowItself s.groups request
  | .respond => True

/-! ## What one request does -/

theorem updateGroup_forest {t : Table} (h : t.Forest) (rep : GroupRepresentation)
    (model : GroupId) : (updateGroup t rep model).Forest := by
  rw [updateGroup]
  split
  · exact h.setName model _
  · exact h

theorem updateGroup_frame (t : Table) (rep : GroupRepresentation) (model : GroupId) :
    (updateGroup t rep model).getParentId = t.getParentId ∧
      ∀ x, (updateGroup t rep model).Exists x ↔ t.Exists x := by
  rw [updateGroup]
  split
  · exact ⟨Table.getParentId_setName .., fun x => Table.exists_modify ..⟩
  · exact ⟨rfl, fun _ => Iff.rfl⟩

/-- `childOf` changes no parent link; the group it returns is the one named by id, or one
that no link leads to. -/
theorem childOf_spec {t t' : Table} {rep : GroupRepresentation} {child : GroupId}
    (hforest : t.Forest) (h : childOf t rep = some (t', child)) :
    t'.Forest ∧ t'.Exists child ∧ (∀ x, t.Exists x → t'.Exists x) ∧
      t'.getParentId = t.getParentId ∧
      (rep.id = some child ∨ rep.id = none ∧ ¬ t.Exists child) := by
  rw [childOf] at h
  cases hid : rep.id with
  | some id =>
      rw [hid] at h
      obtain ⟨child', hchild, heq⟩ := Option.map_eq_some_iff.mp h
      obtain ⟨e, he, rfl⟩ := Option.map_eq_some_iff.mp hchild
      cases heq
      exact ⟨hforest, by simp [Table.Exists, he], fun _ hx => hx, rfl, .inl rfl⟩
  | none =>
      rw [hid] at h
      cases h
      obtain ⟨hlinks, hexists⟩ := updateGroup_frame (t.createGroup rep.name) rep t.nextId
      refine ⟨updateGroup_forest (hforest.createGroup rep.name) rep t.nextId, ?_, ?_, ?_,
        .inr ⟨rfl, ?_⟩⟩
      · exact (hexists _).mpr ((Table.exists_createGroup ..).mpr (.inl rfl))
      · exact fun x hx => (hexists x).mpr ((Table.exists_createGroup ..).mpr (.inr hx))
      · exact hlinks.trans (hforest.getParentId_createGroup rep.name)
      · exact fun hx => Nat.lt_irrefl _ (hforest.lt_nextId hx)

theorem moveGroup_cases {t t' : Table} {child group : GroupId} (hforest : t.Forest)
    (hchild : t.Exists child) (hgroup : t.Exists group)
    (h : t.moveGroup child (some group) = some t') :
    t'.Stored ∧ t'.Exists child ∧
      (¬ Relation.TransGen (IsParent t.getParentId) group child → t'.Forest) ∧
      (Relation.TransGen (IsParent t.getParentId) group child →
        Relation.TransGen (IsParent t'.getParentId) child child) := by
  rcases eq_or_ne group child with rfl | hne
  · rw [Table.moveGroup, if_pos rfl, Option.some.injEq] at h
    cases h
    exact ⟨hforest.toStored, hchild, fun _ => hforest, fun hcycle => hcycle⟩
  · have hself : some group ≠ some child := fun heq => hne (Option.some.inj heq)
    obtain ⟨t₁, heq, hrows, hlinks⟩ := Table.moveGroup_spec hforest.toStored hchild hself
    rw [heq, Option.some.injEq] at h
    subst h
    have hstored : t₁.Stored := by
      refine hforest.toStored.moveGroup hrows hlinks fun p hp => ?_
      cases hp
      exact hgroup
    refine ⟨hstored, (hrows.exists_iff child).mpr hchild, fun hnot => ⟨hstored, ?_⟩,
      fun hreach => ?_⟩
    · rw [hlinks]
      refine hforest.acyclic.update_some fun hreach => ?_
      rcases Relation.reflTransGen_iff_eq_or_transGen.mp hreach with heq | htrans
      · exact hne heq.symm
      · exact hnot htrans
    · rw [hlinks]
      exact cycle_of_update hreach.to_reflTransGen

theorem moveGroup_none_forest {t t' : Table} {child : GroupId} (hforest : t.Forest)
    (hchild : t.Exists child) (h : t.moveGroup child none = some t') : t'.Forest := by
  obtain ⟨t₁, heq, hrows, hlinks⟩ :=
    Table.moveGroup_spec hforest.toStored hchild (Option.some_ne_none child).symm
  rw [heq, Option.some.injEq] at h
  subst h
  refine ⟨hforest.toStored.moveGroup hrows hlinks (by simp), ?_⟩
  rw [hlinks]
  exact hforest.acyclic.update_none

def Outcome.Kept (moved : Prop) : Outcome → Prop
  | .done t => t.Forest
  | .rendering t child =>
      t.Stored ∧ (¬ moved → t.Forest) ∧
        (moved → Relation.TransGen (IsParent t.getParentId) child child)
  | .refused => True
  | .hangs => True

theorem addTopLevelGroup_kept {t : Table} (hforest : t.Forest) (rep : GroupRepresentation)
    (found : Option GroupId) : (addTopLevelGroup t rep found).Kept False := by
  unfold addTopLevelGroup
  split
  · trivial
  · split
    · trivial
    · split
      · trivial
      · split
        · trivial
        · rename_i t₁ child hchildOf
          obtain ⟨hforest₁, hchild, -⟩ := childOf_spec hforest hchildOf
          split
          · rename_i t₂ hmove
            exact moveGroup_none_forest hforest₁ hchild hmove
          · trivial

theorem addChild_kept {t : Table} (hforest : t.Forest) {group : GroupId}
    (hgroup : t.Exists group) (rep : GroupRepresentation) :
    (addChild t group rep).Kept (MovesBelowItself t (.addChild group rep)) := by
  unfold addChild
  split
  · trivial
  · rename_i hnamed
    split
    · trivial
    · rename_i t₁ child hchildOf
      obtain ⟨hforest₁, hchild, hexists, hlinks, hnamedOrNew⟩ := childOf_spec hforest hchildOf
      split
      · rename_i t₂ hmove
        obtain ⟨hstored, -, hkeep, hcycle⟩ :=
          moveGroup_cases hforest₁ hchild (hexists group hgroup) hmove
        rw [hlinks] at hkeep hcycle
        refine ⟨hstored, fun hnot => hkeep fun hreach => hnot ⟨by simpa using hnamed, ?_⟩, ?_⟩
        · rcases hnamedOrNew with hid | ⟨-, hnew⟩
          · exact ⟨child, hid, hreach⟩
          · obtain ⟨_, _, hlink⟩ := Relation.TransGen.tail'_iff.mp hreach
            exact absurd (hforest.parent_exists hlink) hnew
        · rintro ⟨-, id, hid, hreach⟩
          rcases hnamedOrNew with hid' | ⟨hid', -⟩
          · rw [hid, Option.some.injEq] at hid'
            subst hid'
            exact hcycle hreach
          · rw [hid] at hid'
            exact absurd hid' (Option.some_ne_none id)
      · trivial

theorem handle_kept {t : Table} (hforest : t.Forest) (request : Request) :
    (handle t request).Kept (MovesBelowItself t request) := by
  cases request with
  | addTopLevelGroup rep found => exact addTopLevelGroup_kept hforest rep found
  | addChild group rep =>
      rw [handle]
      split
      · rename_i hgroup
        rw [Table.getGroupById, Option.isSome_map] at hgroup
        exact addChild_kept hforest hgroup rep
      · trivial
  | updateGroup group rep =>
      rw [handle]
      split
      · exact updateGroup_forest hforest rep group
      · trivial
  | deleteGroup group =>
      rw [handle]
      split
      · split
        · rename_i t' hremove
          exact hforest.pruned (Table.removeGroup_pruned hremove hforest.toStored).1
        · trivial
      · trivial

theorem handle_of_movesBelowItself {t : Table} (hforest : t.Forest) {request : Request}
    (h : MovesBelowItself t request) : ∃ t' child, handle t request = .rendering t' child := by
  cases request with
  | addChild group rep =>
      obtain ⟨hnamed, id, hid, hreach⟩ := h
      obtain ⟨_, _, hlast⟩ := Relation.TransGen.tail'_iff.mp hreach
      obtain ⟨_, hfirst, _⟩ := Relation.TransGen.head'_iff.mp hreach
      have hgroup : t.Exists group := Table.exists_of_getParentId hfirst
      have hchild : t.Exists id := hforest.parent_exists hlast
      have hne : some group ≠ some id := by
        intro heq
        cases heq
        exact hforest.acyclic group hreach
      obtain ⟨t', hmove, -⟩ := Table.moveGroup_spec hforest.toStored hchild hne
      refine ⟨t', id, ?_⟩
      simp [handle, addChild, childOf, Table.getGroupById_eq hgroup, Table.getGroupById_eq hchild,
        hnamed, hid, hmove]
  | addTopLevelGroup rep found => exact h.elim
  | updateGroup group rep => exact h.elim
  | deleteGroup group => exact h.elim

/-! ## Runs -/

/-- Between requests the table is a forest; while a response is built, it is one or the
group of the response is on a cycle.  What is committed is always a forest. -/
structure State.Inv (s : State) : Prop where
  committed : s.committed.Forest
  idle : s.rendering = none → s.groups.Forest
  rendering : ∀ child, s.rendering = some child →
    s.groups.Forest ∨
      s.groups.Stored ∧ Relation.TransGen (IsParent s.groups.getParentId) child child

theorem init_forest : init.groups.Forest where
  parent_exists h := by cases h
  lt_nextId h := by cases h
  acyclic := acyclic_of_no_links fun _ => rfl

theorem init_inv : init.Inv where
  committed := init_forest
  idle _ := init_forest
  rendering _ h := by cases h

theorem step_request_cases {s s' : State} {request : Request}
    (h : step s (.request request) = some s') :
    s.rendering = none ∧
      (s' = s ∨
        (∃ t, handle s.groups request = .done t ∧
          s' = { groups := t, committed := t, rendering := none }) ∨
        ∃ t child, handle s.groups request = .rendering t child ∧
          s' = { s with groups := t, rendering := some child }) := by
  rw [step] at h
  split at h
  · cases h
  · rename_i hidle
    refine ⟨hidle, ?_⟩
    split at h
    · exact .inl (Option.some.inj h).symm
    · exact .inr (.inl ⟨_, ‹_›, (Option.some.inj h).symm⟩)
    · exact .inr (.inr ⟨_, _, ‹_›, (Option.some.inj h).symm⟩)
    · cases h

/-- Building the response commits the table, or rolls it back when it is not a forest. -/
theorem step_respond_cases {s s' : State} (hinv : s.Inv) (h : step s .respond = some s') :
    s'.rendering = none ∧
      (s.groups.Forest ∧ s'.groups = s.groups ∧ s'.committed = s.groups ∨
        s'.groups = s.committed ∧ s'.committed = s.committed) := by
  rw [step] at h
  obtain ⟨child, hchild, heq⟩ := Option.map_eq_some_iff.mp h
  subst heq
  split
  · rename_i paths hpaths
    rcases hinv.rendering child hchild with hforest | ⟨hstored, hcycle⟩
    · exact ⟨rfl, .inl ⟨hforest, rfl, rfl⟩⟩
    · rw [hstored.toGroupHierarchy_of_cycle hcycle] at hpaths
      cases hpaths
  · exact ⟨rfl, .inr ⟨rfl, rfl⟩⟩

theorem step_inv {s s' : State} {label : Label} (hinv : s.Inv) (h : step s label = some s') :
    s'.Inv := by
  cases label with
  | request request =>
      obtain ⟨hidle, rfl | ⟨t, hdone, rfl⟩ | ⟨t, child, hrender, rfl⟩⟩ := step_request_cases h
      · exact hinv
      · have hforest : t.Forest := by
          simpa [hdone, Outcome.Kept] using handle_kept (hinv.idle hidle) request
        exact ⟨hforest, fun _ => hforest, by simp⟩
      · have hkept := handle_kept (hinv.idle hidle) request
        rw [hrender] at hkept
        obtain ⟨hstored, hkeep, hcycle⟩ := hkept
        refine ⟨hinv.committed, by simp, fun child' hchild' => ?_⟩
        cases hchild'
        by_cases hmoved : MovesBelowItself s.groups request
        · exact .inr ⟨hstored, hcycle hmoved⟩
        · exact .inl (hkeep hmoved)
  | respond =>
      obtain ⟨hidle, ⟨hforest, hgroups, hcommitted⟩ | ⟨hgroups, hcommitted⟩⟩ :=
        step_respond_cases hinv h
      · refine ⟨hcommitted ▸ hforest, fun _ => hgroups ▸ hforest, ?_⟩
        simp [hidle]
      · refine ⟨hcommitted ▸ hinv.committed, fun _ => hgroups ▸ hinv.committed, ?_⟩
        simp [hidle]

theorem step_forest {s s' : State} {label : Label} (hinv : s.Inv) (hforest : s.groups.Forest)
    (hok : KeepsOrder s label) (h : step s label = some s') : s'.groups.Forest := by
  cases label with
  | request request =>
      obtain ⟨hidle, rfl | ⟨t, hdone, rfl⟩ | ⟨t, child, hrender, rfl⟩⟩ := step_request_cases h
      · exact hforest
      · simpa [hdone, Outcome.Kept] using handle_kept hforest request
      · have hkept := handle_kept hforest request
        rw [hrender] at hkept
        exact hkept.2.1 (hok hidle)
  | respond =>
      obtain ⟨-, ⟨-, hgroups, -⟩ | ⟨hgroups, -⟩⟩ := step_respond_cases hinv h
      · exact hgroups ▸ hforest
      · exact hgroups ▸ hinv.committed

/-- A request that moves a group below itself is carried out, and closes a cycle. -/
theorem step_closes_cycle {s : State} {label : Label} (hforest : s.groups.Forest)
    (hbad : ¬ KeepsOrder s label) :
    ∃ s', step s label = some s' ∧ ¬ Acyclic s'.groups.getParentId := by
  cases label with
  | respond => exact absurd trivial hbad
  | request request =>
      obtain ⟨hidle, hmoved⟩ : s.rendering = none ∧ MovesBelowItself s.groups request := by
        simpa [KeepsOrder] using hbad
      obtain ⟨t, child, hrender⟩ := handle_of_movesBelowItself hforest hmoved
      have hkept := handle_kept hforest request
      rw [hrender] at hkept
      refine ⟨{ s with groups := t, rendering := some child }, ?_, ?_⟩
      · simp [step, hidle, hrender]
      · exact fun hacyclic => hacyclic child (hkept.2.2 hmoved)

/-- The hierarchy that the requests read is acyclic, and the walks along it end, in every
state of a run exactly when none of its requests moves a group below itself. -/
theorem hierarchy_acyclic_iff (labels : List Label) :
    Machine.Meets step KeepsOrder init labels ↔
      ∀ pre s, pre <+: labels → Machine.run step init pre = some s →
        Acyclic s.groups.getParentId ∧ s.groups.WalksEnd := by
  refine Machine.meets_iff_forall_prefix (fun s : State => s.Inv ∧ s.groups.Forest)
    ?_ ?_ ?_ ⟨init_inv, init_forest⟩ labels
  · exact fun s h => ⟨h.2.acyclic, h.2.walksEnd⟩
  · exact fun s label s' h hok hstep =>
      ⟨step_inv h.1 hstep, step_forest h.1 h.2 hok hstep⟩
  · intro s label h hbad
    obtain ⟨s', hstep, hcyclic⟩ := step_closes_cycle h.2 hbad
    exact ⟨s', hstep, fun hgood => hcyclic hgood.1⟩

/-- Group 0 is created at the top level, group 1 below it, and then group 0 is posted as a
child of group 1. -/
def parentPostedToChild : List Label :=
  [.request (.addTopLevelGroup ⟨none, some "A"⟩ none),
    .request (.addChild 0 ⟨none, some "B"⟩),
    .respond,
    .request (.addChild 1 ⟨some 0, some "A"⟩)]

theorem parentPostedToChild_cyclic :
    ∃ s, Machine.run step init parentPostedToChild = some s ∧
      ¬ Acyclic s.groups.getParentId ∧ ∀ fuel, s.groups.buildGroupPath fuel 0 = none := by
  obtain ⟨s, hrun, hzero, hone, hrendering⟩ : ∃ s,
      Machine.run step init parentPostedToChild = some s ∧
      s.groups.getParentId 0 = some 1 ∧ s.groups.getParentId 1 = some 0 ∧
      s.rendering = some 0 := ⟨_, rfl, rfl, rfl, rfl⟩
  have hcycle : Relation.TransGen (IsParent s.groups.getParentId) 0 0 :=
    .head hzero (.single hone)
  refine ⟨s, hrun, fun hacyclic => hacyclic 0 hcycle, fun fuel => ?_⟩
  have hinv : s.Inv :=
    Machine.run_invariant_all (fun _ _ _ hinv h => step_inv hinv h) init_inv hrun
  rcases hinv.rendering 0 hrendering with hforest | ⟨hstored, -⟩
  · exact absurd hcycle (hforest.acyclic 0)
  · exact hstored.buildGroupPath_of_cycle hcycle

end Groups

end Keycloak
