import Keycloak.Lib.ParentWalk

/-!
# The group hierarchy of a realm

`GroupAdapter` and `JpaRealmProvider` over the table of `GroupEntity` rows of one
realm, and the walks that other parts of the server take along the parent links.

The walks have no visited set.  Each takes fuel here, one unit for each call or each
turn of its loop, and returns nothing when the fuel is used up or when it would
dereference a missing parent.
-/

namespace Keycloak

namespace Groups

open ParentWalk

abbrev GroupId := Nat

abbrev RoleId := Nat

structure GroupEntity where
  name : Option String
  parent : Option GroupId
  deriving DecidableEq, Repr

/-- The rows of the realm.  `nextId` is the next id `generateId` has not handed out. -/
structure Table where
  rows : GroupId → Option GroupEntity
  nextId : GroupId

namespace Table

/-! ## `GroupAdapter` -/

def getGroupById (t : Table) (id : GroupId) : Option GroupId :=
  (t.rows id).map fun _ => id

def getName (t : Table) (group : GroupId) : Option String :=
  (t.rows group).bind GroupEntity.name

def getParentId (t : Table) (group : GroupId) : Option GroupId :=
  (t.rows group).bind GroupEntity.parent

def getParent (t : Table) (group : GroupId) : Option GroupId :=
  (t.getParentId group).bind t.getGroupById

/-- `getSubGroups`; the set it returns has no order of its own, here it is by id. -/
def getSubGroups (t : Table) (group : GroupId) : List GroupId :=
  (List.range t.nextId).filter fun id => t.getParentId id = some group

def modify (t : Table) (group : GroupId) (f : GroupEntity → GroupEntity) : Table :=
  { t with rows := Function.update t.rows group ((t.rows group).map f) }

def setName (t : Table) (group : GroupId) (name : String) : Table :=
  t.modify group fun e => { e with name := some name }

def setParent (t : Table) (group : GroupId) (parent : Option GroupId) : Table :=
  match parent with
  | none => t.modify group fun e => { e with parent := none }
  | some p =>
      if p = group then t
      else t.modify group fun e => { e with parent := some p }

def addChild (t : Table) (group subGroup : GroupId) : Table :=
  if subGroup = group then t else t.setParent subGroup (some group)

def removeChild (t : Table) (group subGroup : GroupId) : Table :=
  if subGroup = group then t else t.setParent subGroup none

/-! ## `JpaRealmProvider` -/

def addTopLevelGroup (t : Table) (subGroup : GroupId) : Table :=
  t.setParent subGroup none

/-- `group.getParent().removeChild(group)`, if the group has a parent id; no result when
the parent itself is missing. -/
def leaveParent (t : Table) (group : GroupId) : Option Table :=
  match t.getParentId group with
  | some _ => (t.getParent group).map fun parent => t.removeChild parent group
  | none => some t

def moveGroup (t : Table) (group : GroupId) (toParent : Option GroupId) : Option Table :=
  if toParent = some group then some t
  else (t.leaveParent group).map fun t =>
    let t := t.setParent group toParent
    match toParent with
    | some parent => t.addChild parent group
    | none => t.addTopLevelGroup group

/-- The table with the new row, whose id is the old `nextId`. -/
def createGroup (t : Table) (name : Option String) : Table :=
  { rows := Function.update t.rows t.nextId (some { name, parent := none })
    nextId := t.nextId + 1 }

def remove (t : Table) (group : GroupId) : Table :=
  { t with rows := Function.update t.rows group none }

/-- `removeGroup` removes the subgroups first, each in the same way. -/
def removeGroup : Nat → Table → GroupId → Option Table
  | 0, _, _ => none
  | fuel + 1, t, group => do
      let t ← (t.getSubGroups group).foldlM (removeGroup fuel) t
      return t.remove group

def topLevelOf (t : Table) : Nat → GroupId → Option GroupId
  | 0, _ => none
  | fuel + 1, group =>
      match t.getParentId group with
      | some parentId => (t.getGroupById parentId).bind (t.topLevelOf fuel)
      | none => some group

/-- `searchForGroupByName` over the ids that the named query returns, before the
result is sorted by name. -/
def searchForGroupByName (t : Table) (fuel : Nat) (groups : List GroupId) :
    Option (List GroupId) :=
  groups.foldlM (fun list id => do
    let group ← t.getGroupById id
    let group ← t.topLevelOf fuel group
    return if group ∈ list then list else list ++ [group]) []

/-! ## The walks of `ModelToRepresentation`, `RoleUtils` and `TokenManager` -/

/-- `buildGroupPath`; a missing name is appended as the text of a null reference. -/
def buildGroupPath (t : Table) : Nat → GroupId → Option String
  | 0, _ => none
  | fuel + 1, group =>
      let last := "/" ++ (t.getName group).getD "null"
      match t.getParent group with
      | some parent => (t.buildGroupPath fuel parent).map (· ++ last)
      | none => some last

/-- `toGroupHierarchy`: the paths of the group and of everything below it. -/
def toGroupHierarchy (t : Table) : Nat → GroupId → Option (List String)
  | 0, _ => none
  | fuel + 1, group => do
      let path ← t.buildGroupPath t.nextId group
      let subGroups ← (t.getSubGroups group).mapM (t.toGroupHierarchy fuel)
      return path :: subGroups.flatten

def isMemberFrom (t : Table) (targetGroup : GroupId) : Nat → GroupId → Option Bool
  | 0, _ => none
  | fuel + 1, child =>
      match t.getParent child with
      | some parent =>
          if parent = targetGroup then some true else t.isMemberFrom targetGroup fuel parent
      | none => some false

def isMember (t : Table) (fuel : Nat) (groups : List GroupId) (targetGroup : GroupId) :
    Option Bool :=
  if targetGroup ∈ groups then some true
  else groups.foldlM
    (fun found mapping => if found then some true else t.isMemberFrom targetGroup fuel mapping)
    false

/-- `hasRoleFromGroup` for one group; `hasRole` is `GroupModel.hasRole`. -/
def hasRoleFromGroup (t : Table) (hasRole : GroupId → RoleId → Bool) (targetRole : RoleId)
    (checkParentGroup : Bool) : Nat → GroupId → Option Bool
  | 0, _ => none
  | fuel + 1, group =>
      if hasRole group targetRole then some true
      else if checkParentGroup then
        match t.getParent group with
        | some parent => t.hasRoleFromGroup hasRole targetRole true fuel parent
        | none => some false
      else some false

/-- `addGroupRoles`; `getRoleMappings` is the method of `GroupModel`. -/
def addGroupRoles (t : Table) (getRoleMappings : GroupId → List RoleId) :
    Nat → GroupId → List RoleId → Option (List RoleId)
  | 0, _, _ => none
  | fuel + 1, group, roleMappings =>
      let roleMappings := roleMappings ++ getRoleMappings group
      match t.getParentId group with
      | none => some roleMappings
      | some _ => (t.getParent group).bind fun parent =>
          t.addGroupRoles getRoleMappings fuel parent roleMappings

end Table

/-! ## What the operations do to the parent links -/

namespace Table

def Exists (t : Table) (group : GroupId) : Prop :=
  (t.rows group).isSome

instance (t : Table) (group : GroupId) : Decidable (t.Exists group) :=
  inferInstanceAs (Decidable (_ = true))

/-- Every parent link ends in a row, and no row has an id not handed out yet. -/
structure Stored (t : Table) : Prop where
  parent_exists : ∀ {group parent}, t.getParentId group = some parent → t.Exists parent
  lt_nextId : ∀ {group}, t.Exists group → group < t.nextId

/-- The tables in which the hierarchy is a forest. -/
structure Forest (t : Table) : Prop extends Stored t where
  acyclic : Acyclic t.getParentId

theorem exists_of_getParentId {t : Table} {group parent : GroupId}
    (h : t.getParentId group = some parent) : t.Exists group := by
  obtain ⟨e, he, _⟩ := Option.bind_eq_some_iff.mp h
  simp [Exists, he]

theorem getGroupById_eq {t : Table} {group : GroupId} (h : t.Exists group) :
    t.getGroupById group = some group := by
  obtain ⟨e, he⟩ := Option.isSome_iff_exists.mp h
  simp [getGroupById, he]

theorem Stored.getParent_eq {t : Table} (h : t.Stored) (group : GroupId) :
    t.getParent group = t.getParentId group := by
  cases hparent : t.getParentId group with
  | none => rw [getParent, hparent, Option.bind_none]
  | some parent =>
      rw [getParent, hparent, Option.bind_some, getGroupById_eq (h.parent_exists hparent)]

theorem Stored.mem_getSubGroups {t : Table} (h : t.Stored) {group sub : GroupId} :
    sub ∈ t.getSubGroups group ↔ t.getParentId sub = some group := by
  simp only [getSubGroups, List.mem_filter, List.mem_range, decide_eq_true_eq]
  exact ⟨fun hmem => hmem.2, fun hparent => ⟨h.lt_nextId (exists_of_getParentId hparent), hparent⟩⟩

theorem exists_modify (t : Table) (group x : GroupId) (f : GroupEntity → GroupEntity) :
    (t.modify group f).Exists x ↔ t.Exists x := by
  unfold Exists modify
  rcases eq_or_ne x group with rfl | hne
  · simp
  · simp [Function.update_of_ne hne]

theorem getParentId_modify {t : Table} {group : GroupId} (h : t.Exists group)
    {f : GroupEntity → GroupEntity} {parent : Option GroupId} (hf : ∀ e, (f e).parent = parent) :
    (t.modify group f).getParentId = Function.update t.getParentId group parent := by
  obtain ⟨e, he⟩ := Option.isSome_iff_exists.mp h
  funext x
  rcases eq_or_ne x group with rfl | hne
  · simp [getParentId, modify, he, hf]
  · simp [getParentId, modify, Function.update_of_ne hne]

theorem getParentId_setName (t : Table) (group : GroupId) (name : String) :
    (t.setName group name).getParentId = t.getParentId := by
  funext x
  rcases eq_or_ne x group with rfl | hne
  · simp only [getParentId, setName, modify, Function.update_self, Option.bind_map]
    rfl
  · simp [getParentId, setName, modify, Function.update_of_ne hne]

/-- `setParent`, `addChild` and `removeChild` change nothing but the parent links. -/
structure SameRows (t t' : Table) : Prop where
  nextId : t'.nextId = t.nextId
  exists_iff : ∀ x, t'.Exists x ↔ t.Exists x

theorem SameRows.trans {t t' t'' : Table} (h : SameRows t t') (h' : SameRows t' t'') :
    SameRows t t'' :=
  ⟨h'.nextId.trans h.nextId, fun x => (h'.exists_iff x).trans (h.exists_iff x)⟩

theorem sameRows_modify (t : Table) (group : GroupId) (f : GroupEntity → GroupEntity) :
    SameRows t (t.modify group f) :=
  ⟨rfl, fun x => exists_modify t group x f⟩

theorem sameRows_setParent (t : Table) (group : GroupId) (parent : Option GroupId) :
    SameRows t (t.setParent group parent) := by
  cases parent with
  | none => exact sameRows_modify ..
  | some p =>
      rw [setParent]
      split
      · exact ⟨rfl, fun _ => Iff.rfl⟩
      · exact sameRows_modify ..

theorem getParentId_setParent {t : Table} {group : GroupId} {parent : Option GroupId}
    (h : t.Exists group) (hself : parent ≠ some group) :
    (t.setParent group parent).getParentId = Function.update t.getParentId group parent := by
  cases parent with
  | none => exact getParentId_modify h fun _ => rfl
  | some p =>
      have hne : p ≠ group := fun heq => hself (congrArg some heq)
      rw [setParent, if_neg hne]
      exact getParentId_modify h fun _ => rfl

theorem leaveParent_spec {t : Table} {group : GroupId} (hstored : t.Stored)
    (hgroup : t.Exists group) :
    ∃ t', t.leaveParent group = some t' ∧ SameRows t t' ∧
      ∀ p, Function.update t'.getParentId group p = Function.update t.getParentId group p := by
  rw [leaveParent]
  cases hparent : t.getParentId group with
  | none => exact ⟨t, rfl, ⟨rfl, fun _ => Iff.rfl⟩, fun _ => rfl⟩
  | some parent =>
      refine ⟨t.removeChild parent group, ?_, ?_, fun p => ?_⟩
      · rw [hstored.getParent_eq, hparent, Option.map_some]
      · rw [removeChild]
        split
        · exact ⟨rfl, fun _ => Iff.rfl⟩
        · exact sameRows_setParent ..
      · rw [removeChild]
        split
        · rfl
        · rw [getParentId_setParent hgroup (by simp), Function.update_idem]

theorem moveGroup_spec {t : Table} {group : GroupId} {toParent : Option GroupId}
    (hstored : t.Stored) (hgroup : t.Exists group) (hself : toParent ≠ some group) :
    ∃ t', t.moveGroup group toParent = some t' ∧ SameRows t t' ∧
      t'.getParentId = Function.update t.getParentId group toParent := by
  obtain ⟨t₁, heq, hrows₁, hparents₁⟩ := leaveParent_spec hstored hgroup
  have hgroup₁ : t₁.Exists group := (hrows₁.exists_iff group).mpr hgroup
  have hrows₂ := sameRows_setParent t₁ group toParent
  have hparents₂ := getParentId_setParent hgroup₁ hself
  have hgroup₂ := (hrows₂.exists_iff group).mpr hgroup₁
  rw [moveGroup, if_neg hself, heq]
  cases toParent with
  | none =>
      refine ⟨(t₁.setParent group none).addTopLevelGroup group, rfl,
        (hrows₁.trans hrows₂).trans (sameRows_setParent ..), ?_⟩
      rw [addTopLevelGroup, getParentId_setParent hgroup₂ hself, hparents₂,
        Function.update_idem, hparents₁]
  | some p =>
      have hne : group ≠ p := fun h => hself (congrArg some h.symm)
      refine ⟨(t₁.setParent group (some p)).addChild p group, rfl,
        (hrows₁.trans hrows₂).trans ?_, ?_⟩
      · rw [addChild, if_neg hne]
        exact sameRows_setParent ..
      · rw [addChild, if_neg hne, getParentId_setParent hgroup₂ hself, hparents₂,
          Function.update_idem, hparents₁]

end Table

/-! ## The operations and the forest -/

namespace Table

theorem Stored.of_sameRows {t t' : Table} (h : t.Stored) (hrows : SameRows t t')
    (hparent : ∀ {group parent}, t'.getParentId group = some parent → t.Exists parent) :
    t'.Stored where
  parent_exists hlink := (hrows.exists_iff _).mpr (hparent hlink)
  lt_nextId hexists := hrows.nextId ▸ h.lt_nextId ((hrows.exists_iff _).mp hexists)

theorem Stored.moveGroup {t t' : Table} {group : GroupId} {toParent : Option GroupId}
    (h : t.Stored) (hrows : SameRows t t')
    (hlinks : t'.getParentId = Function.update t.getParentId group toParent)
    (hto : ∀ p, toParent = some p → t.Exists p) : t'.Stored := by
  refine h.of_sameRows hrows fun {x p} hlink => ?_
  rw [hlinks] at hlink
  rcases eq_or_ne x group with rfl | hne
  · rw [Function.update_self] at hlink
    exact hto p hlink
  · rw [Function.update_of_ne hne] at hlink
    exact h.parent_exists hlink

theorem Forest.setName {t : Table} (h : t.Forest) (group : GroupId) (name : String) :
    (t.setName group name).Forest := by
  have hlinks := getParentId_setName t group name
  refine ⟨h.toStored.of_sameRows (sameRows_modify ..) fun hlink => ?_, hlinks ▸ h.acyclic⟩
  rw [hlinks] at hlink
  exact h.parent_exists hlink

theorem exists_createGroup (t : Table) (name : Option String) (x : GroupId) :
    (t.createGroup name).Exists x ↔ x = t.nextId ∨ t.Exists x := by
  unfold Exists createGroup
  rcases eq_or_ne x t.nextId with rfl | hne
  · simp
  · simp [hne]

theorem Stored.getParentId_createGroup {t : Table} (h : t.Stored) (name : Option String) :
    (t.createGroup name).getParentId = t.getParentId := by
  funext x
  rcases eq_or_ne x t.nextId with rfl | hne
  · have hnone : t.rows t.nextId = none := by
      rw [← Option.not_isSome_iff_eq_none]
      exact fun hexists => Nat.lt_irrefl _ (h.lt_nextId hexists)
    simp [getParentId, createGroup, hnone]
  · simp [getParentId, createGroup, Function.update_of_ne hne]

theorem Forest.createGroup {t : Table} (h : t.Forest) (name : Option String) :
    (t.createGroup name).Forest := by
  have hlinks := h.getParentId_createGroup name
  refine ⟨⟨fun hlink => ?_, fun {x} hexists => ?_⟩, hlinks ▸ h.acyclic⟩
  · rw [hlinks] at hlink
    exact (exists_createGroup ..).mpr (.inr (h.parent_exists hlink))
  · rcases (exists_createGroup ..).mp hexists with rfl | hold
    · exact Nat.lt_succ_self _
    · exact Nat.lt_succ_of_lt (h.lt_nextId hold)

/-! `removeGroup` takes whole subtrees away. -/

/-- The rows of `t'` are rows of `t`, and no link into a row that went away is left. -/
structure Pruned (t t' : Table) : Prop where
  nextId : t'.nextId = t.nextId
  rows : ∀ x, t'.Exists x → t'.rows x = t.rows x
  stored : t.Stored → t'.Stored

theorem Pruned.refl (t : Table) : Pruned t t :=
  ⟨rfl, fun _ _ => rfl, fun h => h⟩

theorem Pruned.exists_of {t t' : Table} (h : Pruned t t') {x : GroupId} (hx : t'.Exists x) :
    t.Exists x := by
  rw [Exists, ← h.rows x hx]
  exact hx

theorem Pruned.trans {t t' t'' : Table} (h : Pruned t t') (h' : Pruned t' t'') :
    Pruned t t'' :=
  ⟨h'.nextId.trans h.nextId, fun x hx => (h'.rows x hx).trans (h.rows x (h'.exists_of hx)),
    fun hstored => h'.stored (h.stored hstored)⟩

theorem Pruned.getParentId {t t' : Table} (h : Pruned t t') {x p : GroupId}
    (hlink : t'.getParentId x = some p) : t.getParentId x = some p := by
  rw [Table.getParentId, ← h.rows x (exists_of_getParentId hlink)]
  exact hlink

theorem Forest.pruned {t t' : Table} (h : t.Forest) (hpruned : Pruned t t') : t'.Forest :=
  ⟨hpruned.stored h.toStored, h.acyclic.mono fun _ _ => hpruned.getParentId⟩

theorem exists_remove (t : Table) (group x : GroupId) :
    (t.remove group).Exists x ↔ x ≠ group ∧ t.Exists x := by
  unfold Exists remove
  rcases eq_or_ne x group with rfl | hne
  · simp
  · simp [hne]

theorem pruned_remove {t : Table} {group : GroupId}
    (hleaf : ∀ x, t.getParentId x ≠ some group) : Pruned t (t.remove group) := by
  have hrows : ∀ x, (t.remove group).Exists x → (t.remove group).rows x = t.rows x :=
    fun x hx => Function.update_of_ne ((exists_remove t group x).mp hx).1 ..
  refine ⟨rfl, hrows, fun hstored => ⟨fun {x p} hlink => ?_, fun {x} hx => ?_⟩⟩
  · rw [getParentId, hrows x (exists_of_getParentId hlink)] at hlink
    refine (exists_remove ..).mpr ⟨?_, hstored.parent_exists hlink⟩
    rintro rfl
    exact hleaf x hlink
  · exact hstored.lt_nextId ((exists_remove ..).mp hx).2

end Table

namespace Table

theorem foldlM_removeGroup_pruned {fuel : Nat}
    (ih : ∀ {t t' : Table} {group}, removeGroup fuel t group = some t' → t.Stored →
      Pruned t t' ∧ ¬ t'.Exists group)
    {subGroups : List GroupId} {t t' : Table}
    (h : subGroups.foldlM (removeGroup fuel) t = some t') (hstored : t.Stored) :
    Pruned t t' ∧ ∀ sub ∈ subGroups, ¬ t'.Exists sub := by
  induction subGroups generalizing t with
  | nil =>
      cases h
      exact ⟨Pruned.refl _, by simp⟩
  | cons sub rest ihrest =>
      rw [List.foldlM_cons] at h
      obtain ⟨t₁, hsub, hrest⟩ := Option.bind_eq_some_iff.mp h
      obtain ⟨hpruned₁, hgone⟩ := ih hsub hstored
      obtain ⟨hpruned, hgones⟩ := ihrest hrest (hpruned₁.stored hstored)
      refine ⟨hpruned₁.trans hpruned, fun x hx => ?_⟩
      rcases List.mem_cons.mp hx with rfl | hmem
      · exact fun hexists => hgone (hpruned.exists_of hexists)
      · exact hgones x hmem

theorem removeGroup_pruned {fuel : Nat} {t t' : Table} {group : GroupId}
    (h : removeGroup fuel t group = some t') (hstored : t.Stored) :
    Pruned t t' ∧ ¬ t'.Exists group := by
  induction fuel generalizing t t' group with
  | zero => cases h
  | succ fuel ih =>
      rw [removeGroup] at h
      obtain ⟨t₁, hfold, heq⟩ := Option.bind_eq_some_iff.mp h
      cases heq
      obtain ⟨hpruned₁, hgones⟩ := foldlM_removeGroup_pruned ih hfold hstored
      have hleaf : ∀ x, t₁.getParentId x ≠ some group := by
        intro x hlink
        have hsub := hstored.mem_getSubGroups.mpr (hpruned₁.getParentId hlink)
        exact hgones x hsub (exists_of_getParentId hlink)
      refine ⟨hpruned₁.trans (pruned_remove hleaf), fun hexists => ?_⟩
      exact ((exists_remove ..).mp hexists).1 rfl

theorem foldlM_removeGroup_isSome {fuel : Nat} {t₀ t : Table} {subGroups : List GroupId}
    (hsubs : ∀ sub ∈ subGroups, ∀ t, Pruned t₀ t → (removeGroup fuel t sub).isSome)
    (hstored : t₀.Stored) (hpruned : Pruned t₀ t) :
    (subGroups.foldlM (removeGroup fuel) t).isSome := by
  induction subGroups generalizing t with
  | nil => rfl
  | cons sub rest ih =>
      obtain ⟨t₁, hsub⟩ :=
        Option.isSome_iff_exists.mp (hsubs sub List.mem_cons_self t hpruned)
      have hpruned₁ := (removeGroup_pruned hsub (hpruned.stored hstored)).1
      rw [List.foldlM_cons, hsub]
      exact ih (fun sub' hmem => hsubs sub' (List.mem_cons_of_mem sub hmem))
        (hpruned.trans hpruned₁)

theorem Forest.removeGroup_isSome {t : Table} (h : t.Forest) {group : GroupId}
    (hgroup : t.Exists group) {fuel : Nat} (hfuel : t.nextId ≤ fuel) :
    (removeGroup fuel t group).isSome := by
  suffices hall : ∀ t', Pruned t t' → (removeGroup fuel t' group).isSome from
    hall t (Pruned.refl t)
  refine h.acyclic.downward
    (P := fun fuel group => ∀ t', Pruned t t' → (removeGroup fuel t' group).isSome)
    (fun x _ hlink => h.lt_nextId (exists_of_getParentId hlink)) ?_ (h.lt_nextId hgroup) hfuel
  intro fuel group ih t' hpruned
  have hfold : ((t'.getSubGroups group).foldlM (removeGroup fuel) t').isSome := by
    refine foldlM_removeGroup_isSome (fun sub hsub => ?_) h.toStored hpruned
    have hlink := (hpruned.stored h.toStored).mem_getSubGroups.mp hsub
    exact ih sub (hpruned.getParentId hlink)
  obtain ⟨t₁, heq⟩ := Option.isSome_iff_exists.mp hfold
  rw [removeGroup, heq]
  rfl

/-! ## In a forest the walks end -/

/-- Every walk along the parent links returns, with as much fuel as ids were handed out. -/
structure WalksEnd (t : Table) : Prop where
  buildGroupPath : ∀ fuel, t.nextId ≤ fuel → ∀ group, t.Exists group →
    (t.buildGroupPath fuel group).isSome
  isMember : ∀ fuel, t.nextId ≤ fuel → ∀ groups targetGroup,
    (∀ group ∈ groups, t.Exists group) → (t.isMember fuel groups targetGroup).isSome
  hasRoleFromGroup : ∀ fuel, t.nextId ≤ fuel → ∀ hasRole targetRole checkParentGroup group,
    t.Exists group → (t.hasRoleFromGroup hasRole targetRole checkParentGroup fuel group).isSome
  addGroupRoles : ∀ fuel, t.nextId ≤ fuel → ∀ getRoleMappings roleMappings group,
    t.Exists group → (t.addGroupRoles getRoleMappings fuel group roleMappings).isSome
  searchForGroupByName : ∀ fuel, t.nextId ≤ fuel → ∀ groups,
    (∀ group ∈ groups, t.Exists group) → (t.searchForGroupByName fuel groups).isSome

theorem foldlM_isSome {α β : Type} {f : β → α → Option β} {xs : List α}
    (h : ∀ x ∈ xs, ∀ b, (f b x).isSome) (b : β) : (xs.foldlM f b).isSome := by
  induction xs generalizing b with
  | nil => rfl
  | cons x rest ih =>
      obtain ⟨b', hb'⟩ := Option.isSome_iff_exists.mp (h x List.mem_cons_self b)
      rw [List.foldlM_cons, hb']
      exact ih (fun y hy => h y (List.mem_cons_of_mem x hy)) b'

section Walks

variable {t : Table} {fuel : Nat} {group : GroupId}

/-- Induction along the parent links of a forest. -/
theorem Forest.walk (h : t.Forest) {P : Nat → GroupId → Prop}
    (hstep : ∀ fuel group, (∀ p, t.getParentId group = some p → P fuel p) → P (fuel + 1) group)
    (hgroup : t.Exists group) (hfuel : t.nextId ≤ fuel) : P fuel group :=
  h.acyclic.upward (fun _ _ hlink => h.lt_nextId (h.parent_exists hlink)) hstep
    (h.lt_nextId hgroup) hfuel

theorem Forest.buildGroupPath_isSome (h : t.Forest) (hgroup : t.Exists group)
    (hfuel : t.nextId ≤ fuel) : (t.buildGroupPath fuel group).isSome := by
  refine h.walk (P := fun fuel group => (t.buildGroupPath fuel group).isSome)
    (fun fuel group ih => ?_) hgroup hfuel
  rw [buildGroupPath, h.getParent_eq]
  cases hparent : t.getParentId group with
  | none => rfl
  | some parent => simpa using ih parent hparent

theorem Forest.isMemberFrom_isSome (h : t.Forest) (targetGroup : GroupId)
    (hgroup : t.Exists group) (hfuel : t.nextId ≤ fuel) :
    (t.isMemberFrom targetGroup fuel group).isSome := by
  refine h.walk (P := fun fuel group => (t.isMemberFrom targetGroup fuel group).isSome)
    (fun fuel group ih => ?_) hgroup hfuel
  rw [isMemberFrom, h.getParent_eq]
  cases hparent : t.getParentId group with
  | none => rfl
  | some parent =>
      dsimp only
      split
      · rfl
      · exact ih parent hparent

theorem Forest.isMember_isSome (h : t.Forest) {groups : List GroupId} (targetGroup : GroupId)
    (hgroups : ∀ group ∈ groups, t.Exists group) (hfuel : t.nextId ≤ fuel) :
    (t.isMember fuel groups targetGroup).isSome := by
  rw [isMember]
  split
  · rfl
  · refine foldlM_isSome (fun mapping hmem found => ?_) false
    cases found with
    | true => rfl
    | false => exact h.isMemberFrom_isSome targetGroup (hgroups mapping hmem) hfuel

theorem Forest.hasRoleFromGroup_isSome (h : t.Forest) (hasRole : GroupId → RoleId → Bool)
    (targetRole : RoleId) (checkParentGroup : Bool) (hgroup : t.Exists group)
    (hfuel : t.nextId ≤ fuel) :
    (t.hasRoleFromGroup hasRole targetRole checkParentGroup fuel group).isSome := by
  refine h.walk (P := fun fuel group => ∀ checkParentGroup,
    (t.hasRoleFromGroup hasRole targetRole checkParentGroup fuel group).isSome)
    (fun fuel group ih checkParentGroup => ?_) hgroup hfuel checkParentGroup
  rw [hasRoleFromGroup, h.getParent_eq]
  split
  · rfl
  · split
    · cases hparent : t.getParentId group with
      | none => rfl
      | some parent => exact ih parent hparent true
    · rfl

theorem Forest.addGroupRoles_isSome (h : t.Forest) (getRoleMappings : GroupId → List RoleId)
    (roleMappings : List RoleId) (hgroup : t.Exists group) (hfuel : t.nextId ≤ fuel) :
    (t.addGroupRoles getRoleMappings fuel group roleMappings).isSome := by
  refine h.walk (P := fun fuel group => ∀ roleMappings,
    (t.addGroupRoles getRoleMappings fuel group roleMappings).isSome)
    (fun fuel group ih roleMappings => ?_) hgroup hfuel roleMappings
  rw [addGroupRoles, h.getParent_eq]
  cases hparent : t.getParentId group with
  | none => rfl
  | some parent => exact ih parent hparent _

theorem Forest.topLevelOf_isSome (h : t.Forest) (hgroup : t.Exists group)
    (hfuel : t.nextId ≤ fuel) : (t.topLevelOf fuel group).isSome := by
  refine h.walk (P := fun fuel group => (t.topLevelOf fuel group).isSome)
    (fun fuel group ih => ?_) hgroup hfuel
  rw [topLevelOf]
  cases hparent : t.getParentId group with
  | none => rfl
  | some parent =>
      dsimp only
      rw [getGroupById_eq (h.parent_exists hparent)]
      exact ih parent hparent

theorem Forest.searchForGroupByName_isSome (h : t.Forest) {groups : List GroupId}
    (hgroups : ∀ group ∈ groups, t.Exists group) (hfuel : t.nextId ≤ fuel) :
    (t.searchForGroupByName fuel groups).isSome := by
  refine foldlM_isSome (fun id hmem list => ?_) []
  obtain ⟨top, htop⟩ :=
    Option.isSome_iff_exists.mp (h.topLevelOf_isSome (hgroups id hmem) hfuel)
  rw [getGroupById_eq (hgroups id hmem), Option.bind_eq_bind, Option.bind_some, htop]
  rfl

theorem mapM_isSome {α β : Type} {f : α → Option β} {xs : List α} (h : ∀ x ∈ xs, (f x).isSome) :
    (xs.mapM f).isSome := by
  induction xs with
  | nil => rfl
  | cons x rest ih =>
      obtain ⟨y, hy⟩ := Option.isSome_iff_exists.mp (h x List.mem_cons_self)
      obtain ⟨ys, hys⟩ :=
        Option.isSome_iff_exists.mp (ih fun x' hx' => h x' (List.mem_cons_of_mem x hx'))
      rw [List.mapM_cons, hy, hys]
      rfl

theorem Forest.toGroupHierarchy_isSome (h : t.Forest) (hgroup : t.Exists group)
    (hfuel : t.nextId ≤ fuel) : (t.toGroupHierarchy fuel group).isSome := by
  refine h.acyclic.downward
    (P := fun fuel group => t.Exists group → (t.toGroupHierarchy fuel group).isSome)
    (fun _ _ hlink => h.lt_nextId (exists_of_getParentId hlink)) ?_ (h.lt_nextId hgroup)
    hfuel hgroup
  intro fuel group ih hgroup
  obtain ⟨path, hpath⟩ :=
    Option.isSome_iff_exists.mp (h.buildGroupPath_isSome hgroup (Nat.le_refl t.nextId))
  have hsubs : ((t.getSubGroups group).mapM (t.toGroupHierarchy fuel)).isSome := by
    refine mapM_isSome fun sub hsub => ?_
    have hlink := h.mem_getSubGroups.mp hsub
    exact ih sub hlink (exists_of_getParentId hlink)
  obtain ⟨paths, hpaths⟩ := Option.isSome_iff_exists.mp hsubs
  rw [toGroupHierarchy, hpath, hpaths]
  rfl

/-- A group on a cycle has no path, whatever the fuel. -/
theorem Stored.buildGroupPath_of_cycle (h : t.Stored)
    (hcycle : Relation.TransGen (IsParent t.getParentId) group group) :
    t.buildGroupPath fuel group = none := by
  induction fuel generalizing group with
  | zero => rfl
  | succ fuel ih =>
      obtain ⟨parent, hlink, hback⟩ := Relation.TransGen.head'_iff.mp hcycle
      have hparent : Relation.TransGen (IsParent t.getParentId) parent parent :=
        Relation.TransGen.tail' hback hlink
      rw [buildGroupPath, h.getParent_eq, hlink]
      simp only [ih hparent, Option.map_none]

theorem Stored.toGroupHierarchy_of_cycle (h : t.Stored)
    (hcycle : Relation.TransGen (IsParent t.getParentId) group group) :
    t.toGroupHierarchy fuel group = none := by
  cases fuel with
  | zero => rfl
  | succ fuel =>
      rw [toGroupHierarchy, h.buildGroupPath_of_cycle hcycle]
      rfl

theorem Forest.walksEnd (h : t.Forest) : t.WalksEnd where
  buildGroupPath _ hfuel _ hgroup := h.buildGroupPath_isSome hgroup hfuel
  isMember _ hfuel _ targetGroup hgroups := h.isMember_isSome targetGroup hgroups hfuel
  hasRoleFromGroup _ hfuel hasRole targetRole check _ hgroup :=
    h.hasRoleFromGroup_isSome hasRole targetRole check hgroup hfuel
  addGroupRoles _ hfuel mappings acc _ hgroup :=
    h.addGroupRoles_isSome mappings acc hgroup hfuel
  searchForGroupByName _ hfuel _ hgroups := h.searchForGroupByName_isSome hgroups hfuel

end Walks

end Table

end Groups

end Keycloak
