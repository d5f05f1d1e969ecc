import Keycloak.Groups.GroupTree
import Keycloak.Groups.Hierarchy
import Keycloak.Lib.Split

/-!
# Group synchronisation from LDAP

`GroupLDAPStorageMapper.syncDataFromFederationProviderToKeycloak` over the table of the
groups of one realm.  With inheritance the groups of the realm are found among the
subgroups of their parent; without it each is looked up by its name as a path.

The name of an LDAP group is the value of its naming attribute, its subgroups are the
first values of their names.  `getTopLevelGroups` and `getGroups` sort by name, which is
left out.
-/

namespace Keycloak.Groups

namespace Table

def getTopLevelGroups (t : Table) : List GroupId :=
  (List.range t.nextId).filter fun id => (t.rows id).isSome ∧ t.getParentId id = none

def getGroups (t : Table) : List GroupId :=
  (List.range t.nextId).filter fun id => (t.rows id).isSome

/-! ## `KeycloakModelUtils` -/

def findSubGroup (t : Table) : List String → GroupId → Option GroupId
  | [], _ => none
  | name :: rest, parent =>
      (t.getSubGroups parent).findSome? fun group =>
        if t.getName group = some name then
          if rest = [] then some group else t.findSubGroup rest group
        else none

/-- The path without one slash at each end, split at the others. -/
def splitPath (path : String) : List String :=
  let text := path.toList
  let text := if text.head? = some '/' then text.tail else text
  let text := if text.getLast? = some '/' then text.dropLast else text
  (Split.split '/' text).map String.ofList

def findGroupByPath (t : Table) (path : String) : Option GroupId :=
  match splitPath path with
  | [] => none
  | name :: rest =>
      t.getTopLevelGroups.findSome? fun group =>
        if t.getName group = some name then
          if rest = [] then some group else t.findSubGroup rest group
        else none

end Table

namespace LdapSync

structure LDAPObject where
  name : String
  subgroups : List String
  attributes : String → Option (List String)

structure GroupMapperConfig where
  preserveGroupsInheritance : Bool
  ignoreMissingGroups : Bool
  dropNonExistingGroupsDuringSync : Bool
  groupAttributes : List String

structure Realm where
  table : Table
  attributes : GroupId → String → Option (List String)

/-- The realm, the groups visited so far, and the counts of the `SynchronizationResult`. -/
structure Sync where
  realm : Realm
  visitedGroupIds : List GroupId
  added : Nat
  updated : Nat
  removed : Nat

/-! ## `RealmModel` -/

def Realm.setAttribute (r : Realm) (group : GroupId) (name : String)
    (values : Option (List String)) : Realm :=
  { r with
    attributes := Function.update r.attributes group
      (Function.update (r.attributes group) name values) }

def Realm.createGroup (r : Realm) (name : String) : Realm where
  table := r.table.createGroup (some name)
  attributes := Function.update r.attributes r.table.nextId fun _ => none

def Realm.moveGroup (r : Realm) (group : GroupId) (toParent : Option GroupId) : Option Realm :=
  (r.table.moveGroup group toParent).map fun table => { r with table }

/-! ## `GroupLDAPStorageMapper` -/

/-- A null value removes the attribute. -/
def updateAttributesOfKCGroup (config : GroupMapperConfig) (r : Realm) (kcGroup : GroupId)
    (ldapGroup : LDAPObject) : Realm :=
  config.groupAttributes.foldl
    (fun r attrName => r.setAttribute kcGroup attrName (ldapGroup.attributes attrName)) r

def Sync.updateGroup (config : GroupMapperConfig) (s : Sync) (kcGroup : GroupId)
    (ldapGroup : LDAPObject) : Sync :=
  { s with
    realm := updateAttributesOfKCGroup config s.realm kcGroup ldapGroup
    visitedGroupIds := kcGroup :: s.visitedGroupIds
    updated := s.updated + 1 }

/-- A new group for an LDAP group, which is moved to its parent. -/
def Sync.addGroup (config : GroupMapperConfig) (s : Sync) (ldapGroup : LDAPObject)
    (kcParent : Option GroupId) : Option Sync :=
  let kcGroup := s.realm.table.nextId
  ((s.realm.createGroup ldapGroup.name).moveGroup kcGroup kcParent).map fun realm =>
    { s with
      realm := updateAttributesOfKCGroup config realm kcGroup ldapGroup
      visitedGroupIds := kcGroup :: s.visitedGroupIds
      added := s.added + 1 }

/-- The body of the loop over all groups; the counter counts a group again that was removed
with its parent. -/
def dropNonExistingKcGroup (visitedGroupIds : List GroupId) (s : Sync) (kcGroup : GroupId) :
    Option Sync :=
  if kcGroup ∈ visitedGroupIds then some s
  else (Table.removeGroup s.realm.table.nextId s.realm.table kcGroup).map fun table =>
    { s with realm := { s.realm with table }, removed := s.removed + 1 }

def dropNonExistingKcGroups (s : Sync) : Option Sync :=
  s.realm.table.getGroups.foldlM (dropNonExistingKcGroup s.visitedGroupIds) s

/-- The body of the loop without inheritance. -/
def updateFlatGroup (config : GroupMapperConfig) (s : Sync) (ldapGroup : LDAPObject) :
    Option Sync :=
  match s.realm.table.findGroupByPath ("/" ++ ldapGroup.name) with
  | some kcExistingGroup => some (s.updateGroup config kcExistingGroup ldapGroup)
  | none => s.addGroup config ldapGroup none

/-- The groups among which `updateKeycloakGroupTreeEntry` looks for an entry. -/
def subgroups (t : Table) : Option GroupId → List GroupId
  | none => t.getTopLevelGroups
  | some kcParent => t.getSubGroups kcParent

def findAt (t : Table) (kcParent : Option GroupId) (groupName : String) : Option GroupId :=
  (subgroups t kcParent).find? fun group => t.getName group = some groupName

def updateTreeGroup (config : GroupMapperConfig) (s : Sync) (groupName : String)
    (ldapGroup : LDAPObject) (kcParent : Option GroupId) : Option (GroupId × Sync) :=
  match findAt s.realm.table kcParent groupName with
  | some kcGroup => some (kcGroup, s.updateGroup config kcGroup ldapGroup)
  | none => (s.addGroup config ldapGroup kcParent).map fun s' => (s.realm.table.nextId, s')

/-- `updateKeycloakGroupTreeEntry` for one entry after the other. -/
def updateKeycloakGroupTreeEntries (config : GroupMapperConfig) (ldapGroups : List LDAPObject) :
    GroupTreeEntries → Option GroupId → Sync → Option Sync
  | .nil, _, s => some s
  | .cons groupName children rest, kcParent, s => do
      let ldapGroup ← ldapGroups.find? fun ldapGroup => ldapGroup.name = groupName
      let (kcGroup, s) ← updateTreeGroup config s groupName ldapGroup kcParent
      let s ← updateKeycloakGroupTreeEntries config ldapGroups children (some kcGroup) s
      updateKeycloakGroupTreeEntries config ldapGroups rest kcParent s

/-- `ldapGroupsRep`; the subgroups are not looked at without inheritance. -/
def ldapGroupsRep (config : GroupMapperConfig) (ldapGroups : List LDAPObject) : List Group :=
  ldapGroups.map fun ldapGroup =>
    ⟨ldapGroup.name, if config.preserveGroupsInheritance then ldapGroup.subgroups else []⟩

/-- `syncDataFromFederationProviderToKeycloak`.  `entrySet` is the order in which the
`HashMap` of the LDAP groups is iterated; no result stands for an exception. -/
def syncDataFromFederationProviderToKeycloak (config : GroupMapperConfig) (realm : Realm)
    (ldapGroups entrySet : List LDAPObject) : Option Sync := do
  let start : Sync := ⟨realm, [], 0, 0, 0⟩
  let s ←
    if config.preserveGroupsInheritance then do
      let groupTrees ← resolveGroupTree (ldapGroupsRep config ldapGroups)
        config.ignoreMissingGroups
      updateKeycloakGroupTreeEntries config ldapGroups groupTrees none start
    else entrySet.foldlM (updateFlatGroup config) start
  if config.dropNonExistingGroupsDuringSync then dropNonExistingKcGroups s else some s

end LdapSync

end Keycloak.Groups
