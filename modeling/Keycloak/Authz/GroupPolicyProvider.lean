import Keycloak.Authz.Evaluation
import Keycloak.Groups.GroupPaths

/-!
# Group policies

`GroupPolicyProvider` compares the paths of the identity's groups with the paths of the groups
that the policy defines, and a definition that extends to the subgroups takes every path that
starts with the text of its own.
-/

namespace Keycloak.Authz.GroupPolicyProvider

open Keycloak.Groups

structure GroupDefinition where
  id : GroupId
  extendChildren : Bool
  deriving DecidableEq, Repr

structure GroupIdentity where
  claim : Option (List String)
  groups : List GroupId

section

variable (t : Table) (fuel : Nat)

def getUserGroups (identity : GroupIdentity) : Option (List String) :=
  identity.groups.mapM (t.buildGroupPath fuel)

def groupsClaim (identity : GroupIdentity) : Option (List String) :=
  match identity.claim with
  | none => getUserGroups t fuel identity
  | some values => if values.isEmpty then getUserGroups t fuel identity else some values

def startsWith (group allowedGroupPath : String) : Bool :=
  decide (allowedGroupPath.toList <+: group.toList)

/-- The turn for one group of the claim; `none` is a null pointer, for a definition of a group
that is no longer there. -/
def matchesGroup (definition : GroupDefinition) (group : String) : Option Bool :=
  match t.getGroupById definition.id with
  | none => none
  | some allowedGroup =>
      if group.toList.contains '/' then
        (t.buildGroupPath fuel allowedGroup).map fun allowedGroupPath =>
          if group = allowedGroupPath ||
              (definition.extendChildren && startsWith group allowedGroupPath) then true
          else some group = t.getName allowedGroup
      else some (some group = t.getName allowedGroup)

def matchesAny (definition : GroupDefinition) : List String → Option Bool
  | [] => some false
  | group :: rest => do
      if ← matchesGroup t fuel definition group then return true
      matchesAny definition rest

def evaluateGroups (groups : List String) : List GroupDefinition → Option (List Call)
  | [] => some []
  | definition :: rest => do
      if ← matchesAny t fuel definition groups then return [.grant]
      evaluateGroups groups rest

def evaluate (definitions : List GroupDefinition) (identity : GroupIdentity) :
    Option (List Call) := do
  let groups ← groupsClaim t fuel identity
  evaluateGroups t fuel groups definitions

end

section

variable (t : Table)

/-- The definition names the group, or extends to it from above. -/
def Covers (definition : GroupDefinition) (group : GroupId) : Prop :=
  definition.id = group ∨ (definition.extendChildren = true ∧ t.Above definition.id group)

/-- The definition extends to the group by the name of a sibling only. -/
def Overreaches (definition : GroupDefinition) (group : GroupId) : Prop :=
  definition.extendChildren = true ∧ t.Exists definition.id ∧ t.Extended definition.id group

/-- The definitions before the first one whose group is not there. -/
def reached (definitions : List GroupDefinition) : List GroupDefinition :=
  definitions.takeWhile fun definition => decide (t.Exists definition.id)

/-- The identity's groups exist, and a claim with values gives their paths. -/
structure GivesPaths (fuel : Nat) (identity : GroupIdentity) : Prop where
  exist : ∀ group ∈ identity.groups, t.Exists group
  claim : ∀ values, identity.claim = some values → values ≠ [] →
    getUserGroups t fuel identity = some values

/-- The policy grants to exactly those who are in a group that a definition covers. -/
def GrantsCovered (fuel : Nat) (definitions : List GroupDefinition) (identity : GroupIdentity) :
    Prop :=
  evaluate t fuel definitions identity = some [.grant] ↔
    ∃ definition ∈ definitions, ∃ group ∈ identity.groups, Covers t definition group

end

section

variable {t : Table} {fuel : Nat}

theorem groupsClaim_eq {identity : GroupIdentity} (h : GivesPaths t fuel identity) :
    groupsClaim t fuel identity = getUserGroups t fuel identity := by
  rw [groupsClaim]
  cases hclaim : identity.claim with
  | none => rfl
  | some values =>
      cases values with
      | nil => rfl
      | cons value rest => exact (h.claim _ hclaim (List.cons_ne_nil _ _)).symm

theorem getGroupById_eq_none {id : GroupId} (h : ¬ t.Exists id) : t.getGroupById id = none := by
  rw [Table.Exists, Option.not_isSome_iff_eq_none] at h
  rw [Table.getGroupById, h]
  rfl

theorem slash_mem_path (h : t.Forest) {group : GroupId} (hgroup : t.Exists group) :
    '/' ∈ t.path group := by
  rw [h.path_eq hgroup]
  exact List.mem_append_right _ List.mem_cons_self

theorem path_ne_name (h : t.Named) {group : GroupId} (hgroup : t.Exists group) {text : String}
    (hslash : '/' ∈ text.toList) : some text ≠ t.getName group := by
  intro hname
  have hfree := h.slash_free hgroup
  rw [Table.label, ← hname] at hfree
  exact hfree hslash

theorem matchesGroup_eq (h : t.Named) (hfuel : t.nextId ≤ fuel) {definition : GroupDefinition}
    (hdefinition : t.Exists definition.id) {group : GroupId} (hgroup : t.Exists group)
    {text : String} (htext : t.buildGroupPath fuel group = some text) :
    ∃ taken, matchesGroup t fuel definition text = some taken ∧
      (taken = true ↔ Covers t definition group ∨ Overreaches t definition group) := by
  obtain ⟨allowed, hallowed, hallowedPath⟩ := h.exists_path hfuel hdefinition
  have hpath : text.toList = t.path group := by
    obtain ⟨text', htext', hpath⟩ := h.exists_path hfuel hgroup
    rw [htext] at htext'
    exact Option.some.inj htext' ▸ hpath
  have hslash : '/' ∈ text.toList := hpath ▸ slash_mem_path h.toForest hgroup
  have hname := path_ne_name h hdefinition hslash
  have hself : text = allowed ↔ definition.id = group := by
    rw [← String.toList_inj, hpath, hallowedPath]
    exact ⟨fun heq => (h.path_injective hgroup hdefinition heq).symm, fun heq => heq ▸ rfl⟩
  have hstarts : startsWith text allowed = true ↔
      definition.id = group ∨ t.Above definition.id group ∨ t.Extended definition.id group := by
    rw [startsWith, decide_eq_true_eq, hpath, hallowedPath]
    exact h.path_prefix_iff hdefinition hgroup
  refine ⟨decide (text = allowed) || (definition.extendChildren && startsWith text allowed), ?_, ?_⟩
  · rw [matchesGroup, Table.getGroupById_eq hdefinition]
    simp only [List.contains_iff_mem, hslash, if_true, hallowed, Option.map_some, hname,
      decide_false]
    simp
  · rw [Bool.or_eq_true, decide_eq_true_eq, Bool.and_eq_true, hself, hstarts, Covers, Overreaches,
      and_iff_right hdefinition]
    constructor
    · rintro (hid | ⟨hextend, hid | habove | hextended⟩)
      · exact .inl (.inl hid)
      · exact .inl (.inl hid)
      · exact .inl (.inr ⟨hextend, habove⟩)
      · exact .inr ⟨hextend, hextended⟩
    · rintro ((hid | ⟨hextend, habove⟩) | ⟨hextend, hextended⟩)
      · exact .inl hid
      · exact .inr ⟨hextend, .inr (.inl habove)⟩
      · exact .inr ⟨hextend, .inr (.inr hextended)⟩

theorem matchesAny_eq (h : t.Named) (hfuel : t.nextId ≤ fuel) {definition : GroupDefinition}
    (hdefinition : t.Exists definition.id) {groups : List GroupId}
    (hgroups : ∀ group ∈ groups, t.Exists group) {texts : List String}
    (htexts : groups.mapM (t.buildGroupPath fuel) = some texts) :
    ∃ taken, matchesAny t fuel definition texts = some taken ∧
      (taken = true ↔ ∃ group ∈ groups,
        Covers t definition group ∨ Overreaches t definition group) := by
  induction groups generalizing texts with
  | nil =>
      cases htexts
      exact ⟨false, rfl, by simp⟩
  | cons group rest ih =>
      rw [List.mapM_cons, Option.bind_eq_bind, Option.bind_eq_some_iff] at htexts
      obtain ⟨text, htext, htexts⟩ := htexts
      obtain ⟨texts, hrest, htexts⟩ := Option.bind_eq_some_iff.mp htexts
      cases htexts
      obtain ⟨taken, hmatches, htaken⟩ :=
        matchesGroup_eq h hfuel hdefinition (hgroups group List.mem_cons_self) htext
      obtain ⟨later, hlater, hlater_iff⟩ :=
        ih (fun group hmem => hgroups group (List.mem_cons_of_mem _ hmem)) hrest
      rw [matchesAny, hmatches, List.exists_mem_cons_iff, ← htaken, ← hlater_iff]
      cases taken with
      | true => exact ⟨true, rfl, by simp⟩
      | false => exact ⟨later, hlater, by simp⟩

theorem matchesAny_missing {definition : GroupDefinition} (hdefinition : ¬ t.Exists definition.id)
    (text : String) (rest : List String) :
    matchesAny t fuel definition (text :: rest) = none := by
  rw [matchesAny, matchesGroup, getGroupById_eq_none hdefinition]
  rfl

theorem evaluateGroups_nil (definitions : List GroupDefinition) :
    evaluateGroups t fuel [] definitions = some [] := by
  induction definitions with
  | nil => rfl
  | cons definition rest ih => exact ih

/-- The policy grants if a definition that is reached covers or overreaches. -/
theorem evaluateGroups_grants_iff (h : t.Named) (hfuel : t.nextId ≤ fuel) {groups : List GroupId}
    (hgroups : ∀ group ∈ groups, t.Exists group) {texts : List String}
    (htexts : groups.mapM (t.buildGroupPath fuel) = some texts)
    (definitions : List GroupDefinition) :
    evaluateGroups t fuel texts definitions = some [.grant] ↔
      ∃ definition ∈ reached t definitions, ∃ group ∈ groups,
        Covers t definition group ∨ Overreaches t definition group := by
  induction definitions with
  | nil => simp [evaluateGroups, reached]
  | cons definition rest ih =>
      by_cases hdefinition : t.Exists definition.id
      · have hreached : reached t (definition :: rest) = definition :: reached t rest := by
          rw [reached, List.takeWhile_cons, if_pos (decide_eq_true hdefinition), reached]
        obtain ⟨taken, hmatches, htaken⟩ := matchesAny_eq h hfuel hdefinition hgroups htexts
        rw [evaluateGroups, hmatches, hreached, List.exists_mem_cons_iff, ← htaken, ← ih]
        cases taken with
        | true => simp
        | false => simp
      · have hreached : reached t (definition :: rest) = [] := by
          rw [reached, List.takeWhile_cons, if_neg (by rw [decide_eq_true_eq]; exact hdefinition)]
        rw [hreached]
        apply iff_of_false
        · cases texts with
          | nil =>
              rw [evaluateGroups_nil]
              intro hgrant
              cases hgrant
          | cons text rest' =>
              rw [evaluateGroups, matchesAny_missing hdefinition]
              intro hgrant
              cases hgrant
        · simp

end

/-- In a forest of groups with distinct sibling names, the policy grants to exactly those whose
groups a definition covers if and only if, where one does, one that is reached covers or
overreaches, and where one that is reached overreaches, one covers. -/
theorem grantsCovered_iff {t : Table} (h : t.Named) {fuel : Nat} (hfuel : t.nextId ≤ fuel)
    (definitions : List GroupDefinition) {identity : GroupIdentity}
    (hidentity : GivesPaths t fuel identity) :
    GrantsCovered t fuel definitions identity ↔
      ((∃ definition ∈ definitions, ∃ group ∈ identity.groups, Covers t definition group) →
        ∃ definition ∈ reached t definitions, ∃ group ∈ identity.groups,
          Covers t definition group ∨ Overreaches t definition group) ∧
      ((∃ definition ∈ reached t definitions, ∃ group ∈ identity.groups,
          Overreaches t definition group) →
        ∃ definition ∈ definitions, ∃ group ∈ identity.groups, Covers t definition group) := by
  have hpaths : ∃ texts, identity.groups.mapM (t.buildGroupPath fuel) = some texts := by
    apply Option.isSome_iff_exists.mp
    apply Table.mapM_isSome
    exact fun group hgroup => h.buildGroupPath_isSome (hidentity.exist group hgroup) hfuel
  obtain ⟨texts, htexts⟩ := hpaths
  have hgrants : evaluate t fuel definitions identity = some [.grant] ↔
      ∃ definition ∈ reached t definitions, ∃ group ∈ identity.groups,
        Covers t definition group ∨ Overreaches t definition group := by
    rw [evaluate, groupsClaim_eq hidentity, getUserGroups, htexts]
    exact evaluateGroups_grants_iff h hfuel hidentity.exist htexts definitions
  rw [GrantsCovered, hgrants]
  constructor
  · intro hcovered
    refine ⟨hcovered.mpr, fun hoverreaches => hcovered.mp ?_⟩
    obtain ⟨definition, hmem, group, hgroup, hover⟩ := hoverreaches
    exact ⟨definition, hmem, group, hgroup, .inr hover⟩
  · intro ⟨hcovers, hoverreaches⟩
    refine ⟨fun hgrant => ?_, hcovers⟩
    obtain ⟨definition, hmem, group, hgroup, hcover | hover⟩ := hgrant
    · exact ⟨definition, (List.takeWhile_prefix _).subset hmem, group, hgroup, hcover⟩
    · exact hoverreaches ⟨definition, hmem, group, hgroup, hover⟩

/-! ## Two siblings -/

/-- Two groups at the top, the name of the second continues that of the first, and a subgroup of
the first. -/
def staffTable : Table where
  rows
    | 0 => some ⟨some "staff", none⟩
    | 1 => some ⟨some "staff-external", none⟩
    | 2 => some ⟨some "sales", some 0⟩
    | _ => none
  nextId := 3

theorem staffTable_cases {group : GroupId} (h : staffTable.Exists group) :
    group = 0 ∨ group = 1 ∨ group = 2 := by
  match group, h with
  | 0, _ => exact .inl rfl
  | 1, _ => exact .inr (.inl rfl)
  | 2, _ => exact .inr (.inr rfl)

theorem staffTable_link {group parent : GroupId}
    (hlink : staffTable.getParentId group = some parent) : group = 2 ∧ parent = 0 := by
  rcases staffTable_cases (Table.exists_of_getParentId hlink) with rfl | rfl | rfl
  · cases hlink
  · cases hlink
  · cases hlink
    exact ⟨rfl, rfl⟩

theorem staffTable_named : staffTable.Named where
  parent_exists hlink := by
    rw [(staffTable_link hlink).2]
    rfl
  lt_nextId h := by
    rcases staffTable_cases h with rfl | rfl | rfl <;> decide
  acyclic := by
    apply ParentWalk.acyclic_of_lt
    intro group parent hlink
    obtain ⟨rfl, rfl⟩ := staffTable_link hlink
    decide
  slash_free h := by
    rcases staffTable_cases h with rfl | rfl | rfl <;> decide
  siblings h h' hparent hlabel := by
    rcases staffTable_cases h with rfl | rfl | rfl <;>
      rcases staffTable_cases h' with rfl | rfl | rfl <;> revert hparent hlabel <;> decide

def staffDefinitions : List GroupDefinition := [⟨0, true⟩]

def memberOf (group : GroupId) : GroupIdentity := ⟨none, [group]⟩

theorem memberOf_givesPaths {group : GroupId} (h : staffTable.Exists group) :
    GivesPaths staffTable 3 (memberOf group) where
  exist other hmem := by
    rw [memberOf, List.mem_singleton] at hmem
    exact hmem ▸ h
  claim values hvalues := by cases hvalues

/-- The members of the subgroup are covered. -/
theorem sales_granted : GrantsCovered staffTable 3 staffDefinitions (memberOf 2) := by
  have habove : staffTable.Above 0 2 := Table.above_iff.mpr ⟨0, rfl, .inl rfl⟩
  have hcovers : Covers staffTable ⟨0, true⟩ 2 := .inr ⟨rfl, habove⟩
  have hidentity : GivesPaths staffTable 3 (memberOf 2) := memberOf_givesPaths rfl
  apply (grantsCovered_iff staffTable_named (Nat.le_refl 3) staffDefinitions hidentity).mpr
  exact ⟨fun _ => ⟨_, List.mem_singleton.mpr rfl, 2, List.mem_singleton.mpr rfl, .inl hcovers⟩,
    fun _ => ⟨_, List.mem_singleton.mpr rfl, 2, List.mem_singleton.mpr rfl, hcovers⟩⟩

/-- The members of the other group at the top are granted to as well. -/
theorem external_granted :
    staffTable.Named ∧ GivesPaths staffTable 3 (memberOf 1) ∧
      ¬ GrantsCovered staffTable 3 staffDefinitions (memberOf 1) := by
  refine ⟨staffTable_named, memberOf_givesPaths rfl, fun hcovered => ?_⟩
  have hgrant : evaluate staffTable 3 staffDefinitions (memberOf 1) = some [.grant] := by decide
  obtain ⟨definition, hmem, group, hgroup, hcovers⟩ := hcovered.mp hgrant
  cases List.mem_singleton.mp hmem
  cases List.mem_singleton.mp hgroup
  cases hcovers with
  | inl hself => cases hself
  | inr habove =>
      obtain ⟨parent, hlink, -⟩ := Table.above_iff.mp habove.2
      cases hlink

end Keycloak.Authz.GroupPolicyProvider
