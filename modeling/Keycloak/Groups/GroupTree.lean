import Mathlib.Data.List.Nodup
import Mathlib.Data.List.Perm.Subperm

/-!
# The tree of LDAP groups

`GroupTreeResolver` turns a list of groups, each with the names of its subgroups, into a
forest.  It rejects a subgroup that does not exist, unless missing groups are ignored, a
group with several parents, and a recursion.

The names of the groups are keys of maps there; here they are the names in the list.  The
order of the roots, which `TreeMap` sorts, is that of the list; `GroupTreeResolver` has the
maps and their order.
-/

namespace Keycloak.Groups.LdapSync

structure Group where
  groupName : String
  childrenNames : List String
  deriving DecidableEq, Repr

/-- A list of `GroupTreeEntry`: the first one, with its children, and the others. -/
inductive GroupTreeEntries where
  | nil
  | cons (groupName : String) (children rest : GroupTreeEntries)
  deriving DecidableEq, Repr

namespace GroupTreeEntries

def names : GroupTreeEntries → List String
  | nil => []
  | cons name children rest => name :: (children.names ++ rest.names)

def roots : GroupTreeEntries → List String
  | nil => []
  | cons name _ rest => name :: rest.roots

end GroupTreeEntries

def find (groups : List Group) (name : String) : Option Group :=
  groups.find? fun group => group.groupName = name

def parents (groups : List Group) (name : String) : List String :=
  (groups.filter fun group => name ∈ group.childrenNames).map (·.groupName)

/-- `getParentsTree` as far as it changes or rejects the groups. -/
def withoutMissing (groups : List Group) (ignoreMissingGroups : Bool) : Option (List Group) :=
  if ignoreMissingGroups ∨ ∀ group ∈ groups, ∀ child ∈ group.childrenNames,
      (find groups child).isSome then
    some (groups.map fun group =>
      { group with childrenNames := group.childrenNames.filter fun child =>
          (find groups child).isSome })
  else none

/-- The recursive `resolveGroupTree` for one name after the other, with the visited
groups.  The fuel pays for one entry; more than one unit for each group is never used. -/
def resolveEntries (groups : List Group) :
    Nat → List String → List String → Option (GroupTreeEntries × List String)
  | _, [], visitedGroups => some (.nil, visitedGroups)
  | 0, _ :: _, _ => none
  | fuel + 1, groupName :: names, visitedGroups =>
      if groupName ∈ visitedGroups then none
      else do
        let group ← find groups groupName
        let (children, visitedGroups) ←
          resolveEntries groups fuel group.childrenNames (groupName :: visitedGroups)
        let (rest, visitedGroups) ← resolveEntries groups fuel names visitedGroups
        return (.cons group.groupName children rest, visitedGroups)

/-- `resolveGroupTree`; no result stands for `GroupTreeResolveException`. -/
def resolveGroupTree (groups : List Group) (ignoreMissingGroups : Bool) :
    Option GroupTreeEntries := do
  let groups ← withoutMissing groups ignoreMissingGroups
  let names := groups.map (·.groupName)
  if ∃ name ∈ names, (parents groups name).length > 1 then none
  else
    let rootGroups := names.filter fun name => parents groups name = []
    let (finalResult, visitedGroups) ←
      resolveEntries groups (groups.length + 1) rootGroups []
    if visitedGroups.length ≠ names.length then none else return finalResult

section

variable {groups : List Group} {names visited visited' : List String} {fuel : Nat}
  {entries : GroupTreeEntries}

theorem find_groupName {name : String} {group : Group} (h : find groups name = some group) :
    group ∈ groups ∧ group.groupName = name :=
  ⟨List.mem_of_find?_eq_some h, by simpa using List.find?_some h⟩

theorem find_isSome {name : String} :
    (find groups name).isSome ↔ name ∈ groups.map (·.groupName) := by
  rw [find, List.find?_isSome, List.mem_map]
  simp only [decide_eq_true_eq]

theorem resolveEntries_cons {name : String}
    (h : resolveEntries groups (fuel + 1) (name :: names) visited = some (entries, visited')) :
    name ∉ visited ∧ ∃ group children rest visited₁, find groups name = some group ∧
      resolveEntries groups fuel group.childrenNames (name :: visited) =
        some (children, visited₁) ∧
      resolveEntries groups fuel names visited₁ = some (rest, visited') ∧
      entries = .cons name children rest := by
  rw [resolveEntries] at h
  split at h
  · cases h
  · rename_i hnew
    obtain ⟨group, hgroup, h⟩ := Option.bind_eq_some_iff.mp h
    obtain ⟨⟨children, visited₁⟩, hchildren, h⟩ := Option.bind_eq_some_iff.mp h
    obtain ⟨⟨rest, visited₂⟩, hrest, h⟩ := Option.bind_eq_some_iff.mp h
    cases h
    exact ⟨hnew, group, children, rest, visited₁, hgroup, hchildren, hrest,
      by rw [(find_groupName hgroup).2]⟩

def Describes (groups : List Group) : GroupTreeEntries → Prop
  | .nil => True
  | .cons name children rest => (∃ group ∈ groups, group.groupName = name ∧
      children.roots = group.childrenNames) ∧ Describes groups children ∧ Describes groups rest

theorem perm_visited (name : String) (children rest visited : List String) :
    (rest ++ (children ++ name :: visited)).Perm (name :: (children ++ rest) ++ visited) := by
  have hfront : (rest ++ (children ++ name :: visited)).Perm
      (name :: (rest ++ (children ++ visited))) :=
    (List.perm_middle.append_left rest).trans List.perm_middle
  have hback : (rest ++ (children ++ visited)).Perm (children ++ rest ++ visited) := by
    rw [← List.append_assoc]
    exact List.perm_append_comm.append_right visited
  exact hfront.trans (hback.cons name)

/-- The trees start with the given names, follow the subgroups, and visit every group once:
what has been visited are their names. -/
theorem resolveEntries_spec
    (h : resolveEntries groups fuel names visited = some (entries, visited')) :
    entries.roots = names ∧ Describes groups entries ∧
      visited'.Perm (entries.names ++ visited) ∧ (visited.Nodup → visited'.Nodup) ∧
      ∀ name ∈ entries.names, name ∈ groups.map (·.groupName) := by
  induction fuel generalizing names visited visited' entries with
  | zero =>
      cases names with
      | nil =>
          rw [resolveEntries] at h
          cases h
          exact ⟨rfl, trivial, .refl _, id, fun name hname => absurd hname List.not_mem_nil⟩
      | cons name names =>
          rw [resolveEntries] at h
          cases h
  | succ fuel ih =>
      cases names with
      | nil =>
          rw [resolveEntries] at h
          cases h
          exact ⟨rfl, trivial, .refl _, id, fun name hname => absurd hname List.not_mem_nil⟩
      | cons name names =>
          obtain ⟨hnew, group, children, rest, visited₁, hgroup, hchildren, hrest, rfl⟩ :=
            resolveEntries_cons h
          obtain ⟨hmem, hname⟩ := find_groupName hgroup
          obtain ⟨hroots₁, hdescribes₁, hperm₁, hnodup₁, hnames₁⟩ := ih hchildren
          obtain ⟨hroots₂, hdescribes₂, hperm₂, hnodup₂, hnames₂⟩ := ih hrest
          refine ⟨congrArg (name :: ·) hroots₂, ⟨⟨group, hmem, hname, hroots₁⟩, hdescribes₁,
            hdescribes₂⟩, ?_, fun hnodup => hnodup₂ (hnodup₁ (hnodup.cons hnew)), ?_⟩
          · have hchildren' : (rest.names ++ visited₁).Perm
                (rest.names ++ (children.names ++ name :: visited)) := hperm₁.append_left _
            refine (hperm₂.trans hchildren').trans (perm_visited ..)
          · intro x hx
            rcases List.mem_cons.mp hx with rfl | hx
            · exact List.mem_map.mpr ⟨group, hmem, hname⟩
            · rcases List.mem_append.mp hx with hx | hx
              · exact hnames₁ x hx
              · exact hnames₂ x hx

theorem withoutMissing_find {groups' : List Group} {ignoreMissing : Bool}
    (h : withoutMissing groups ignoreMissing = some groups') :
    groups' = groups.map fun group => { group with
      childrenNames := group.childrenNames.filter fun child => (find groups child).isSome } := by
  unfold withoutMissing at h
  split at h
  · exact (Option.some.inj h).symm
  · cases h

def Below (groups : List Group) (entries : GroupTreeEntries) (group : Group) : Prop :=
  ∀ child, child ∈ entries.roots ↔
    child ∈ group.childrenNames ∧ child ∈ groups.map (·.groupName)

/-- Every entry is a group of the list, with those of its subgroups below it that exist. -/
def Follows (groups : List Group) : GroupTreeEntries → Prop
  | .nil => True
  | .cons name children rest => (∃ group ∈ groups, group.groupName = name ∧
      Below groups children group) ∧ Follows groups children ∧ Follows groups rest

theorem follows_of_describes {groups' : List Group} {ignoreMissing : Bool}
    (h : withoutMissing groups ignoreMissing = some groups') {entries : GroupTreeEntries}
    (hdescribes : Describes groups' entries) : Follows groups entries := by
  rw [withoutMissing_find h] at hdescribes
  induction entries with
  | nil => trivial
  | cons name children rest ihchildren ihrest =>
      obtain ⟨⟨group', hmem', hname, hroots⟩, hchildren, hrest⟩ := hdescribes
      obtain ⟨group, hmem, rfl⟩ := List.mem_map.mp hmem'
      refine ⟨⟨group, hmem, hname, fun child => ?_⟩, ihchildren hchildren, ihrest hrest⟩
      rw [hroots, List.mem_filter, find_isSome]

/-- What `resolveGroupTree` accepts: every group stands once in the trees, below the one
group that has it as a subgroup. -/
structure Accepted (groups : List Group) (entries : GroupTreeEntries) : Prop where
  names : entries.names.Perm (groups.map (·.groupName))
  follows : Follows groups entries
  roots : ∀ name, name ∈ entries.roots ↔
    name ∈ groups.map (·.groupName) ∧ ∀ group ∈ groups, name ∉ group.childrenNames
  parent : ∀ name ∈ groups.map (·.groupName), ∀ group ∈ groups, ∀ group' ∈ groups,
    name ∈ group.childrenNames → name ∈ group'.childrenNames →
      group.groupName = group'.groupName

theorem mem_parents {name parent : String} : parent ∈ parents groups name ↔
    ∃ group ∈ groups, name ∈ group.childrenNames ∧ group.groupName = parent := by
  simp only [parents, List.mem_map, List.mem_filter, decide_eq_true_eq, and_assoc]

theorem mem_parents_withoutMissing {groups' : List Group} {ignoreMissing : Bool}
    (h : withoutMissing groups ignoreMissing = some groups') {name parent : String}
    (hname : name ∈ groups.map (·.groupName)) :
    parent ∈ parents groups' name ↔ parent ∈ parents groups name := by
  rw [withoutMissing_find h, mem_parents, mem_parents]
  constructor
  · rintro ⟨group', hmem', hchild, rfl⟩
    obtain ⟨group, hmem, rfl⟩ := List.mem_map.mp hmem'
    exact ⟨group, hmem, List.mem_of_mem_filter hchild, rfl⟩
  · rintro ⟨group, hmem, hchild, rfl⟩
    refine ⟨_, List.mem_map_of_mem hmem, ?_, rfl⟩
    exact List.mem_filter.mpr ⟨hchild, find_isSome.mpr hname⟩

theorem accepted_of_resolveGroupTree {ignoreMissing : Bool}
    (h : resolveGroupTree groups ignoreMissing = some entries) : Accepted groups entries := by
  unfold resolveGroupTree at h
  obtain ⟨groups', hgroups', h⟩ := Option.bind_eq_some_iff.mp h
  have hnames : groups'.map (·.groupName) = groups.map (·.groupName) := by
    rw [withoutMissing_find hgroups', List.map_map]
    rfl
  dsimp only at h
  split at h
  · cases h
  · rename_i hsingle
    obtain ⟨⟨trees, visited⟩, hresolve, h⟩ := Option.bind_eq_some_iff.mp h
    dsimp only at h
    split at h
    · cases h
    · rename_i hall
      cases h
      obtain ⟨hroots, hdescribes, hperm, hnodup, hsub⟩ := resolveEntries_spec hresolve
      rw [List.append_nil] at hperm
      rw [hnames] at hsub hall hroots hsingle
      have hparents : ∀ name ∈ groups.map (·.groupName), ∀ group ∈ groups,
          name ∈ group.childrenNames → group.groupName ∈ parents groups' name :=
        fun name hname group hmem hchild => (mem_parents_withoutMissing hgroups' hname).mpr
          (mem_parents.mpr ⟨group, hmem, hchild, rfl⟩)
      refine ⟨?_, follows_of_describes hgroups' hdescribes, fun name => ?_, ?_⟩
      · have hnodup' := hperm.nodup_iff.mp (hnodup List.nodup_nil)
        have hlength : (groups.map (·.groupName)).length ≤ entries.names.length := by
          rw [← hperm.length_eq]
          omega
        exact (hnodup'.subperm hsub).perm_of_length_le hlength
      · rw [hroots, List.mem_filter, decide_eq_true_eq]
        refine and_congr_right fun hname => ?_
        constructor
        · intro hnone group hmem hchild
          have hparent := hparents name hname group hmem hchild
          rw [hnone] at hparent
          cases hparent
        · intro hnone
          refine List.eq_nil_iff_forall_not_mem.mpr fun parent hparent => ?_
          obtain ⟨group, hmem, hchild, -⟩ :=
            mem_parents.mp ((mem_parents_withoutMissing hgroups' hname).mp hparent)
          exact hnone group hmem hchild
      · intro name hname group hmem group' hmem' hchild hchild'
        have hle : (parents groups' name).length ≤ 1 := by
          by_contra hmany
          exact hsingle ⟨name, hname, by omega⟩
        have hparent := hparents name hname group hmem hchild
        have hparent' := hparents name hname group' hmem' hchild'
        obtain ⟨parent, hparents⟩ := List.length_eq_one_iff.mp
          (Nat.le_antisymm hle (List.length_pos_of_mem hparent))
        rw [hparents, List.mem_singleton] at hparent hparent'
        rw [hparent, hparent']

end

end Keycloak.Groups.LdapSync
