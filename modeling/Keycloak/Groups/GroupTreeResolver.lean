import Keycloak.Groups.GroupTree
import Keycloak.Lib.Digraph
import Keycloak.Lib.Utf16
import Mathlib.Data.List.Sort

/-!
# The resolver of LDAP group trees

`GroupTreeResolver.resolveGroupTree` with its exceptions.  The roots are resolved first, with one
set of visited groups.  When groups are left over, they are resolved once more, each with a new
set, to find the recursion.

The keys of a `TreeMap` are sorted by the units of the texts.
-/

namespace Keycloak.Groups.GroupTreeResolver

open LdapSync (Group GroupTreeEntries)

/-- What ends the resolver: the exceptions of its own, a null pointer, or a recursion that uses up
the fuel. -/
inductive Failure where
  | missing (child groupName : String)
  | multipleParents (groupName : String) (parents : List String)
  | recursion (groupName : String) (path : List String)
  | recursionNotFound
  | nullPointer
  | outOfFuel
  deriving DecidableEq, Repr

def listText (elements : List String) : String := "[" ++ ", ".intercalate elements ++ "]"

def Failure.message : Failure → Option String
  | .missing child groupName =>
      some ("Group '" ++ child ++ "' referenced as member of group '" ++ groupName ++
        "' doesn't exists")
  | .multipleParents groupName parents =>
      some ("Group '" ++ groupName ++ "' detected to have multiple parents. " ++
        "This is not allowed in Keycloak. Parents are: " ++ listText parents)
  | .recursion groupName path =>
      some ("Recursion detected when trying to resolve group '" ++ groupName ++
        "'. Whole recursion path: " ++ listText path)
  | .recursionNotFound =>
      some "Illegal state: Recursion detected, but wasn't able to find it"
  | .nullPointer => none
  | .outOfFuel => none

def keys (groups : List Group) : List String :=
  (groups.map (·.groupName)).dedup.insertionSort Utf16.NotAfter

/-- `asMap.get`: a later group replaces one with the same name. -/
def asMap (groups : List Group) (name : String) : Option Group :=
  groups.reverse.find? fun group => group.groupName = name

/-! ## `getParentsTree` -/

def checkChildren (names : List String) (ignoreMissingGroups : Bool) (groupName : String) :
    List String → Except Failure (List String)
  | [] => .ok []
  | child :: rest =>
      if child ∈ names then
        (checkChildren names ignoreMissingGroups groupName rest).map (child :: ·)
      else if ignoreMissingGroups then checkChildren names ignoreMissingGroups groupName rest
      else .error (.missing child groupName)

/-- The groups without their missing subgroups, or the exception for one of these. -/
def checkGroups (names : List String) (ignoreMissingGroups : Bool) :
    List Group → Except Failure (List Group)
  | [] => .ok []
  | group :: rest => do
      let childrenNames ←
        checkChildren names ignoreMissingGroups group.groupName group.childrenNames
      let rest ← checkGroups names ignoreMissingGroups rest
      return { group with childrenNames } :: rest

/-- The list that `getParentsTree` has for a name, once the missing groups are gone. -/
def parentsTree (groups : List Group) (name : String) : List String :=
  groups.flatMap fun group =>
    (group.childrenNames.filter (· = name)).map fun _ => group.groupName

/-! ## `resolveGroupTree` -/

def rootGroups (groups : List Group) : List String → Except Failure (List String)
  | [] => .ok []
  | name :: rest =>
      match parentsTree groups name with
      | [] => (rootGroups groups rest).map (name :: ·)
      | [_] => rootGroups groups rest
      | parents => .error (.multipleParents name parents)

def resolveAll
    (resolve : String → List String → List String →
      Except Failure ((String × GroupTreeEntries) × List String)) :
    List String → List String → List String → Except Failure (GroupTreeEntries × List String)
  | [], visitedGroups, _ => .ok (.nil, visitedGroups)
  | name :: rest, visitedGroups, currentSubtree => do
      let (entry, visitedGroups) ← resolve name visitedGroups (currentSubtree ++ [name])
      let (entries, visitedGroups) ← resolveAll resolve rest visitedGroups currentSubtree
      return (.cons entry.1 entry.2 entries, visitedGroups)

/-- The recursive `resolveGroupTree`: the entry for a group, and the visited groups. -/
def resolveEntry (groups : List Group) : Nat → String → List String → List String →
    Except Failure ((String × GroupTreeEntries) × List String)
  | 0, _, _, _ => .error .outOfFuel
  | fuel + 1, groupName, visitedGroups, currentSubtree =>
      if groupName ∈ visitedGroups then .error (.recursion groupName currentSubtree)
      else
        match asMap groups groupName with
        | none => .error .nullPointer
        | some group => do
            let (children, visitedGroups) ←
              resolveAll (resolveEntry groups fuel) group.childrenNames
                (visitedGroups ++ [groupName]) currentSubtree
            return ((group.groupName, children), visitedGroups)

/-- The second search, over the groups that have not been visited, each with a new set. -/
def findRecursion (groups : List Group) (fuel : Nat) : List String → List String → Failure
  | [], _ => .recursionNotFound
  | groupName :: rest, visitedGroups =>
      if groupName ∈ visitedGroups then findRecursion groups fuel rest visitedGroups
      else
        match resolveEntry groups fuel groupName [] [groupName] with
        | .error failure => failure
        | .ok (_, newVisitedGroups) =>
            findRecursion groups fuel rest (visitedGroups ++ newVisitedGroups)

def resolveGroupTree (groups : List Group) (ignoreMissingGroups : Bool) :
    Except Failure GroupTreeEntries := do
  let groups ← checkGroups (groups.map (·.groupName)) ignoreMissingGroups groups
  let rootGroups ← rootGroups groups (keys groups)
  let (finalResult, visitedGroups) ←
    resolveAll (resolveEntry groups (groups.length + 1)) rootGroups [] []
  if visitedGroups.length ≠ (keys groups).length then
    throw (findRecursion groups (groups.length + 1) (keys groups) visitedGroups)
  else return finalResult

example : resolveGroupTree [⟨"b", ["c"]⟩, ⟨"c", []⟩, ⟨"a", ["x"]⟩] true =
    .ok (.cons "a" .nil (.cons "b" (.cons "c" .nil .nil) .nil)) := by decide

def Subgroup (groups : List Group) (name below : String) : Prop :=
  ∃ group ∈ groups, group.groupName = name ∧ below ∈ group.childrenNames

/-- The groups make a forest, as far as they exist. -/
structure Resolvable (groups : List Group) (ignoreMissingGroups : Bool) : Prop where
  exist : ignoreMissingGroups = false → ∀ group ∈ groups, ∀ child ∈ group.childrenNames,
    child ∈ groups.map (·.groupName)
  single : ∀ name ∈ groups.map (·.groupName), ∀ parent parent',
    Subgroup groups parent name → Subgroup groups parent' name → parent = parent'
  acyclic : ∀ name, ¬ Relation.TransGen (Subgroup groups) name name

/-! ## The missing groups -/

section

variable {groups groups' : List Group} {names : List String} {ignoreMissingGroups : Bool}

theorem checkChildren_ok {groupName : String} {children kept : List String}
    (h : checkChildren names ignoreMissingGroups groupName children = .ok kept) :
    kept = children.filter (· ∈ names) ∧
      (ignoreMissingGroups = false → ∀ child ∈ children, child ∈ names) := by
  induction children generalizing kept with
  | nil =>
      cases h
      simp
  | cons child rest ih =>
      rw [checkChildren] at h
      split_ifs at h with hchild hignore
      · cases hrest : checkChildren names ignoreMissingGroups groupName rest with
        | error failure => simp [hrest, Except.map] at h
        | ok kept' =>
            rw [hrest] at h
            cases h
            obtain ⟨rfl, hall⟩ := ih hrest
            exact ⟨by simp [hchild], fun hstrict => List.forall_mem_cons.mpr ⟨hchild, hall hstrict⟩⟩
      · obtain ⟨rfl, -⟩ := ih h
        exact ⟨by simp [hchild], fun hstrict => by simp [hstrict] at hignore⟩

theorem checkChildren_error {groupName : String} {children : List String} {failure : Failure}
    (h : checkChildren names ignoreMissingGroups groupName children = .error failure) :
    ignoreMissingGroups = false ∧
      ∃ child ∈ children, child ∉ names ∧ failure = .missing child groupName := by
  induction children with
  | nil => cases h
  | cons child rest ih =>
      rw [checkChildren] at h
      split_ifs at h with hchild hignore
      · cases hrest : checkChildren names ignoreMissingGroups groupName rest with
        | error failure' =>
            rw [hrest] at h
            cases h
            obtain ⟨hstrict, child', hmem, hmissing⟩ := ih hrest
            exact ⟨hstrict, child', List.mem_cons_of_mem _ hmem, hmissing⟩
        | ok kept => simp [hrest, Except.map] at h
      · obtain ⟨hstrict, child', hmem, hmissing⟩ := ih h
        exact ⟨hstrict, child', List.mem_cons_of_mem _ hmem, hmissing⟩
      · cases h
        exact ⟨by simpa using hignore, child, List.mem_cons_self, hchild, rfl⟩

theorem checkGroups_cons {group : Group} {rest : List Group} :
    checkGroups names ignoreMissingGroups (group :: rest) =
      match checkChildren names ignoreMissingGroups group.groupName group.childrenNames,
        checkGroups names ignoreMissingGroups rest with
      | .error failure, _ => .error failure
      | .ok _, .error failure => .error failure
      | .ok childrenNames, .ok rest => .ok ({ group with childrenNames } :: rest) := by
  rw [checkGroups]
  cases checkChildren names ignoreMissingGroups group.groupName group.childrenNames with
  | error failure => rfl
  | ok childrenNames => cases checkGroups names ignoreMissingGroups rest <;> rfl

theorem checkGroups_ok (h : checkGroups names ignoreMissingGroups groups = .ok groups') :
    groups' = groups.map (fun group =>
        { group with childrenNames := group.childrenNames.filter (· ∈ names) }) ∧
      (ignoreMissingGroups = false →
        ∀ group ∈ groups, ∀ child ∈ group.childrenNames, child ∈ names) := by
  induction groups generalizing groups' with
  | nil =>
      cases h
      simp
  | cons group rest ih =>
      rw [checkGroups_cons] at h
      split at h
      · cases h
      · cases h
      · rename_i kept rest' hkept hrest
        cases h
        obtain ⟨rfl, hall⟩ := checkChildren_ok hkept
        obtain ⟨rfl, hall'⟩ := ih hrest
        exact ⟨rfl, fun hstrict => List.forall_mem_cons.mpr ⟨hall hstrict, hall' hstrict⟩⟩

theorem checkGroups_error {failure : Failure}
    (h : checkGroups names ignoreMissingGroups groups = .error failure) :
    ignoreMissingGroups = false ∧ ∃ group ∈ groups, ∃ child ∈ group.childrenNames,
      child ∉ names ∧ failure = .missing child group.groupName := by
  induction groups with
  | nil => cases h
  | cons group rest ih =>
      rw [checkGroups_cons] at h
      split at h
      · rename_i hkept
        cases h
        obtain ⟨hstrict, child, hmem, hmissing⟩ := checkChildren_error hkept
        exact ⟨hstrict, group, List.mem_cons_self, child, hmem, hmissing⟩
      · rename_i hrest
        cases h
        obtain ⟨hstrict, group', hmem, hmissing⟩ := ih hrest
        exact ⟨hstrict, group', List.mem_cons_of_mem _ hmem, hmissing⟩
      · cases h

theorem withoutMissing_of_checkGroups
    (h : checkGroups (groups.map (·.groupName)) ignoreMissingGroups groups = .ok groups') :
    LdapSync.withoutMissing groups ignoreMissingGroups = some groups' := by
  obtain ⟨rfl, hall⟩ := checkGroups_ok h
  unfold LdapSync.withoutMissing
  rw [if_pos]
  · refine congrArg some (List.map_congr_left fun group _ => ?_)
    congr 1
    refine List.filter_congr fun child _ => Bool.eq_iff_iff.mpr ?_
    rw [LdapSync.find_isSome, decide_eq_true_eq]
  · cases ignoreMissingGroups with
    | true => exact .inl rfl
    | false =>
        exact .inr fun group hmem child hchild =>
          LdapSync.find_isSome.mpr (hall rfl group hmem child hchild)

theorem names_of_checkGroups
    (h : checkGroups names ignoreMissingGroups groups = .ok groups') :
    groups'.map (·.groupName) = groups.map (·.groupName) := by
  rw [(checkGroups_ok h).1, List.map_map]
  rfl

theorem subgroup_checkGroups {name below : String}
    (h : checkGroups names ignoreMissingGroups groups = .ok groups') :
    Subgroup groups' name below ↔ Subgroup groups name below ∧ below ∈ names := by
  rw [(checkGroups_ok h).1]
  constructor
  · rintro ⟨_, hmem, hname, hbelow⟩
    obtain ⟨group, hgroup, rfl⟩ := List.mem_map.mp hmem
    obtain ⟨hchild, hlisted⟩ := List.mem_filter.mp hbelow
    exact ⟨⟨group, hgroup, hname, hchild⟩, by simpa using hlisted⟩
  · rintro ⟨⟨group, hgroup, hname, hchild⟩, hlisted⟩
    refine ⟨_, List.mem_map_of_mem hgroup, hname, List.mem_filter.mpr ⟨hchild, ?_⟩⟩
    exact decide_eq_true hlisted

theorem Subgroup.listed {name below : String} (h : Subgroup groups name below) :
    name ∈ groups.map (·.groupName) := by
  obtain ⟨group, hmem, rfl, -⟩ := h
  exact List.mem_map_of_mem hmem

theorem transGen_checkGroups {name below : String}
    (h : checkGroups (groups.map (·.groupName)) ignoreMissingGroups groups = .ok groups')
    (hpath : Relation.TransGen (Subgroup groups) name below)
    (hbelow : below ∈ groups.map (·.groupName)) :
    Relation.TransGen (Subgroup groups') name below := by
  induction hpath with
  | single hedge => exact .single ((subgroup_checkGroups h).mpr ⟨hedge, hbelow⟩)
  | tail _ hedge ih => exact (ih hedge.listed).tail ((subgroup_checkGroups h).mpr ⟨hedge, hbelow⟩)

theorem acyclic_checkGroups
    (h : checkGroups (groups.map (·.groupName)) ignoreMissingGroups groups = .ok groups') :
    (∀ name, ¬ Relation.TransGen (Subgroup groups') name name) ↔
      ∀ name, ¬ Relation.TransGen (Subgroup groups) name name := by
  constructor
  · intro hacyclic name hcycle
    obtain ⟨below, hedge, -⟩ := Relation.TransGen.head'_iff.mp hcycle
    exact hacyclic name (transGen_checkGroups h hcycle hedge.listed)
  · intro hacyclic name hcycle
    exact hacyclic name (hcycle.lift id fun _ _ hedge => ((subgroup_checkGroups h).mp hedge).1)

end

/-! ## The parents -/

section

variable {groups : List Group}

theorem mem_keys {name : String} : name ∈ keys groups ↔ name ∈ groups.map (·.groupName) := by
  rw [keys, List.mem_insertionSort, List.mem_dedup]

theorem nodup_keys : (keys groups).Nodup :=
  (List.perm_insertionSort _ _).nodup_iff.mpr (List.nodup_dedup _)

theorem length_keys (hnames : (groups.map (·.groupName)).Nodup) :
    (keys groups).length = (groups.map (·.groupName)).length := by
  rw [keys, List.length_insertionSort, hnames.dedup]

theorem parentsTree_eq (hchildren : ∀ group ∈ groups, group.childrenNames.Nodup) (name : String) :
    parentsTree groups name = LdapSync.parents groups name := by
  induction groups with
  | nil => rfl
  | cons group rest ih =>
      obtain ⟨hnodup, hrest⟩ := List.forall_mem_cons.mp hchildren
      have htail := ih hrest
      unfold parentsTree LdapSync.parents at htail ⊢
      rw [List.flatMap_cons, htail]
      by_cases hmem : name ∈ group.childrenNames
      · have hone : group.childrenNames.filter (· = name) = [name] := by
          rw [List.filter_eq, List.count_eq_one_of_mem hnodup hmem]
          rfl
        rw [List.filter_cons_of_pos (by simpa using hmem), hone]
        rfl
      · have hnone : group.childrenNames.filter (· = name) = [] := by
          rw [List.filter_eq, List.count_eq_zero_of_not_mem hmem]
          rfl
        rw [List.filter_cons_of_neg (by simpa using hmem), hnone]
        rfl

theorem mem_parents {name parent : String} :
    parent ∈ LdapSync.parents groups name ↔ Subgroup groups parent name := by
  rw [LdapSync.mem_parents]
  exact ⟨fun ⟨group, hmem, hchild, hname⟩ => ⟨group, hmem, hname, hchild⟩,
    fun ⟨group, hmem, hname, hchild⟩ => ⟨group, hmem, hchild, hname⟩⟩

theorem nodup_parents (hnames : (groups.map (·.groupName)).Nodup) (name : String) :
    (LdapSync.parents groups name).Nodup :=
  hnames.sublist (List.filter_sublist.map _)

theorem length_parents_le_one (hnames : (groups.map (·.groupName)).Nodup) (name : String) :
    (LdapSync.parents groups name).length ≤ 1 ↔
      ∀ parent parent', Subgroup groups parent name → Subgroup groups parent' name →
        parent = parent' := by
  simp only [← mem_parents]
  have hnodup := nodup_parents hnames name
  generalize LdapSync.parents groups name = parents at hnodup
  match parents, hnodup with
  | [], _ => simp
  | [parent], _ => simp
  | parent :: parent' :: rest, hnodup =>
      constructor
      · intro hle
        simp at hle
      · intro hsame
        have heq := hsame parent parent' (by simp) (by simp)
        simp [heq] at hnodup

def withoutParent (groups : List Group) : List String :=
  (keys groups).filter fun name => parentsTree groups name = []

theorem rootGroups_ok {names roots : List String} (h : rootGroups groups names = .ok roots) :
    roots = names.filter (fun name => parentsTree groups name = []) ∧
      ∀ name ∈ names, (parentsTree groups name).length ≤ 1 := by
  induction names generalizing roots with
  | nil =>
      cases h
      simp
  | cons name rest ih =>
      rw [rootGroups] at h
      split at h
      · rename_i hnone
        cases hrest : rootGroups groups rest with
        | error failure => simp [hrest, Except.map] at h
        | ok roots' =>
            rw [hrest] at h
            cases h
            obtain ⟨rfl, hall⟩ := ih hrest
            exact ⟨by simp [hnone], List.forall_mem_cons.mpr ⟨by simp [hnone], hall⟩⟩
      · rename_i parent hone
        obtain ⟨rfl, hall⟩ := ih h
        exact ⟨by simp [hone], List.forall_mem_cons.mpr ⟨by simp [hone], hall⟩⟩
      · cases h

theorem rootGroups_error {names : List String} {failure : Failure}
    (h : rootGroups groups names = .error failure) :
    ∃ name ∈ names, 1 < (parentsTree groups name).length ∧
      failure = .multipleParents name (parentsTree groups name) := by
  induction names with
  | nil => cases h
  | cons name rest ih =>
      rw [rootGroups] at h
      split at h
      · cases hrest : rootGroups groups rest with
        | error failure' =>
            rw [hrest] at h
            cases h
            obtain ⟨name', hmem, hmany⟩ := ih hrest
            exact ⟨name', List.mem_cons_of_mem _ hmem, hmany⟩
        | ok roots => simp [hrest, Except.map] at h
      · obtain ⟨name', hmem, hmany⟩ := ih h
        exact ⟨name', List.mem_cons_of_mem _ hmem, hmany⟩
      · rename_i hnone hone
        cases h
        refine ⟨name, List.mem_cons_self, ?_, rfl⟩
        match hparents : parentsTree groups name with
        | [] => exact absurd hparents hnone
        | [parent] => exact absurd hparents (hone parent)
        | _ :: _ :: _ => simp

end

/-! ## The recursion as a visit of a graph -/

/-- A name that is no group; the visit never gets to one. -/
def unlisted (groups : List Group) (name : String) : Bool :=
  decide (name ∉ groups.map (·.groupName))

def childrenNames (groups : List Group) (name : String) : List String :=
  ((asMap groups name).map (·.childrenNames)).getD []

/-- The resolver does what the visit does, and its entries are the groups that have been
visited. -/
inductive Agrees (groups : List Group) (names visitedGroups : List String) :
    Except Failure (GroupTreeEntries × List String) → Digraph.Visit String → Prop where
  | done (entries : GroupTreeEntries) (visitedGroups' : List String)
      (hroots : entries.roots = names) (hdescribes : LdapSync.Describes groups entries)
      (hvisited : visitedGroups' = visitedGroups ++ entries.names) :
      Agrees groups names visitedGroups (.ok (entries, visitedGroups')) (.done visitedGroups')
  | repeated (groupName : String) (path : List String) :
      Agrees groups names visitedGroups (.error (.recursion groupName path)) (.repeated groupName)
  | outOfFuel : Agrees groups names visitedGroups (.error .outOfFuel) .outOfFuel

/-- An entry as a list of entries. -/
def single (result : Except Failure ((String × GroupTreeEntries) × List String)) :
    Except Failure (GroupTreeEntries × List String) :=
  result.map fun (entry, visitedGroups) => (.cons entry.1 entry.2 .nil, visitedGroups)

def Closed (groups : List Group) : Prop :=
  ∀ group ∈ groups, ∀ child ∈ group.childrenNames, child ∈ groups.map (·.groupName)

section

variable {groups : List Group}

theorem unlisted_eq_false {name : String} :
    unlisted groups name = false ↔ name ∈ groups.map (·.groupName) := by
  rw [unlisted, decide_eq_false_iff_not, not_not]

theorem asMap_groupName {name : String} {group : Group} (h : asMap groups name = some group) :
    group ∈ groups ∧ group.groupName = name :=
  ⟨List.mem_reverse.mp (List.mem_of_find?_eq_some h), by simpa using List.find?_some h⟩

theorem asMap_listed {name : String} (h : name ∈ groups.map (·.groupName)) :
    ∃ group, asMap groups name = some group := by
  obtain ⟨group, hmem, hname⟩ := List.mem_map.mp h
  refine Option.isSome_iff_exists.mp (List.find?_isSome.mpr ⟨group, List.mem_reverse.mpr hmem, ?_⟩)
  simpa using hname

theorem asMap_eq (hnames : (groups.map (·.groupName)).Nodup) {group : Group}
    (h : group ∈ groups) : asMap groups group.groupName = some group := by
  obtain ⟨group', hgroup'⟩ := asMap_listed (List.mem_map_of_mem h)
  obtain ⟨hmem, hname⟩ := asMap_groupName hgroup'
  rw [hgroup', List.inj_on_of_nodup_map hnames hmem h hname]

theorem edge_iff_subgroup (hnames : (groups.map (·.groupName)).Nodup) (hclosed : Closed groups)
    {name below : String} :
    Digraph.Edge (unlisted groups) (childrenNames groups) name below ↔
      Subgroup groups name below := by
  constructor
  · rintro ⟨hbelow, -⟩
    unfold childrenNames at hbelow
    cases hgroup : asMap groups name with
    | none => simp [hgroup] at hbelow
    | some group =>
        obtain ⟨hmem, hname⟩ := asMap_groupName hgroup
        exact ⟨group, hmem, hname, by simpa [hgroup] using hbelow⟩
  · rintro ⟨group, hmem, rfl, hbelow⟩
    refine ⟨?_, unlisted_eq_false.mpr (hclosed group hmem below hbelow)⟩
    rw [childrenNames, asMap_eq hnames hmem]
    exact hbelow

theorem nodup_childrenNames (hchildren : ∀ group ∈ groups, group.childrenNames.Nodup)
    (name : String) : (childrenNames groups name).Nodup := by
  unfold childrenNames
  cases hgroup : asMap groups name with
  | none => exact List.nodup_nil
  | some group => exact hchildren group (asMap_groupName hgroup).1

theorem resolveAll_agrees (fuel : Nat) {names : List String}
    (hresolve : ∀ name ∈ names, ∀ visitedGroups currentSubtree,
      Agrees groups [name] visitedGroups
        (single (resolveEntry groups fuel name visitedGroups currentSubtree))
        (Digraph.visitOnce (unlisted groups) (childrenNames groups) fuel name visitedGroups))
    (visitedGroups currentSubtree : List String) :
    Agrees groups names visitedGroups
      (resolveAll (resolveEntry groups fuel) names visitedGroups currentSubtree)
      (Digraph.visitAll (Digraph.visitOnce (unlisted groups) (childrenNames groups) fuel) names
        visitedGroups) := by
  induction names generalizing visitedGroups with
  | nil => exact .done .nil visitedGroups rfl trivial (List.append_nil _).symm
  | cons name rest ih =>
      obtain ⟨hname, hrest⟩ := List.forall_mem_cons.mp hresolve
      have hfirst := hname visitedGroups (currentSubtree ++ [name])
      rw [resolveAll, Digraph.visitAll]
      revert hfirst
      generalize Digraph.visitOnce (unlisted groups) (childrenNames groups) fuel name
        visitedGroups = visit
      cases resolveEntry groups fuel name visitedGroups (currentSubtree ++ [name]) with
      | error failure =>
          intro hfirst
          cases hfirst with
          | repeated path => exact .repeated ..
          | outOfFuel => exact .outOfFuel
      | ok result =>
          obtain ⟨⟨groupName, children⟩, visitedGroups'⟩ := result
          intro hfirst
          cases hfirst with
          | done _ _ hroots hdescribes hvisited =>
              obtain rfl : groupName = name := (List.cons.inj hroots).1
              have hafter := ih hrest visitedGroups'
              revert hafter
              dsimp only [bind, Except.bind]
              generalize Digraph.visitAll _ rest visitedGroups' = visit
              cases resolveAll (resolveEntry groups fuel) rest visitedGroups' currentSubtree with
              | error failure =>
                  intro hafter
                  cases hafter with
                  | repeated path => exact .repeated ..
                  | outOfFuel => exact .outOfFuel
              | ok result =>
                  obtain ⟨entries, visitedGroups''⟩ := result
                  intro hafter
                  cases hafter with
                  | done _ _ hroots' hdescribes' hvisited' =>
                      refine .done (.cons groupName children entries) visitedGroups''
                        (congrArg (groupName :: ·) hroots')
                        ⟨hdescribes.1, hdescribes.2.1, hdescribes'⟩ ?_
                      rw [hvisited', hvisited]
                      simp [GroupTreeEntries.names]

theorem resolveEntry_agrees (hclosed : Closed groups) {fuel : Nat} {name : String}
    (hname : name ∈ groups.map (·.groupName)) (visitedGroups currentSubtree : List String) :
    Agrees groups [name] visitedGroups
      (single (resolveEntry groups fuel name visitedGroups currentSubtree))
      (Digraph.visitOnce (unlisted groups) (childrenNames groups) fuel name visitedGroups) := by
  induction fuel generalizing name visitedGroups currentSubtree with
  | zero => exact .outOfFuel
  | succ fuel ih =>
      have hlisted : ¬ unlisted groups name = true := by
        rw [unlisted_eq_false.mpr hname]
        exact Bool.false_ne_true
      rw [resolveEntry, Digraph.visitOnce, if_neg hlisted]
      split_ifs with hvisited
      · exact .repeated ..
      · obtain ⟨group, hgroup⟩ := asMap_listed hname
        obtain ⟨hmem, hgroupName⟩ := asMap_groupName hgroup
        have hnext : childrenNames groups name = group.childrenNames := by
          rw [childrenNames, hgroup]
          rfl
        have hbelow := resolveAll_agrees fuel
          (fun child hchild => ih (hclosed group hmem child hchild)) (visitedGroups ++ [name])
          currentSubtree
        rw [hnext, hgroup]
        revert hbelow
        dsimp only [bind, Except.bind]
        generalize Digraph.visitAll _ group.childrenNames (visitedGroups ++ [name]) = visit
        cases resolveAll (resolveEntry groups fuel) group.childrenNames (visitedGroups ++ [name])
            currentSubtree with
        | error failure =>
            intro hbelow
            cases hbelow with
            | repeated path => exact .repeated ..
            | outOfFuel => exact .outOfFuel
        | ok result =>
            obtain ⟨children, visitedGroups'⟩ := result
            intro hbelow
            cases hbelow with
            | done _ _ hroots hdescribes hvisited' =>
                refine .done (.cons group.groupName children .nil) visitedGroups'
                  (by rw [GroupTreeEntries.roots, GroupTreeEntries.roots, hgroupName])
                  ⟨⟨group, hmem, rfl, hroots⟩, hdescribes, trivial⟩ ?_
                rw [hvisited', hgroupName]
                simp [GroupTreeEntries.names]

end

theorem Agrees.of_ok {groups : List Group} {names visitedGroups visitedGroups' : List String}
    {entries : GroupTreeEntries} {visit : Digraph.Visit String}
    (h : Agrees groups names visitedGroups (.ok (entries, visitedGroups')) visit) :
    entries.roots = names ∧ LdapSync.Describes groups entries ∧
      visitedGroups' = visitedGroups ++ entries.names ∧ visit = .done visitedGroups' := by
  cases h with
  | done _ _ hroots hdescribes hvisited => exact ⟨hroots, hdescribes, hvisited, rfl⟩

theorem Agrees.of_error {groups : List Group} {names visitedGroups : List String}
    {failure : Failure} {visit : Digraph.Visit String}
    (h : Agrees groups names visitedGroups (.error failure) visit) :
    (∃ groupName path, failure = .recursion groupName path ∧ visit = .repeated groupName) ∨
      failure = .outOfFuel ∧ visit = .outOfFuel := by
  cases h with
  | repeated groupName path => exact .inl ⟨groupName, path, rfl, rfl⟩
  | outOfFuel => exact .inr ⟨rfl, rfl⟩

/-! ## Which groups are resolved -/

structure WellFormed (groups : List Group) : Prop where
  names : (groups.map (·.groupName)).Nodup
  children : ∀ group ∈ groups, group.childrenNames.Nodup
  closed : Closed groups

theorem visitOnce_ne_outOfFuel {groups : List Group} {seen : List String}
    (hseen : Digraph.Within (groups.map (·.groupName)) 0 seen) (name : String) :
    Digraph.visitOnce (unlisted groups) (childrenNames groups) (groups.length + 1) name seen ≠
      .outOfFuel := by
  refine Digraph.visitOnce_ne_outOfFuel (fun _ => unlisted_eq_false.mp) ?_ name hseen
  rw [List.length_map]
  omega

theorem within_nil {groups : List Group} :
    Digraph.Within (groups.map (·.groupName)) 0 [] :=
  ⟨List.nodup_nil, List.nil_subset _, Nat.le_refl 0⟩

namespace WellFormed

variable {groups : List Group} (h : WellFormed groups)

include h

theorem edge : Digraph.Edge (unlisted groups) (childrenNames groups) = Subgroup groups := by
  funext name below
  exact propext (edge_iff_subgroup h.names h.closed)

theorem mem_parentsTree {parent name : String} :
    parent ∈ parentsTree groups name ↔ Subgroup groups parent name := by
  rw [parentsTree_eq h.children, mem_parents]

theorem length_parentsTree_le_one (name : String) :
    (parentsTree groups name).length ≤ 1 ↔
      ∀ parent parent', Subgroup groups parent name → Subgroup groups parent' name →
        parent = parent' := by
  rw [parentsTree_eq h.children, length_parents_le_one h.names]

theorem mem_withoutParent {name : String} :
    name ∈ withoutParent groups ↔
      name ∈ groups.map (·.groupName) ∧ ∀ parent, ¬ Subgroup groups parent name := by
  rw [withoutParent, List.mem_filter, mem_keys, decide_eq_true_eq,
    List.eq_nil_iff_forall_not_mem]
  simp only [h.mem_parentsTree]

theorem forest_acyclic {roots new : List String}
    (hforest : Digraph.Forest (unlisted groups) (childrenNames groups) roots new) {name : String}
    (hname : name ∈ new) : ¬ Relation.TransGen (Subgroup groups) name name := by
  rw [← h.edge]
  exact hforest.acyclic hname

/-- The second search ends with the recursion while there is one among the groups left. -/
theorem findRecursion_eq {names visitedGroups : List String}
    (hlisted : ∀ name ∈ names, name ∈ groups.map (·.groupName))
    (hcircular : ∃ name ∈ names, Relation.TransGen (Subgroup groups) name name)
    (hvisited : ∀ name ∈ visitedGroups, ¬ Relation.TransGen (Subgroup groups) name name) :
    ∃ groupName path,
      findRecursion groups (groups.length + 1) names visitedGroups = .recursion groupName path := by
  induction names generalizing visitedGroups with
  | nil =>
      obtain ⟨name, hname, -⟩ := hcircular
      exact absurd hname List.not_mem_nil
  | cons name rest ih =>
      obtain ⟨hname, hrest⟩ := List.forall_mem_cons.mp hlisted
      have hlater (hself : ¬ Relation.TransGen (Subgroup groups) name name) :
          ∃ name ∈ rest, Relation.TransGen (Subgroup groups) name name := by
        obtain ⟨name', hmem, hcycle⟩ := hcircular
        rcases List.mem_cons.mp hmem with rfl | hmem
        · exact absurd hcycle hself
        · exact ⟨name', hmem, hcycle⟩
      rw [findRecursion]
      split_ifs with hmem
      · exact ih hrest (hlater (hvisited name hmem)) hvisited
      · have hagrees : Agrees groups [name] []
            (single (resolveEntry groups (groups.length + 1) name [] [name]))
            (Digraph.visitOnce (unlisted groups) (childrenNames groups) (groups.length + 1) name
              []) := resolveEntry_agrees h.closed hname [] [name]
        cases hresolve : resolveEntry groups (groups.length + 1) name [] [name] with
        | error failure =>
            rw [hresolve] at hagrees
            rcases hagrees.of_error with ⟨groupName, path, rfl, -⟩ | ⟨-, hvisit⟩
            · exact ⟨groupName, path, rfl⟩
            · exact absurd hvisit (visitOnce_ne_outOfFuel within_nil name)
        | ok result =>
            -- no group that is its own ancestor is among the groups visited from here
            rw [hresolve] at hagrees
            obtain ⟨-, -, -, hvisit⟩ := hagrees.of_ok
            obtain ⟨new, hnew, hforest, -⟩ := Digraph.visitOnce_adds hvisit
            have hself := hforest.entered name List.mem_cons_self (unlisted_eq_false.mpr hname)
            refine ih hrest (hlater (h.forest_acyclic hforest hself)) fun name' hname' => ?_
            rcases List.mem_append.mp hname' with hold | hnew'
            · exact hvisited name' hold
            · rw [hnew] at hnew'
              exact h.forest_acyclic hforest hnew'

/-- Without a recursion every group stands below a group without a parent. -/
theorem visited_of_acyclic {roots new : List String}
    (hroots : ∀ name ∈ withoutParent groups, name ∈ roots)
    (hforest : Digraph.Forest (unlisted groups) (childrenNames groups) roots new)
    (hacyclic : ∀ name, ¬ Relation.TransGen (Subgroup groups) name name) {name : String}
    (hname : name ∈ groups.map (·.groupName)) : name ∈ new := by
  have hwf : WellFounded fun parent name => Subgroup groups parent name := by
    have hnodes : ∀ below name, Function.swap (Subgroup groups) below name →
        below ∈ {name | name ∈ groups.map (·.groupName)} := by
      rintro below name ⟨group, hmem, -, hbelow⟩
      exact h.closed group hmem below hbelow
    exact Digraph.wellFounded_of_acyclic (List.finite_toSet _) hnodes fun name hcycle =>
      hacyclic name (Relation.transGen_swap.mp hcycle)
  induction name using hwf.induction with
  | _ name ih =>
      cases hparents : parentsTree groups name with
      | nil =>
          have hwithout : name ∈ withoutParent groups :=
            List.mem_filter.mpr ⟨mem_keys.mpr hname, by rw [decide_eq_true hparents]⟩
          exact hforest.entered name (hroots name hwithout) (unlisted_eq_false.mpr hname)
      | cons parent others =>
          have hparent : Subgroup groups parent name := by
            rw [← h.mem_parentsTree, hparents]
            exact List.mem_cons_self
          refine hforest.closed parent (ih parent hparent hparent.listed) name ?_
          rw [h.edge]
          exact hparent

/-- All groups are visited exactly if there is no recursion. -/
theorem length_visited_iff {roots new : List String}
    (hroots : ∀ name ∈ withoutParent groups, name ∈ roots)
    (hforest : Digraph.Forest (unlisted groups) (childrenNames groups) roots new) :
    new.length = (keys groups).length ↔
      ∀ name, ¬ Relation.TransGen (Subgroup groups) name name := by
  have hlisted : new ⊆ groups.map (·.groupName) := fun name hname =>
    unlisted_eq_false.mp (hforest.kept hname)
  have hsubperm : new.Subperm (groups.map (·.groupName)) := hforest.nodup.subperm hlisted
  rw [length_keys h.names]
  constructor
  · intro hlength name hcycle
    have hperm := hsubperm.perm_of_length_le (Nat.le_of_eq hlength.symm)
    obtain ⟨below, hedge, -⟩ := Relation.TransGen.head'_iff.mp hcycle
    exact h.forest_acyclic hforest (hperm.mem_iff.mpr hedge.listed) hcycle
  · intro hacyclic
    have hall : groups.map (·.groupName) ⊆ new := fun name hname =>
      h.visited_of_acyclic hroots hforest hacyclic hname
    exact Nat.le_antisymm hsubperm.length_le (h.names.subperm hall).length_le

/-- The visit from groups without a parent meets no group twice, when no group has several. -/
theorem exists_visitAll (hsingle : ∀ name ∈ keys groups, (parentsTree groups name).length ≤ 1)
    {roots : List String} (hnodup : roots.Nodup)
    (hroots : ∀ name ∈ roots, name ∈ withoutParent groups) :
    ∃ new, Digraph.visitAll
        (Digraph.visitOnce (unlisted groups) (childrenNames groups) (groups.length + 1)) roots [] =
          .done new ∧
      Digraph.Forest (unlisted groups) (childrenNames groups) roots new := by
  have hunique : ∀ parent parent' name,
      Digraph.Edge (unlisted groups) (childrenNames groups) parent name →
        Digraph.Edge (unlisted groups) (childrenNames groups) parent' name → parent = parent' := by
    intro parent parent' name hparent hparent'
    have hle := hsingle name (mem_keys.mpr (unlisted_eq_false.mp hparent.2))
    rw [h.edge] at hparent hparent'
    exact (h.length_parentsTree_le_one name).mp hle parent parent' hparent hparent'
  have hnext := nodup_childrenNames h.children
  cases hvisit : Digraph.visitAll
      (Digraph.visitOnce (unlisted groups) (childrenNames groups) (groups.length + 1)) roots
      [] with
  | repeated name =>
      refine absurd hvisit (Digraph.visitAll_ne_repeated hunique
        (Digraph.visitOnce_ne_repeated hunique hnext) hnodup
        (by simp [Digraph.Upward])
        (fun root hmem _ => ⟨List.not_mem_nil, fun parent hedge => ?_⟩) name)
      rw [h.edge] at hedge
      exact absurd hedge ((h.mem_withoutParent.mp (hroots root hmem)).2 parent)
  | outOfFuel =>
      exact absurd hvisit (Digraph.visitAll_ne_outOfFuel (fun _ => unlisted_eq_false.mp)
        (fun name _ hseen => visitOnce_ne_outOfFuel hseen name) within_nil)
  | done visitedGroups =>
      obtain ⟨new, hnew, hforest, -⟩ :=
        Digraph.visitAll_adds (fun _ _ _ => Digraph.visitOnce_adds) hvisit
      rw [List.nil_append] at hnew
      exact ⟨visitedGroups, rfl, hnew ▸ hforest⟩

/-- The groups without a parent are resolved, when no group has several. -/
theorem exists_resolveAll (hsingle : ∀ name ∈ keys groups, (parentsTree groups name).length ≤ 1) :
    ∃ entries,
      resolveAll (resolveEntry groups (groups.length + 1))
        (withoutParent groups) [] [] =
          .ok (entries, entries.names) ∧
      entries.roots = withoutParent groups ∧
      LdapSync.Describes groups entries ∧
      Digraph.Forest (unlisted groups) (childrenNames groups)
        (withoutParent groups) entries.names := by
  have hnodup : (withoutParent groups).Nodup := nodup_keys.filter _
  obtain ⟨new, hvisit, hforest⟩ := h.exists_visitAll hsingle hnodup fun _ => id
  have hagrees := resolveAll_agrees (groups.length + 1)
    (fun name hname => resolveEntry_agrees h.closed (h.mem_withoutParent.mp hname).1) [] []
  rw [hvisit] at hagrees
  cases hresolve : resolveAll (resolveEntry groups (groups.length + 1))
      (withoutParent groups) [] [] with
  | error failure =>
      rw [hresolve] at hagrees
      rcases hagrees.of_error with ⟨_, _, -, hvisit'⟩ | ⟨-, hvisit'⟩ <;> cases hvisit'
  | ok result =>
      obtain ⟨entries, visitedGroups'⟩ := result
      rw [hresolve] at hagrees
      obtain ⟨hroots, hdescribes, rfl, hvisit'⟩ := hagrees.of_ok
      cases hvisit'
      exact ⟨entries, rfl, hroots, hdescribes, hforest⟩

/-- One unit of fuel for each group that is visited is enough to resolve them one by one. -/
theorem exists_resolveEntries (depth : Nat) {names seen seen' visited : List String} {fuel : Nat}
    (hvisit : Digraph.visitAll
      (Digraph.visitOnce (unlisted groups) (childrenNames groups) depth) names seen =
        .done seen')
    (hlisted : ∀ name ∈ names, name ∈ groups.map (·.groupName)) (hperm : visited.Perm seen)
    (hfuel : seen'.length ≤ fuel + seen.length) :
    ∃ entries visited', LdapSync.resolveEntries groups fuel names visited =
      some (entries, visited') ∧ visited'.Perm seen' := by
  induction depth generalizing names seen seen' visited fuel with
  | zero =>
      cases names with
      | nil =>
          cases hvisit
          exact ⟨.nil, visited, by rw [LdapSync.resolveEntries], hperm⟩
      | cons name rest => cases hvisit
  | succ depth ih =>
      induction names generalizing seen visited fuel with
      | nil =>
          cases hvisit
          exact ⟨.nil, visited, by rw [LdapSync.resolveEntries], hperm⟩
      | cons name rest ihrest =>
          obtain ⟨hname, hrest⟩ := List.forall_mem_cons.mp hlisted
          obtain ⟨group, hmem, rfl⟩ := List.mem_map.mp hname
          have hnotskipped : ¬ unlisted groups group.groupName = true := by
            rw [unlisted_eq_false.mpr hname]
            exact Bool.false_ne_true
          have hnext : childrenNames groups group.groupName = group.childrenNames := by
            rw [childrenNames, asMap_eq h.names hmem]
            rfl
          have hfind : LdapSync.find groups group.groupName = some group := by
            obtain ⟨group', hgroup'⟩ :=
              Option.isSome_iff_exists.mp (LdapSync.find_isSome.mpr hname)
            obtain ⟨hmem', hname'⟩ := LdapSync.find_groupName hgroup'
            rw [hgroup', List.inj_on_of_nodup_map h.names hmem' hmem hname']
          rw [Digraph.visitAll, Digraph.visitOnce, if_neg hnotskipped] at hvisit
          split_ifs at hvisit with hseen
          rw [hnext] at hvisit
          cases hbelow : Digraph.visitAll
              (Digraph.visitOnce (unlisted groups) (childrenNames groups) depth)
              group.childrenNames (seen ++ [group.groupName]) with
          | repeated name => rw [hbelow] at hvisit; cases hvisit
          | outOfFuel => rw [hbelow] at hvisit; cases hvisit
          | done seen₁ =>
              rw [hbelow] at hvisit
              obtain ⟨below, hseen₁, -⟩ :=
                Digraph.visitAll_adds (fun _ _ _ => Digraph.visitOnce_adds) hbelow
              obtain ⟨behind, hseen', -⟩ :=
                Digraph.visitAll_adds (fun _ _ _ => Digraph.visitOnce_adds) hvisit
              have hlength₁ := congrArg List.length hseen₁
              have hlength' := congrArg List.length hseen'
              simp only [List.length_append, List.length_singleton] at hlength₁ hlength'
              obtain ⟨fuel, rfl⟩ : ∃ fuel', fuel = fuel' + 1 := ⟨fuel - 1, by omega⟩
              have hperm₁ : (group.groupName :: visited).Perm (seen ++ [group.groupName]) :=
                (hperm.cons _).trans (List.perm_append_singleton _ _).symm
              have hfuel₁ : seen₁.length ≤ fuel + (seen ++ [group.groupName]).length := by
                rw [List.length_append, List.length_singleton]
                omega
              have hfuel' : seen'.length ≤ fuel + seen₁.length := by omega
              obtain ⟨children, visited₁, hchildren, hvisited₁⟩ :=
                ih hbelow (h.closed group hmem) hperm₁ hfuel₁
              obtain ⟨entries, visited', hentries, hvisited'⟩ :=
                ihrest hvisit hrest hvisited₁ hfuel'
              refine ⟨.cons group.groupName children entries, visited', ?_, hvisited'⟩
              rw [LdapSync.resolveEntries, if_neg fun hmem => hseen (hperm.mem_iff.mp hmem), hfind]
              simp only [Option.bind_eq_bind, Option.bind_some, hchildren, hentries]
              rfl

end WellFormed

section

variable {groups groups' : List Group} {ignoreMissingGroups : Bool}
  (hnames : (groups.map (·.groupName)).Nodup)
  (hchildren : ∀ group ∈ groups, group.childrenNames.Nodup)

include hnames hchildren

theorem wellFormed_of_checkGroups
    (h : checkGroups (groups.map (·.groupName)) ignoreMissingGroups groups = .ok groups') :
    WellFormed groups' where
  names := by
    rw [names_of_checkGroups h]
    exact hnames
  children group' hgroup' := by
    rw [(checkGroups_ok h).1] at hgroup'
    obtain ⟨group, hmem, rfl⟩ := List.mem_map.mp hgroup'
    exact (hchildren group hmem).filter _
  closed group' hgroup' child hchild := by
    rw [names_of_checkGroups h]
    rw [(checkGroups_ok h).1] at hgroup'
    obtain ⟨group, hmem, rfl⟩ := List.mem_map.mp hgroup'
    exact of_decide_eq_true (List.mem_filter.mp hchild).2

/-- What the resolver does with the groups once the missing ones are gone. -/
theorem resolve_spec (hchecked :
      checkGroups (groups.map (·.groupName)) ignoreMissingGroups groups = .ok groups') :
    (∃ entries, resolveGroupTree groups ignoreMissingGroups = .ok entries ∧
      LdapSync.Describes groups' entries ∧ entries.roots = withoutParent groups' ∧
      entries.names.Perm (groups.map (·.groupName)) ∧
      Resolvable groups ignoreMissingGroups) ∨
    (∃ failure, resolveGroupTree groups ignoreMissingGroups = .error failure ∧
      failure.message.isSome ∧ failure ≠ .recursionNotFound ∧
      ¬ Resolvable groups ignoreMissingGroups) := by
  have hwell := wellFormed_of_checkGroups hnames hchildren hchecked
  have hnames' := names_of_checkGroups hchecked
  have hsubgroup : ∀ name ∈ groups.map (·.groupName), ∀ parent,
      Subgroup groups' parent name ↔ Subgroup groups parent name := by
    intro name hname parent
    rw [subgroup_checkGroups hchecked, and_iff_left hname]
  unfold resolveGroupTree
  rw [hchecked]
  dsimp only [bind, Except.bind]
  cases hroots : rootGroups groups' (keys groups') with
  | error failure =>
      obtain ⟨name, hkey, hmany, rfl⟩ := rootGroups_error hroots
      refine .inr ⟨_, rfl, rfl, Failure.noConfusion, fun hresolvable => ?_⟩
      rw [mem_keys, hnames'] at hkey
      have hle : (parentsTree groups' name).length ≤ 1 := by
        rw [hwell.length_parentsTree_le_one]
        simp only [hsubgroup name hkey]
        exact hresolvable.single name hkey
      omega
  | ok roots =>
      obtain ⟨rfl, hsingle⟩ := rootGroups_ok hroots
      obtain ⟨entries, hresolve, hentries, hdescribes, hforest⟩ := hwell.exists_resolveAll hsingle
      have hlisted : entries.names ⊆ groups'.map (·.groupName) := fun name hname =>
        unlisted_eq_false.mp (hforest.kept hname)
      have hacyclic := hwell.length_visited_iff (fun _ => id) hforest
      dsimp only
      rw [show (keys groups').filter (fun name => parentsTree groups' name = []) =
        withoutParent groups' from rfl, hresolve]
      by_cases hlength : entries.names.length = (keys groups').length
      · have hcycles := hacyclic.mp hlength
        refine .inl ⟨entries, ?_, hdescribes, hentries, ?_, ?_⟩
        · simp only [hlength, ne_eq, not_true_eq_false, if_false]
          rfl
        · rw [← hnames']
          refine (hforest.nodup.subperm hlisted).perm_of_length_le ?_
          rw [hlength, length_keys hwell.names]
        · refine ⟨(checkGroups_ok hchecked).2, fun name hname => ?_,
            (acyclic_checkGroups hchecked).mp hcycles⟩
          have hle := hsingle name (mem_keys.mpr (by rwa [hnames']))
          rw [hwell.length_parentsTree_le_one] at hle
          simpa only [hsubgroup name hname] using hle
      · have hcycles : ∃ name, Relation.TransGen (Subgroup groups') name name := by
          by_contra hnone
          exact hlength (hacyclic.mpr fun name hcycle => hnone ⟨name, hcycle⟩)
        obtain ⟨name, hcycle⟩ := hcycles
        obtain ⟨below, hedge, -⟩ := Relation.TransGen.head'_iff.mp hcycle
        obtain ⟨groupName, path, hfind⟩ := hwell.findRecursion_eq
          (fun _ hkey => mem_keys.mp hkey) ⟨name, mem_keys.mpr hedge.listed, hcycle⟩
          (fun _ hvisited => hwell.forest_acyclic hforest hvisited)
        refine .inr ⟨.recursion groupName path, ?_, rfl, Failure.noConfusion, fun hresolvable => ?_⟩
        · simp only [hlength, ne_eq, not_false_eq_true, if_true, hfind]
          rfl
        · exact (acyclic_checkGroups hchecked).mpr hresolvable.acyclic name hcycle

/-- The resolver returns the forest of the groups if there is one, and ends with an exception of
its own otherwise, never with the one for a recursion that is not found. -/
theorem resolveGroupTree_spec :
    ((∃ entries, resolveGroupTree groups ignoreMissingGroups = .ok entries) ↔
      Resolvable groups ignoreMissingGroups) ∧
    (∀ entries, resolveGroupTree groups ignoreMissingGroups = .ok entries →
      LdapSync.Accepted groups entries) ∧
    (∀ failure, resolveGroupTree groups ignoreMissingGroups = .error failure →
      failure.message.isSome ∧ failure ≠ .recursionNotFound) := by
  cases hchecked : checkGroups (groups.map (·.groupName)) ignoreMissingGroups groups with
  | error failure =>
      obtain ⟨hstrict, group, hmem, child, hchild, hmissing, rfl⟩ := checkGroups_error hchecked
      have hresult : resolveGroupTree groups ignoreMissingGroups =
          .error (.missing child group.groupName) := by
        unfold resolveGroupTree
        rw [hchecked]
        rfl
      rw [hresult]
      refine ⟨⟨fun ⟨_, h⟩ => (nomatch h), fun hresolvable => ?_⟩, fun _ h => (nomatch h), ?_⟩
      · exact absurd (hresolvable.exist hstrict group hmem child hchild) hmissing
      · rintro _ ⟨⟩
        exact ⟨rfl, Failure.noConfusion⟩
  | ok groups' =>
      rcases resolve_spec hnames hchildren hchecked with
        ⟨entries, hresult, hdescribes, hroots, hperm, hresolvable⟩ |
        ⟨failure, hresult, hmessage, hfound, hresolvable⟩
      · rw [hresult]
        refine ⟨⟨fun _ => hresolvable, fun _ => ⟨entries, rfl⟩⟩, ?_, fun _ h => nomatch h⟩
        rintro _ ⟨⟩
        have hwell := wellFormed_of_checkGroups hnames hchildren hchecked
        refine ⟨hperm, LdapSync.follows_of_describes (withoutMissing_of_checkGroups hchecked)
          hdescribes, fun name => ?_, fun name hname group hmem group' hmem' hchild hchild' => ?_⟩
        · rw [hroots, hwell.mem_withoutParent, names_of_checkGroups hchecked]
          refine and_congr_right fun hname => ?_
          simp only [subgroup_checkGroups hchecked, and_iff_left hname]
          constructor
          · exact fun hnone group hmem hchild => hnone group.groupName ⟨group, hmem, rfl, hchild⟩
          · rintro hnone parent ⟨group, hmem, -, hchild⟩
            exact hnone group hmem hchild
        · exact hresolvable.single name hname _ _ ⟨group, hmem, rfl, hchild⟩
            ⟨group', hmem', rfl, hchild'⟩
      · rw [hresult]
        refine ⟨⟨fun ⟨_, h⟩ => (nomatch h), fun h => absurd h hresolvable⟩,
          fun _ h => (nomatch h), ?_⟩
        rintro _ ⟨⟩
        exact ⟨hmessage, hfound⟩

/-- The tree that the synchronisation goes through is there exactly if the resolver returns one,
which has its roots and children in the order of the keys. -/
theorem ldapSync_resolveGroupTree_isSome :
    (LdapSync.resolveGroupTree groups ignoreMissingGroups).isSome ↔
      ∃ entries, resolveGroupTree groups ignoreMissingGroups = .ok entries := by
  rw [(resolveGroupTree_spec hnames hchildren).1]
  cases hchecked : checkGroups (groups.map (·.groupName)) ignoreMissingGroups groups with
  | error failure =>
      obtain ⟨hstrict, group, hmem, child, hchild, hmissing, -⟩ := checkGroups_error hchecked
      have hnone : LdapSync.withoutMissing groups ignoreMissingGroups = none := by
        unfold LdapSync.withoutMissing
        refine if_neg (not_or_intro (by rw [hstrict]; exact Bool.false_ne_true) fun hall => ?_)
        exact hmissing (LdapSync.find_isSome.mp (hall group hmem child hchild))
      rw [LdapSync.resolveGroupTree, hnone]
      refine iff_of_false Bool.false_ne_true fun hresolvable => ?_
      exact hmissing (hresolvable.exist hstrict group hmem child hchild)
  | ok groups' =>
      have hwell := wellFormed_of_checkGroups hnames hchildren hchecked
      have hnames' := names_of_checkGroups hchecked
      have hparents : ∀ name, (parentsTree groups' name).length =
          (LdapSync.parents groups' name).length := fun name => by
        rw [parentsTree_eq hwell.children]
      have hsingle : (∀ name ∈ groups.map (·.groupName), ∀ parent parent',
          Subgroup groups parent name → Subgroup groups parent' name → parent = parent') ↔
          ∀ name ∈ groups'.map (·.groupName), (parentsTree groups' name).length ≤ 1 := by
        rw [hnames']
        refine forall₂_congr fun name hname => ?_
        simp only [hwell.length_parentsTree_le_one, subgroup_checkGroups hchecked,
          and_iff_left hname]
      rw [LdapSync.resolveGroupTree, withoutMissing_of_checkGroups hchecked]
      dsimp only [bind, Option.bind]
      split_ifs with hmany
      · obtain ⟨name, hname, hmany⟩ := hmany
        refine iff_of_false Bool.false_ne_true fun hresolvable => ?_
        have hle := hsingle.mp hresolvable.single name hname
        rw [hparents] at hle
        omega
      · have hone : ∀ name ∈ groups'.map (·.groupName), (parentsTree groups' name).length ≤ 1 := by
          intro name hname
          rw [hparents]
          exact Nat.le_of_not_lt fun hmany' => hmany ⟨name, hname, hmany'⟩
        have hroots : ∀ name, name ∈ (groups'.map (·.groupName)).filter
            (fun name => LdapSync.parents groups' name = []) ↔ name ∈ withoutParent groups' := by
          intro name
          rw [withoutParent, List.mem_filter, List.mem_filter, mem_keys,
            parentsTree_eq hwell.children]
        obtain ⟨new, hvisit, hforest⟩ := hwell.exists_visitAll
          (fun name hname => hone name (mem_keys.mp hname)) (hwell.names.filter _)
          fun name => (hroots name).mp
        have hfuel : new.length ≤ groups'.length + 1 + ([] : List String).length := by
          have hlength := (hforest.nodup.subperm fun name hname =>
            unlisted_eq_false.mp (hforest.kept hname)).length_le
          rw [List.length_map] at hlength
          exact Nat.le_succ_of_le hlength
        obtain ⟨entries, visited, hresolve, hperm⟩ := hwell.exists_resolveEntries _ hvisit
          (fun name hname => (List.mem_filter.mp hname).1) (.refl _) hfuel
        have hcycles := hwell.length_visited_iff (fun name => (hroots name).mpr) hforest
        rw [length_keys hwell.names, ← hperm.length_eq] at hcycles
        rw [hresolve]
        dsimp only
        split_ifs with hlength
        · refine iff_of_false Bool.false_ne_true fun hresolvable => hlength ?_
          exact hcycles.mpr ((acyclic_checkGroups hchecked).mpr hresolvable.acyclic)
        · refine iff_of_true rfl ⟨(checkGroups_ok hchecked).2, hsingle.mpr hone, ?_⟩
          exact (acyclic_checkGroups hchecked).mp (hcycles.mp (not_ne_iff.mp hlength))

end

/-- Two groups that are each other's subgroups, beside a root. -/
theorem resolveGroupTree_spec_of_cycle :
    ¬ Resolvable [⟨"a", []⟩, ⟨"b", ["c"]⟩, ⟨"c", ["b", "d"]⟩] true ∧
      resolveGroupTree [⟨"a", []⟩, ⟨"b", ["c"]⟩, ⟨"c", ["b", "d"]⟩] true =
        .error (.recursion "b" ["b", "c", "b"]) := by
  have hresult : resolveGroupTree [⟨"a", []⟩, ⟨"b", ["c"]⟩, ⟨"c", ["b", "d"]⟩] true =
      .error (.recursion "b" ["b", "c", "b"]) := by decide
  refine ⟨fun hresolvable => ?_, hresult⟩
  obtain ⟨entries, h⟩ :=
    (resolveGroupTree_spec (by decide) (by decide)).1.mpr hresolvable
  rw [hresult] at h
  cases h

end Keycloak.Groups.GroupTreeResolver
