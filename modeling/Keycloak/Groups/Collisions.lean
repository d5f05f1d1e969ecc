import Keycloak.Groups.PathLookup
import Keycloak.Groups.Requests
import Keycloak.Lib.Utf16
import Mathlib.Data.List.Infix

/-!
# Groups with the name of a sibling

`GroupsResource.addTopLevelGroup` and `GroupResource.addChild` for a representation without an id.
The first asks for one hit of a search in the names of all groups and looks at the top level group
above it; the second looks at the subgroups.
-/

namespace Keycloak.Groups

/-- What the database decides about the query `getGroupIdsByNameContaining`: whether a name is like
`%search%`, and the order of the names. -/
structure Database where
  like : String → String → Bool
  le : String → String → Bool

namespace Table

/-- A result of the query, in the order of the names. -/
structure Hits (database : Database) (t : Table) (search : String) (ids : List GroupId) :
    Prop where
  nodup : ids.Nodup
  mem_iff : ∀ group, group ∈ ids ↔ ∃ name, t.getName group = some name ∧ database.like search name
  sorted : ids.Pairwise fun group group' => ∀ name ∈ t.getName group, ∀ name' ∈ t.getName group',
    database.le name name'

/-- A forest in which all groups have names, and siblings have distinct ones. -/
structure SiblingForest (t : Table) : Prop extends Forest t where
  distinct : t.DistinctSiblings
  named : ∀ {group}, t.Exists group → ∃ name, t.getName group = some name

def RootOf (t : Table) (group root : GroupId) : Prop :=
  (group = root ∨ t.Above root group) ∧ t.getParentId root = none

/-- The search stops at a group that is not below a namesake on the top level, while there is
one. -/
def Missed (t : Table) (name : String) (hits : List GroupId) : Prop :=
  (∃ group, t.rows group = some ⟨some name, none⟩) ∧
    ∀ hit ∈ hits.head?, ∀ root, t.RootOf hit root → t.getName root ≠ some name

structure Added (t : Table) (name : String) (parent : Option GroupId) (t' : Table) : Prop where
  new : t'.rows t.nextId = some ⟨some name, parent⟩
  fresh : ¬ t.Exists t.nextId
  kept : ∀ group, group ≠ t.nextId → t'.rows group = t.rows group

section

variable {t : Table} {group root : GroupId} {name : String} {parent : Option GroupId}

theorem RootOf.of_topLevelOf {fuel : Nat} (h : t.topLevelOf fuel group = some root) :
    t.RootOf group root := by
  induction fuel generalizing group with
  | zero => cases h
  | succ fuel ih =>
      rw [topLevelOf] at h
      split at h
      · rename_i p hparent
        obtain ⟨p', hp, h⟩ := Option.bind_eq_some_iff.mp h
        obtain ⟨-, -, rfl⟩ := Option.map_eq_some_iff.mp hp
        obtain ⟨habove, hroot⟩ := ih h
        refine ⟨.inr (above_iff.mpr ⟨p, hparent, ?_⟩), hroot⟩
        exact habove
      · rename_i hparent
        cases h
        exact ⟨.inl rfl, hparent⟩

theorem RootOf.unique {fuel : Nat} {root' : GroupId} (h : t.topLevelOf fuel group = some root)
    (h' : t.RootOf group root') : root' = root := by
  induction fuel generalizing group with
  | zero => cases h
  | succ fuel ih =>
      obtain ⟨habove, hroot⟩ := h'
      rw [topLevelOf] at h
      split at h
      · rename_i p hparent
        obtain ⟨p', hp, h⟩ := Option.bind_eq_some_iff.mp h
        obtain ⟨-, -, rfl⟩ := Option.map_eq_some_iff.mp hp
        rcases habove with rfl | habove
        · rw [hparent] at hroot
          cases hroot
        · obtain ⟨p', hp', hrest⟩ := above_iff.mp habove
          rw [hparent] at hp'
          cases hp'
          exact ih h ⟨hrest, hroot⟩
      · rename_i hparent
        cases h
        rcases habove with rfl | habove
        · rfl
        · obtain ⟨p, hp, -⟩ := above_iff.mp habove
          rw [hparent] at hp
          cases hp

theorem Hits.exists {database : Database} {search : String} {ids : List GroupId}
    (h : Hits database t search ids) (hgroup : group ∈ ids) : t.Exists group := by
  obtain ⟨name, hname, -⟩ := (h.mem_iff group).mp hgroup
  obtain ⟨e, hrow, -⟩ := Option.bind_eq_some_iff.mp hname
  exact Option.isSome_iff_exists.mpr ⟨e, hrow⟩

theorem Stored.added_insertRow (ht : t.Stored) : t.Added name parent (t.insertRow name parent) where
  new := insertRow_rows_self
  fresh := ht.not_exists_nextId
  kept _ hne := Function.update_of_ne hne ..

theorem Stored.distinct_insertRow_iff (ht : t.Stored) (hdistinct : t.DistinctSiblings) :
    (t.insertRow name parent).DistinctSiblings ↔
      ∀ group, t.rows group ≠ some ⟨some name, parent⟩ := by
  constructor
  · intro hafter group hrow
    have hexists : t.Exists group := by
      rw [Exists, hrow]
      rfl
    have hold : (t.insertRow name parent).rows group = some ⟨some name, parent⟩ :=
      (ht.insertRow_rows hexists).trans hrow
    have heq := hafter name hold insertRow_rows_self
    exact ht.not_exists_nextId (heq ▸ hexists)
  · exact fun hnew name' => DistinctNamed.insertRow (hdistinct name') fun _ => hnew

end

end Table

/-! ## The answers -/

/-- The hit of the search lies below a top level group with the name of the representation. -/
def topLevelGroupNamed (t : Table) (rep : GroupRepresentation) (found : Option GroupId) : Bool :=
  ((t.searchForGroupByName t.nextId found.toList).bind List.head?).map t.getName = some rep.name

/-- The request is answered with `exists`, for which `taken` is the reason, and the groups are as
they were; or the new group is there, and its representation can be built.  The names of siblings
are distinct in both cases. -/
def Outcome.KeepsSiblings (t : Table) (name : String) (parent : Option GroupId) (taken : Bool) :
    Outcome → Prop
  | .refused => taken = true ∧ t.DistinctSiblings
  | .done t' => t.Added name parent t' ∧ t'.DistinctSiblings
  | .rendering t' child => child = t.nextId ∧ t.Added name parent t' ∧ t'.DistinctSiblings ∧
      (t'.toGroupHierarchy t'.nextId child).isSome
  | .hangs => False

section

open Table

variable {t : Table} {name : String}

theorem childOf_new (t : Table) (name : String) :
    childOf t ⟨none, some name⟩ = some (t.createGroup (some name), t.nextId) := by
  have hname : (t.createGroup (some name)).setName t.nextId name = t.createGroup (some name) := by
    simp [Table.setName, Table.modify, Table.createGroup]
  rw [childOf, updateGroup]
  exact congrArg (fun table => some (table, t.nextId)) hname

theorem subGroupNamed_iff (ht : t.SiblingForest) {group : GroupId} :
    subGroupNamed t group ⟨none, some name⟩ ↔
      ∃ sub, t.rows sub = some ⟨some name, some group⟩ := by
  simp only [subGroupNamed, List.any_eq_true, Bool.or_eq_true, decide_eq_true_eq,
    ht.mem_getSubGroups]
  constructor
  · rintro ⟨sub, hlink, hnone | hname⟩
    · obtain ⟨name', hname'⟩ := ht.named (exists_of_getParentId hlink)
      rw [hnone] at hname'
      cases hname'
    · exact ⟨sub, rows_eq_iff.mpr ⟨exists_of_getParentId hlink, hname, hlink⟩⟩
  · rintro ⟨sub, hrow⟩
    obtain ⟨-, hname, hlink⟩ := rows_eq_iff.mp hrow
    exact ⟨sub, hlink, .inr hname⟩

/-- A subgroup with a name that is taken is refused, and each other one is added. -/
theorem addChild_keepsSiblings (ht : t.SiblingForest) {group : GroupId} (hgroup : t.Exists group) :
    (addChild t group ⟨none, some name⟩).KeepsSiblings t name (some group)
      (subGroupNamed t group ⟨none, some name⟩) := by
  have hparent : ∀ p, some group = some p → t.Exists p := by
    rintro p ⟨⟩
    exact hgroup
  unfold addChild
  by_cases hnamed : subGroupNamed t group ⟨none, some name⟩
  · rw [if_pos hnamed]
    exact ⟨hnamed, ht.distinct⟩
  · have hmove : (t.createGroup (some name)).moveGroup t.nextId (some group) =
        some (t.insertRow name (some group)) := ht.toStored.createGroup_moveGroup hparent
    rw [if_neg hnamed, childOf_new]
    dsimp only
    rw [hmove]
    refine ⟨rfl, ht.toStored.added_insertRow, ?_, ?_⟩
    · refine (ht.toStored.distinct_insertRow_iff ht.distinct).mpr fun sub hrow => ?_
      exact hnamed ((subGroupNamed_iff ht).mpr ⟨sub, hrow⟩)
    · exact (ht.toForest.insertRow hparent).toGroupHierarchy_isSome
        (exists_insertRow.mpr (.inl rfl)) (Nat.le_refl _)

theorem searchForGroupByName_single (ht : t.Forest) {hit root : GroupId}
    (hhit : t.Exists hit) (hroot : t.RootOf hit root) :
    t.searchForGroupByName t.nextId [hit] = some [root] := by
  obtain ⟨root', htop⟩ :=
    Option.isSome_iff_exists.mp (ht.topLevelOf_isSome hhit (Nat.le_refl t.nextId))
  rw [← hroot.unique htop] at htop
  rw [searchForGroupByName, List.foldlM_cons, getGroupById_eq hhit]
  simp [htop]

theorem exists_rootOf (ht : t.Forest) {group : GroupId} (hgroup : t.Exists group) :
    ∃ root, t.RootOf group root := by
  obtain ⟨root, htop⟩ :=
    Option.isSome_iff_exists.mp (ht.topLevelOf_isSome hgroup (Nat.le_refl t.nextId))
  exact ⟨root, .of_topLevelOf htop⟩

theorem Table.RootOf.eq (ht : t.Forest) {group root root' : GroupId} (hgroup : t.Exists group)
    (h : t.RootOf group root) (h' : t.RootOf group root') : root = root' := by
  obtain ⟨top, htop⟩ :=
    Option.isSome_iff_exists.mp (ht.topLevelOf_isSome hgroup (Nat.le_refl t.nextId))
  rw [h.unique htop, h'.unique htop]

theorem Table.RootOf.exists (ht : t.Forest) {group root : GroupId} (hgroup : t.Exists group)
    (h : t.RootOf group root) : t.Exists root := by
  rcases h.1 with rfl | habove
  · exact hgroup
  · obtain ⟨_, -, hlink⟩ := Relation.TransGen.tail'_iff.mp habove
    exact ht.parent_exists hlink

/-- The answer depends on the name of the top level group above the first hit. -/
theorem addTopLevelGroup_eq (ht : t.Forest) (name : String) {found : Option GroupId}
    (hfound : ∀ hit ∈ found, t.Exists hit) :
    (topLevelGroupNamed t ⟨none, some name⟩ found = true ↔
      ∃ hit ∈ found, ∃ root, t.RootOf hit root ∧ t.getName root = some name) ∧
    addTopLevelGroup t ⟨none, some name⟩ found =
      if topLevelGroupNamed t ⟨none, some name⟩ found then .refused
      else .done (t.insertRow name none) := by
  have hmove : (t.createGroup (some name)).moveGroup t.nextId none =
      some (t.insertRow name none) := ht.toStored.createGroup_moveGroup fun _ h => nomatch h
  cases found with
  | none =>
      refine ⟨⟨fun h => ?_, fun ⟨hit, h, _⟩ => nomatch h⟩, ?_⟩
      · simp [topLevelGroupNamed, searchForGroupByName] at h
      · have hfree : topLevelGroupNamed t ⟨none, some name⟩ none = false := by
          simp [topLevelGroupNamed, searchForGroupByName]
        rw [hfree]
        simp [addTopLevelGroup, searchForGroupByName, childOf_new, hmove]
  | some hit =>
      have hhit : t.Exists hit := hfound hit rfl
      obtain ⟨root, hroot⟩ := exists_rootOf ht hhit
      have hsearch := searchForGroupByName_single ht hhit hroot
      have hnamed : topLevelGroupNamed t ⟨none, some name⟩ (some hit) = true ↔
          t.getName root = some name := by
        simp [topLevelGroupNamed, hsearch]
      refine ⟨hnamed.trans ⟨fun h => ⟨hit, rfl, root, hroot, h⟩, ?_⟩, ?_⟩
      · rintro ⟨_, ⟨⟩, root', hroot', hname⟩
        rwa [hroot.eq ht hhit hroot']
      · obtain ⟨paths, hpaths⟩ := Option.isSome_iff_exists.mp
          (ht.toGroupHierarchy_isSome (hroot.exists ht hhit) (Nat.le_refl t.nextId))
        unfold addTopLevelGroup
        rw [Option.toList_some, hsearch]
        by_cases hname : t.getName root = some name
        · rw [if_pos (hnamed.mpr hname)]
          simp [hpaths, hname]
        · rw [if_neg (fun h => hname (hnamed.mp h))]
          simp [hpaths, hname, childOf_new, hmove]

end

/-! ## The results -/

/-- A new top level group has the name of another one exactly if the search misses that one. -/
theorem addTopLevelGroup_keepsSiblings_iff {t : Table} (ht : t.SiblingForest) {database : Database}
    {name : String} {hits : List GroupId} (hhits : Table.Hits database t name hits) :
    (addTopLevelGroup t ⟨none, some name⟩ hits.head?).KeepsSiblings t name none
        (topLevelGroupNamed t ⟨none, some name⟩ hits.head?) ↔
      ¬ t.Missed name hits := by
  have hfound : ∀ hit ∈ hits.head?, t.Exists hit := fun hit h =>
    hhits.exists (List.mem_of_mem_head? h)
  obtain ⟨hnamed, hresult⟩ := addTopLevelGroup_eq ht.toForest name hfound
  rw [hresult]
  split_ifs with htaken
  · obtain ⟨hit, hhit, root, hroot, hname⟩ := hnamed.mp htaken
    exact ⟨fun _ hmissed => hmissed.2 hit hhit root hroot hname, fun _ => ⟨htaken, ht.distinct⟩⟩
  · have hdistinct : (t.insertRow name none).DistinctSiblings ↔
        ∀ group, t.rows group ≠ some ⟨some name, none⟩ :=
      ht.toStored.distinct_insertRow_iff ht.distinct
    have hmiss : ∀ hit ∈ hits.head?, ∀ root, t.RootOf hit root → t.getName root ≠ some name :=
      fun hit hhit root hroot hname => htaken (hnamed.mpr ⟨hit, hhit, root, hroot, hname⟩)
    constructor
    · rintro ⟨-, hkept⟩ ⟨⟨group, hrow⟩, -⟩
      exact hdistinct.mp hkept group hrow
    · intro hfree
      refine ⟨ht.toStored.added_insertRow, hdistinct.mpr fun group hrow => ?_⟩
      exact hfree ⟨⟨group, hrow⟩, hmiss⟩

/-- A new subgroup never has the name of a sibling; a new top level group does exactly if there is a
namesake and the search misses it. -/
theorem keepsSiblings_iff {t : Table} (ht : t.SiblingForest) {database : Database} {name : String}
    {hits : List GroupId} (hhits : Table.Hits database t name hits) :
    (∀ group, t.Exists group →
      (handle t (.addChild group ⟨none, some name⟩)).KeepsSiblings t name (some group)
        (subGroupNamed t group ⟨none, some name⟩)) ∧
    ((handle t (.addTopLevelGroup ⟨none, some name⟩ hits.head?)).KeepsSiblings t name none
        (topLevelGroupNamed t ⟨none, some name⟩ hits.head?) ↔
      ¬ t.Missed name hits) := by
  refine ⟨fun group hgroup => ?_, addTopLevelGroup_keepsSiblings_iff ht hhits⟩
  rw [handle, Table.getGroupById_eq hgroup]
  exact addChild_keepsSiblings ht hgroup

/-! ### A name within the name of a subgroup -/

/-- A group `a` with a group `ab` below it, and beside it a group `b`. -/
def abGroups : Table := Table.threeGroups "a" "ab" "b"

theorem abGroups_siblings : abGroups.SiblingForest where
  toForest := Table.threeGroups_forest
  distinct := Table.threeGroups_distinct (by decide)
  named hexists := by
    obtain ⟨name, -, hname⟩ := Table.threeGroups_getName hexists
    exact ⟨name, hname⟩

def plainDatabase : Database where
  like search name := decide (search.toList <:+: name.toList)
  le name name' := decide (Utf16.NotAfter name name')

/-- The subgroup comes first. -/
theorem abGroups_hits : Table.Hits plainDatabase abGroups "b" [1, 2] where
  nodup := by decide
  mem_iff group := by
    constructor
    · intro hmem
      rcases List.mem_pair.mp hmem with rfl | rfl
      · exact ⟨"ab", rfl, by decide⟩
      · exact ⟨"b", rfl, by decide⟩
    · rintro ⟨name, hname, hlike⟩
      obtain ⟨e, hrow, he⟩ := Option.bind_eq_some_iff.mp hname
      rcases Table.threeGroups_rows hrow with ⟨rfl, rfl⟩ | ⟨rfl, -⟩ | ⟨rfl, -⟩
      · cases he
        exact absurd hlike (by decide)
      · exact List.mem_cons_self
      · exact List.mem_cons_of_mem _ List.mem_cons_self
  sorted := by
    refine List.pairwise_pair.mpr ?_
    rintro _ ⟨⟩ _ ⟨⟩
    decide

/-- A group `b` can be added below `a`. -/
theorem abGroups_keepsSiblings :
    (handle abGroups (.addChild 0 ⟨none, some "b"⟩)).KeepsSiblings abGroups "b" (some 0)
      (subGroupNamed abGroups 0 ⟨none, some "b"⟩) :=
  (keepsSiblings_iff abGroups_siblings abGroups_hits).1 0 (by decide)

/-- The search for `b` finds `ab`, which is below `a`, and there is another group `b` after the
request. -/
theorem abGroups_second_b :
    ¬ (handle abGroups (.addTopLevelGroup ⟨none, some "b"⟩ (some 1))).KeepsSiblings abGroups "b"
      none (topLevelGroupNamed abGroups ⟨none, some "b"⟩ (some 1)) := by
  intro hkept
  refine (addTopLevelGroup_keepsSiblings_iff abGroups_siblings abGroups_hits).mp hkept
    ⟨⟨2, rfl⟩, ?_⟩
  rintro _ ⟨⟩ root hroot
  have htop : abGroups.topLevelOf 3 1 = some 0 := by decide
  rw [hroot.unique htop]
  decide

end Keycloak.Groups
