import Keycloak.Groups.Collisions
import Keycloak.Lib.Pages
import Mathlib.Data.List.Sort
import Mathlib.Data.List.Dedup

/-!
# Pages of a group search

`JpaRealmProvider.searchForGroupByName` with a window of the hits, and the number of its results.
The window counts hits at any depth, and the groups above them are made distinct after it.
-/

namespace Keycloak.Groups

namespace Table

def sortByName (t : Table) (list : List GroupId) : List GroupId :=
  list.insertionSort fun group group' =>
    Utf16.NotAfter ((t.getName group).getD "") ((t.getName group').getD "")

/-- `searchForGroupByName` over all ids that match, in the order of the query. -/
def searchPage (t : Table) (ids : List GroupId) (first max : Option Nat) :
    Option (List GroupId) :=
  let groups := match first, max with
    | some first, some max => (ids.drop first).take max
    | _, _ => ids
  (t.searchForGroupByName t.nextId groups).map t.sortByName

def getGroupsCountByNameContaining (t : Table) (ids : List GroupId) : Option Nat :=
  (t.searchPage ids none none).map List.length

def searchPages (t : Table) (ids : List GroupId) (m : Nat) : Option (List GroupId) := do
  let n ← t.getGroupsCountByNameContaining ids
  let pages ← (List.range ((n + m - 1) / m)).mapM fun k => t.searchPage ids (some (k * m)) (some m)
  return pages.flatten

/-- A top level group with a name like the search, or above a group with one. -/
def Matching (database : Database) (t : Table) (search : String) (root : GroupId) : Prop :=
  ∃ group name, t.getName group = some name ∧ database.like search name ∧ t.RootOf group root

def rootOf (t : Table) (group : GroupId) : GroupId := (t.topLevelOf t.nextId group).getD group

/-- The pages that are asked for hold a hit below each of the groups, and those below one group are
on one page. -/
structure PagesFit (m : Nat) (roots : List GroupId) : Prop where
  complete : ∀ root ∈ roots, root ∈ roots.take ((roots.dedup.length + m - 1) / m * m)
  apart : Pages.Apart m (roots.take ((roots.dedup.length + m - 1) / m * m))

section

variable {t : Table} {ids : List GroupId}

theorem rootOf_eq (ht : t.Forest) {group root : GroupId} (hgroup : t.Exists group) :
    t.rootOf group = root ↔ t.RootOf group root := by
  obtain ⟨top, htop⟩ :=
    Option.isSome_iff_exists.mp (ht.topLevelOf_isSome hgroup (Nat.le_refl t.nextId))
  rw [rootOf, htop, Option.getD_some]
  constructor
  · rintro rfl
    exact .of_topLevelOf htop
  · exact fun hroot => (hroot.unique htop).symm

theorem searchForGroupByName_spec (ht : t.Forest) (hids : ∀ id ∈ ids, t.Exists id) :
    ∃ list, t.searchForGroupByName t.nextId ids = some list ∧ list.Nodup ∧
      ∀ root, root ∈ list ↔ root ∈ ids.map t.rootOf := by
  suffices hfold : ∀ list : List GroupId, list.Nodup → ∃ list',
      ids.foldlM (fun list id => do
        let group ← t.getGroupById id
        let group ← t.topLevelOf t.nextId group
        return if group ∈ list then list else list ++ [group]) list = some list' ∧ list'.Nodup ∧
      ∀ root, root ∈ list' ↔ root ∈ list ∨ root ∈ ids.map t.rootOf by
    obtain ⟨list, hlist, hnodup, hmem⟩ := hfold [] List.nodup_nil
    exact ⟨list, hlist, hnodup, fun root => by simp [hmem]⟩
  induction ids with
  | nil => exact fun list hnodup => ⟨list, rfl, hnodup, fun root => by simp⟩
  | cons id rest ih =>
      intro list hnodup
      obtain ⟨hid, hrest⟩ := List.forall_mem_cons.mp hids
      obtain ⟨top, htop⟩ :=
        Option.isSome_iff_exists.mp (ht.topLevelOf_isSome hid (Nat.le_refl t.nextId))
      have hroot : t.rootOf id = top := by rw [rootOf, htop, Option.getD_some]
      rw [List.foldlM_cons, getGroupById_eq hid]
      simp only [Option.bind_eq_bind, Option.bind_some, htop, Option.pure_def]
      have hadded : (if top ∈ list then list else list ++ [top]).Nodup := by
        split_ifs with hmem
        · exact hnodup
        · exact List.nodup_append_comm.mp (List.nodup_cons.mpr ⟨hmem, hnodup⟩)
      obtain ⟨list', hlist', hnodup', hmem'⟩ := ih hrest _ hadded
      refine ⟨list', hlist', hnodup', fun root => ?_⟩
      rw [hmem', List.map_cons, List.mem_cons, hroot]
      split_ifs with hmem
      · exact ⟨fun h => h.imp_right .inr, fun h => h.elim .inl fun h => h.elim
          (fun heq => .inl (heq ▸ hmem)) .inr⟩
      · rw [List.mem_append, List.mem_singleton, or_assoc]

theorem searchPage_spec (ht : t.Forest) (hids : ∀ id ∈ ids, t.Exists id) (first max : Option Nat) :
    ∃ list, t.searchPage ids first max = some list ∧ list.Nodup ∧ ∀ root, root ∈ list ↔
      root ∈ (match first, max with
        | some first, some max => ((ids.map t.rootOf).drop first).take max
        | _, _ => ids.map t.rootOf) := by
  have hsorted : ∀ groups : List GroupId, (∀ id ∈ groups, id ∈ ids) → ∃ list,
      (t.searchForGroupByName t.nextId groups).map t.sortByName = some list ∧ list.Nodup ∧
        ∀ root, root ∈ list ↔ root ∈ groups.map t.rootOf := by
    intro groups hgroups
    obtain ⟨list, hlist, hnodup, hmem⟩ :=
      searchForGroupByName_spec ht fun id hid => hids id (hgroups id hid)
    have hperm : (t.sortByName list).Perm list := List.perm_insertionSort _ list
    refine ⟨t.sortByName list, by rw [hlist]; rfl, hperm.nodup_iff.mpr hnodup, fun root => ?_⟩
    rw [hperm.mem_iff, hmem]
  match first, max with
  | some first, some max =>
      dsimp only
      rw [← List.map_drop, ← List.map_take]
      exact hsorted _ fun id hid => List.mem_of_mem_drop (List.mem_of_mem_take hid)
  | some _, none => exact hsorted ids fun _ hid => hid
  | none, _ => exact hsorted ids fun _ hid => hid

theorem getGroupsCountByNameContaining_eq (ht : t.Forest) (hids : ∀ id ∈ ids, t.Exists id) :
    t.getGroupsCountByNameContaining ids = some (ids.map t.rootOf).dedup.length := by
  obtain ⟨list, hlist, hnodup, hmem⟩ := searchPage_spec ht hids none none
  have hperm : list.Perm (ids.map t.rootOf).dedup :=
    (List.perm_ext_iff_of_nodup hnodup (List.nodup_dedup _)).mpr fun root => by
      rw [hmem, List.mem_dedup]
  rw [getGroupsCountByNameContaining, hlist, Option.map_some, hperm.length_eq]

theorem mapM_some {α β : Type} {xs : List α} {f : α → Option β} {g : α → β}
    (h : ∀ x ∈ xs, f x = some (g x)) : xs.mapM f = some (xs.map g) := by
  induction xs with
  | nil => rfl
  | cons x rest ih =>
      obtain ⟨hx, hrest⟩ := List.forall_mem_cons.mp h
      rw [List.mapM_cons, hx, ih hrest]
      rfl

theorem searchPages_spec (ht : t.Forest) (hids : ∀ id ∈ ids, t.Exists id) {m : Nat} (hm : 0 < m) :
    ∃ listed, t.searchPages ids m = some listed ∧
      (listed.Nodup ↔ Pages.Apart m ((ids.map t.rootOf).take
        (((ids.map t.rootOf).dedup.length + m - 1) / m * m))) ∧
      ∀ root, root ∈ listed ↔ root ∈ (ids.map t.rootOf).take
        (((ids.map t.rootOf).dedup.length + m - 1) / m * m) := by
  choose page hpage hnodup hmem using fun k => searchPage_spec ht hids (some (k * m)) (some m)
  generalize hcount : ((ids.map t.rootOf).dedup.length + m - 1) / m = count
  refine ⟨(List.range count).flatMap page, ?_, ?_, fun root => ?_⟩
  · have hpages : (List.range count).mapM (fun k => t.searchPage ids (some (k * m)) (some m)) =
        some ((List.range count).map page) := mapM_some fun k _ => hpage k
    unfold searchPages
    rw [getGroupsCountByNameContaining_eq ht hids]
    simp only [Option.bind_eq_bind, Option.bind_some, hcount, hpages]
    rfl
  · exact Pages.nodup_flatMap_iff hm (fun k _ => hnodup k) fun k _ x => hmem k x
  · rw [List.mem_flatMap, ← Pages.exists_mem_page_iff hm]
    simp only [List.mem_range, hmem]
    rfl

end

end Table

/-- The pages list every matching top level group once exactly if the hits below one group are on
one page, and the pages hold one of them for each group. -/
theorem searchPages_iff {t : Table} (ht : t.Forest) {database : Database} {search : String}
    {hits : List GroupId} (hhits : Table.Hits database t search hits) {m : Nat} (hm : 1 ≤ m) :
    (∃ listed, t.searchPages hits m = some listed ∧
        ∀ root, t.Matching database search root → listed.count root = 1) ↔
      Table.PagesFit m (hits.map t.rootOf) := by
  have hids : ∀ id ∈ hits, t.Exists id := fun id hid => hhits.exists hid
  have hmatching : ∀ root, t.Matching database search root ↔ root ∈ hits.map t.rootOf := by
    intro root
    rw [List.mem_map]
    constructor
    · rintro ⟨group, name, hname, hlike, hroot⟩
      have hmem : group ∈ hits := (hhits.mem_iff group).mpr ⟨name, hname, hlike⟩
      exact ⟨group, hmem, (Table.rootOf_eq ht (hids group hmem)).mpr hroot⟩
    · rintro ⟨group, hmem, hroot⟩
      obtain ⟨name, hname, hlike⟩ := (hhits.mem_iff group).mp hmem
      exact ⟨group, name, hname, hlike, (Table.rootOf_eq ht (hids group hmem)).mp hroot⟩
  obtain ⟨listed, hlisted, hnodup, hmem⟩ := Table.searchPages_spec ht hids hm
  rw [hlisted]
  constructor
  · rintro ⟨_, ⟨⟩, honce⟩
    refine ⟨fun root hroot => ?_, hnodup.mp (List.nodup_iff_count_eq_one.mpr fun root hroot => ?_)⟩
    · rw [← hmem, ← List.count_pos_iff, honce root ((hmatching root).mpr hroot)]
      exact Nat.zero_lt_one
    · exact honce root ((hmatching root).mpr (List.mem_of_mem_take ((hmem root).mp hroot)))
  · intro hfit
    refine ⟨listed, rfl, fun root hroot => ?_⟩
    refine List.count_eq_one_of_mem (hnodup.mpr hfit.apart) ((hmem root).mpr ?_)
    exact hfit.complete root ((hmatching root).mp hroot)

/-! ### Three groups on pages -/

/-- A group with a subgroup whose name begins with its own, and another group like that. -/
def familyGroups : Table := Table.threeGroups "team" "team-a" "team-b"

theorem familyGroups_hits : Table.Hits plainDatabase familyGroups "team" [0, 1, 2] where
  nodup := by decide
  mem_iff group := by
    constructor
    · intro hmem
      rcases List.mem_cons.mp hmem with rfl | hmem
      · exact ⟨"team", rfl, by decide⟩
      · rcases List.mem_pair.mp hmem with rfl | rfl
        · exact ⟨"team-a", rfl, by decide⟩
        · exact ⟨"team-b", rfl, by decide⟩
    · rintro ⟨name, hname, -⟩
      obtain ⟨e, hrow, -⟩ := Option.bind_eq_some_iff.mp hname
      rcases Table.threeGroups_rows hrow with ⟨rfl, -⟩ | ⟨rfl, -⟩ | ⟨rfl, -⟩ <;> decide
  sorted := by
    refine List.pairwise_cons.mpr ⟨?_, List.pairwise_pair.mpr ?_⟩
    · rintro group hmem _ ⟨⟩
      rcases List.mem_pair.mp hmem with rfl | rfl <;> rintro _ ⟨⟩ <;> decide
    · rintro _ ⟨⟩ _ ⟨⟩
      decide

/-- On one page of three hits both groups stand once. -/
theorem familyGroups_one_page :
    ∃ listed, familyGroups.searchPages [0, 1, 2] 3 = some listed ∧
      ∀ root, familyGroups.Matching plainDatabase "team" root → listed.count root = 1 := by
  refine (searchPages_iff Table.threeGroups_forest familyGroups_hits (by decide)).mpr ⟨?_, ?_⟩
  · decide
  · exact .of_length_le (by decide)

/-- On pages of one hit the first group stands twice, and the other one is left out. -/
theorem familyGroups_pages :
    familyGroups.searchPages [0, 1, 2] 1 = some [0, 0] ∧
      ¬ ∃ listed, familyGroups.searchPages [0, 1, 2] 1 = some listed ∧
        ∀ root, familyGroups.Matching plainDatabase "team" root → listed.count root = 1 := by
  have hpages : familyGroups.searchPages [0, 1, 2] 1 = some [0, 0] := by decide
  refine ⟨hpages, ?_⟩
  rintro ⟨listed, hlisted, honce⟩
  cases hpages.symm.trans hlisted
  have hmatching : familyGroups.Matching plainDatabase "team" 2 :=
    ⟨2, "team-b", rfl, by decide, .inl rfl, rfl⟩
  exact absurd (honce 2 hmatching) (by decide)

end Keycloak.Groups
