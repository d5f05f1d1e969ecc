import Keycloak.Groups.LdapPaths

/-!
# The steps of the group synchronisation

A group of the realm is updated or a new one is added; either way one group is visited and
no row that exists changes.  Both loops are made of such steps, and a loop that adds nothing
leaves the table as it is.
-/

namespace Keycloak.Groups.LdapSync

open Table

section

variable {config : GroupMapperConfig} {r : Realm} {g h : GroupId} {ldapGroup : LDAPObject}

theorem updateAttributes_table :
    (updateAttributesOfKCGroup config r g ldapGroup).table = r.table := by
  unfold updateAttributesOfKCGroup
  induction config.groupAttributes generalizing r with
  | nil => rfl
  | cons attrName rest ih => exact ih

theorem updateAttributes_of_ne (hne : h ≠ g) :
    (updateAttributesOfKCGroup config r g ldapGroup).attributes h = r.attributes h := by
  unfold updateAttributesOfKCGroup
  induction config.groupAttributes generalizing r with
  | nil => rfl
  | cons attrName rest ih => exact ih.trans (Function.update_of_ne hne ..)

theorem updateAttributes_self {attrName : String} :
    (updateAttributesOfKCGroup config r g ldapGroup).attributes g attrName =
      if attrName ∈ config.groupAttributes then ldapGroup.attributes attrName
      else r.attributes g attrName := by
  unfold updateAttributesOfKCGroup
  induction config.groupAttributes generalizing r with
  | nil => rw [List.foldl_nil, if_neg List.not_mem_nil]
  | cons first rest ih =>
      rw [List.foldl_cons, ih]
      by_cases hrest : attrName ∈ rest
      · rw [if_pos hrest, if_pos (List.mem_cons_of_mem _ hrest)]
      · rw [if_neg hrest, Realm.setAttribute]
        simp only [Function.update_self]
        rcases eq_or_ne attrName first with rfl | hne
        · rw [Function.update_self, if_pos List.mem_cons_self]
        · have hcons : attrName ∉ first :: rest := fun hmem =>
            (List.mem_cons.mp hmem).elim hne hrest
          rw [Function.update_of_ne hne, if_neg hcons]

theorem updateAttributes_same
    (h : ∀ attrName ∈ config.groupAttributes,
      r.attributes g attrName = ldapGroup.attributes attrName) :
    (updateAttributesOfKCGroup config r g ldapGroup).attributes g = r.attributes g := by
  funext attrName
  rw [updateAttributes_self]
  split
  · rename_i hmem
    exact (h attrName hmem).symm
  · rfl

end

/-- What a part of the synchronisation does that visits the groups `ids`. -/
structure Visits (s s' : Sync) (ids : List GroupId) : Prop where
  forest : s.realm.table.Forest → s'.realm.table.Forest
  kept : ∀ g, s.realm.table.Exists g → s'.realm.table.rows g = s.realm.table.rows g
  new : ∀ g, s'.realm.table.Exists g → s.realm.table.Exists g ∨ g ∈ ids
  attributes : ∀ g, g ∉ ids → s'.realm.attributes g = s.realm.attributes g
  visited : ∀ g, g ∈ s'.visitedGroupIds ↔ g ∈ ids ∨ g ∈ s.visitedGroupIds
  removed : s'.removed = s.removed
  added : s.added ≤ s'.added
  same : s'.added = s.added → s'.realm.table = s.realm.table

section

variable {config : GroupMapperConfig} {s s' s'' : Sync} {ids ids' : List GroupId} {g : GroupId}
  {ldapGroup : LDAPObject} {parent : Option GroupId}

theorem Visits.refl (s : Sync) : Visits s s [] where
  forest := id
  kept _ _ := rfl
  new _ hexists := .inl hexists
  attributes _ _ := rfl
  visited g := by simp
  removed := rfl
  added := Nat.le_refl _
  same _ := rfl

theorem Visits.exists_of (h : Visits s s' ids) (hg : s.realm.table.Exists g) :
    s'.realm.table.Exists g := by
  rw [Table.Exists, h.kept g hg]
  exact hg

theorem Visits.row (h : Visits s s' ids) {e : GroupEntity}
    (hrow : s.realm.table.rows g = some e) : s'.realm.table.rows g = some e := by
  rw [h.kept g (by rw [Table.Exists, hrow]; rfl)]
  exact hrow

theorem Visits.trans (h : Visits s s' ids) (h' : Visits s' s'' ids') :
    Visits s s'' (ids ++ ids') where
  forest hforest := h'.forest (h.forest hforest)
  kept g hg := (h'.kept g (h.exists_of hg)).trans (h.kept g hg)
  new g hg := by
    rcases h'.new g hg with hg | hmem
    · rcases h.new g hg with hg | hmem
      · exact .inl hg
      · exact .inr (List.mem_append_left _ hmem)
    · exact .inr (List.mem_append_right _ hmem)
  attributes g hg := by
    rw [List.mem_append, not_or] at hg
    exact (h'.attributes g hg.2).trans (h.attributes g hg.1)
  visited g := by
    rw [h'.visited, h.visited, List.mem_append]
    tauto
  removed := h'.removed.trans h.removed
  added := h.added.trans h'.added
  same heq := by
    have hle := h.added
    have hle' := h'.added
    rw [h'.same (by omega), h.same (by omega)]

theorem updateGroup_table (config : GroupMapperConfig) (s : Sync) (g : GroupId)
    (ldapGroup : LDAPObject) : (s.updateGroup config g ldapGroup).realm.table = s.realm.table :=
  updateAttributes_table

theorem visits_updateGroup : Visits s (s.updateGroup config g ldapGroup) [g] where
  forest hforest := by
    rw [updateGroup_table]
    exact hforest
  kept x _ := by rw [updateGroup_table]
  new x hx := by
    rw [updateGroup_table] at hx
    exact .inl hx
  attributes x hx := updateAttributes_of_ne (List.ne_of_not_mem_cons hx)
  visited x := by rw [Sync.updateGroup, List.mem_cons, List.mem_singleton]
  removed := rfl
  added := Nat.le_refl _
  same _ := updateGroup_table ..

theorem addGroup_spec (config : GroupMapperConfig) (ldapGroup : LDAPObject)
    (hs : s.realm.table.Forest)
    (hparent : ∀ p, parent = some p → s.realm.table.Exists p) :
    ∃ s', s.addGroup config ldapGroup parent = some s' ∧
      s'.realm.table = s.realm.table.insertRow ldapGroup.name parent ∧
      s'.added = s.added + 1 ∧ Visits s s' [s.realm.table.nextId] := by
  have hmove : (s.realm.createGroup ldapGroup.name).moveGroup s.realm.table.nextId parent =
      some { table := s.realm.table.insertRow ldapGroup.name parent
             attributes := (s.realm.createGroup ldapGroup.name).attributes } := by
    rw [Realm.moveGroup, Realm.createGroup, hs.createGroup_moveGroup hparent]
    rfl
  rw [Sync.addGroup, hmove]
  refine ⟨_, rfl, updateAttributes_table, rfl, ?_⟩
  exact {
    forest hforest := by
      rw [updateAttributes_table]
      exact hforest.insertRow hparent
    kept x hx := by
      rw [updateAttributes_table]
      exact hs.insertRow_rows hx
    new x hx := by
      rw [updateAttributes_table] at hx
      rcases exists_insertRow.mp hx with rfl | hold
      · exact .inr (List.mem_singleton_self _)
      · exact .inl hold
    attributes x hx := by
      have hne := List.ne_of_not_mem_cons hx
      exact (updateAttributes_of_ne hne).trans (Function.update_of_ne hne ..)
    visited x := by rw [List.mem_cons, List.mem_singleton]
    removed := rfl
    added := Nat.le_succ _
    same heq := absurd heq (Nat.succ_ne_self _) }

/-! ## The groups that are dropped -/

theorem dropNonExistingKcGroup_counts {visited : List GroupId}
    (h : dropNonExistingKcGroup visited s g = some s') :
    s'.added = s.added ∧ s'.removed = s.removed + if g ∈ visited then 0 else 1 := by
  unfold dropNonExistingKcGroup at h
  split at h
  · rename_i hmem
    cases h
    exact ⟨rfl, by rw [if_pos hmem, Nat.add_zero]⟩
  · rename_i hmem
    obtain ⟨table, -, rfl⟩ := Option.map_eq_some_iff.mp h
    exact ⟨rfl, by rw [if_neg hmem]⟩

theorem foldlM_drop_counts {visited groups : List GroupId}
    (h : groups.foldlM (dropNonExistingKcGroup visited) s = some s') :
    s'.added = s.added ∧
      (s'.removed = s.removed ↔ ∀ g ∈ groups, g ∈ visited) ∧ s.removed ≤ s'.removed := by
  induction groups generalizing s with
  | nil =>
      cases h
      exact ⟨rfl, ⟨fun _ g hg => absurd hg List.not_mem_nil, fun _ => rfl⟩, Nat.le_refl _⟩
  | cons g rest ih =>
      rw [List.foldlM_cons] at h
      obtain ⟨s₁, hstep, hrest⟩ := Option.bind_eq_some_iff.mp h
      obtain ⟨hadded, hremoved⟩ := dropNonExistingKcGroup_counts hstep
      obtain ⟨hadded', hiff, hle⟩ := ih hrest
      refine ⟨hadded'.trans hadded, ?_, by omega⟩
      rw [List.forall_mem_cons, ← hiff]
      by_cases hmem : g ∈ visited
      · rw [if_pos hmem] at hremoved
        simp only [hmem, true_and]
        omega
      · rw [if_neg hmem] at hremoved
        simp only [hmem, false_and, iff_false]
        omega

theorem dropNonExistingKcGroup_pruned {visited : List GroupId} (hs : s.realm.table.Stored)
    (h : dropNonExistingKcGroup visited s g = some s') :
    Pruned s.realm.table s'.realm.table := by
  unfold dropNonExistingKcGroup at h
  split at h
  · cases h
    exact .refl _
  · obtain ⟨table, hremove, rfl⟩ := Option.map_eq_some_iff.mp h
    exact (removeGroup_pruned hremove hs).1

theorem foldlM_drop_pruned {visited groups : List GroupId} (hs : s.realm.table.Stored)
    (h : groups.foldlM (dropNonExistingKcGroup visited) s = some s') :
    Pruned s.realm.table s'.realm.table := by
  induction groups generalizing s with
  | nil =>
      cases h
      exact .refl _
  | cons g rest ih =>
      rw [List.foldlM_cons] at h
      obtain ⟨s₁, hstep, hrest⟩ := Option.bind_eq_some_iff.mp h
      have hpruned := dropNonExistingKcGroup_pruned hs hstep
      exact hpruned.trans (ih (hpruned.stored hs) hrest)

theorem foldlM_drop_spec {visited groups : List GroupId} (hs : s.realm.table.Forest)
    (hup : s.realm.table.ClosedUp (· ∈ visited))
    (hgroups : ∀ g ∈ groups, g < s.realm.table.nextId) :
    ∃ s', groups.foldlM (dropNonExistingKcGroup visited) s = some s' ∧
      Pruned s.realm.table s'.realm.table ∧
      (∀ g ∈ visited, s'.realm.table.rows g = s.realm.table.rows g) ∧
      (∀ g ∈ groups, s'.realm.table.Exists g → g ∈ visited) ∧
      s'.realm.attributes = s.realm.attributes := by
  induction groups generalizing s with
  | nil =>
      exact ⟨s, rfl, .refl _, fun _ _ => rfl, fun g hg => absurd hg List.not_mem_nil, rfl⟩
  | cons g rest ih =>
      rw [List.forall_mem_cons] at hgroups
      by_cases hmem : g ∈ visited
      · obtain ⟨s', hfold, hpruned, hkeeps, hdrops, hattributes⟩ := ih hs hup hgroups.2
        refine ⟨s', ?_, hpruned, hkeeps, List.forall_mem_cons.mpr ⟨fun _ => hmem, hdrops⟩,
          hattributes⟩
        rw [List.foldlM_cons, dropNonExistingKcGroup, if_pos hmem]
        exact hfold
      · obtain ⟨t₁, hremove⟩ :=
          Option.isSome_iff_exists.mp (hs.removeGroup_isSome_of_lt hgroups.1)
        obtain ⟨hpruned₁, hgone⟩ := removeGroup_pruned hremove hs.toStored
        have hgroups' : ∀ g ∈ rest, g < t₁.nextId := by
          rw [hpruned₁.nextId]
          exact hgroups.2
        obtain ⟨s', hfold, hpruned, hkeeps, hdrops, hattributes⟩ :=
          ih (s := { s with
            realm := { s.realm with table := t₁ }, removed := s.removed + 1 })
            (hs.pruned hpruned₁) (hup.pruned hpruned₁) hgroups'
        refine ⟨s', ?_, hpruned₁.trans hpruned, fun x hx => ?_, ?_, hattributes⟩
        · rw [List.foldlM_cons, dropNonExistingKcGroup, if_neg hmem, hremove]
          exact hfold
        · exact (hkeeps x hx).trans (removeGroup_keeps hs.toStored hup hremove hmem hx)
        · refine List.forall_mem_cons.mpr ⟨fun hexists => ?_, hdrops⟩
          exact absurd (hpruned.exists_of hexists) hgone

theorem dropNonExistingKcGroups_spec (hs : s.realm.table.Forest)
    (hup : s.realm.table.ClosedUp (· ∈ s.visitedGroupIds)) :
    ∃ s', dropNonExistingKcGroups s = some s' ∧ Pruned s.realm.table s'.realm.table ∧
      (∀ g ∈ s.visitedGroupIds, s'.realm.table.rows g = s.realm.table.rows g) ∧
      (∀ g, s'.realm.table.Exists g → g ∈ s.visitedGroupIds) ∧
      s'.realm.attributes = s.realm.attributes := by
  have hgroups : ∀ g ∈ s.realm.table.getGroups, g < s.realm.table.nextId := fun g hg =>
    hs.lt_nextId (hs.mem_getGroups.mp hg)
  obtain ⟨s', hdrop, hpruned, hkeeps, hdrops, hattributes⟩ := foldlM_drop_spec hs hup hgroups
  refine ⟨s', hdrop, hpruned, hkeeps, fun g hexists => ?_, hattributes⟩
  exact hdrops g (hs.mem_getGroups.mpr (hpruned.exists_of hexists)) hexists

theorem dropNonExistingKcGroups_counts (hs : s.realm.table.Stored)
    (h : dropNonExistingKcGroups s = some s') : s'.added = s.added ∧
      (s'.removed = s.removed ↔ ∀ g, s.realm.table.Exists g → g ∈ s.visitedGroupIds) := by
  obtain ⟨hadded, hremoved, -⟩ := foldlM_drop_counts h
  refine ⟨hadded, hremoved.trans ?_⟩
  simp only [hs.mem_getGroups]

end

end Keycloak.Groups.LdapSync
