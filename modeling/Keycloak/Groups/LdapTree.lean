import Keycloak.Groups.LdapSteps

/-!
# Synchronisation along the tree

The trees of the LDAP groups are spanned by groups of the realm: one group for each entry,
below the group of the entry above it.  The first synchronisation spans them, and the next
one walks over what is there.
-/

namespace Keycloak.Groups.LdapSync

open Table

/-- The entries stand below `parent`, with the groups `ids` in the order of the walk. -/
def Spans (t : Table) : Option GroupId → GroupTreeEntries → List GroupId → Prop
  | _, .nil, ids => ids = []
  | parent, .cons name children rest, ids => ∃ g idsChildren idsRest,
      ids = g :: (idsChildren ++ idsRest) ∧ t.rows g = some ⟨some name, parent⟩ ∧
        Spans t (some g) children idsChildren ∧ Spans t parent rest idsRest

theorem Spans.mono {t t' : Table} {parent : Option GroupId} {entries : GroupTreeEntries}
    {ids : List GroupId} (h : Spans t parent entries ids)
    (hrows : ∀ g ∈ ids, t.Exists g → t'.rows g = t.rows g) : Spans t' parent entries ids := by
  induction entries generalizing parent ids with
  | nil => exact h
  | cons name children rest ihchildren ihrest =>
      obtain ⟨g, idsChildren, idsRest, rfl, hrow, hchildren, hrest⟩ := h
      refine ⟨g, idsChildren, idsRest, rfl, ?_, ihchildren hchildren fun x hx => ?_,
        ihrest hrest fun x hx => ?_⟩
      · rw [hrows g List.mem_cons_self (by rw [Table.Exists, hrow]; rfl), hrow]
      · exact hrows x (List.mem_cons_of_mem _ (List.mem_append_left _ hx))
      · exact hrows x (List.mem_cons_of_mem _ (List.mem_append_right _ hx))

section

variable {config : GroupMapperConfig} {s : Sync} {g : GroupId} {name : String}
  {parent : Option GroupId} {ldapGroups : List LDAPObject} {entries : GroupTreeEntries}

theorem rows_of_findAt {t : Table} (ht : t.Stored) (h : findAt t parent name = some g) :
    t.rows g = some ⟨some name, parent⟩ := by
  obtain ⟨hexists, hparent⟩ := ht.mem_subgroups.mp (List.mem_of_find?_eq_some h)
  exact rows_eq_iff.mpr ⟨hexists, by simpa using List.find?_some h, hparent⟩

theorem findAt_eq_none {t : Table} (ht : t.Stored) (h : findAt t parent name = none) :
    t.rows g ≠ some ⟨some name, parent⟩ := by
  intro hrow
  obtain ⟨hexists, hname, hparent⟩ := rows_eq_iff.mp hrow
  have hnone := List.find?_eq_none.mp h g (ht.mem_subgroups.mpr ⟨hexists, hparent⟩)
  rw [hname, decide_eq_true rfl] at hnone
  exact hnone rfl

theorem findAt_of_rows {t : Table} (ht : t.Stored) (hdistinct : t.DistinctNamed name)
    (hrow : t.rows g = some ⟨some name, parent⟩) : findAt t parent name = some g := by
  cases hfind : findAt t parent name with
  | none => exact absurd hrow (findAt_eq_none ht hfind)
  | some h => rw [hdistinct (rows_of_findAt ht hfind) hrow]

theorem exists_ldapGroup (h : name ∈ ldapGroups.map (·.name)) : ∃ ldapGroup,
    (ldapGroups.find? fun ldapGroup => ldapGroup.name = name) = some ldapGroup ∧
      ldapGroup.name = name := by
  obtain ⟨ldapGroup, hmem, hname⟩ := List.mem_map.mp h
  have hsome : (ldapGroups.find? fun ldapGroup => ldapGroup.name = name).isSome :=
    List.find?_isSome.mpr ⟨ldapGroup, hmem, decide_eq_true hname⟩
  obtain ⟨found, hfound⟩ := Option.isSome_iff_exists.mp hsome
  exact ⟨found, hfound, by simpa using List.find?_some hfound⟩

theorem updateTreeGroup_spec (config : GroupMapperConfig) (hs : s.realm.table.Forest)
    (hdistinct : s.realm.table.DistinctSiblings)
    (hparent : ∀ p, parent = some p → s.realm.table.Exists p) (ldapGroup : LDAPObject)
    (hname : ldapGroup.name = name) :
    ∃ g s', updateTreeGroup config s name ldapGroup parent = some (g, s') ∧
      Visits s s' [g] ∧ s'.realm.table.rows g = some ⟨some name, parent⟩ ∧
      s'.realm.table.DistinctSiblings := by
  subst hname
  unfold updateTreeGroup
  cases hfind : findAt s.realm.table parent ldapGroup.name with
  | some g =>
      refine ⟨g, _, rfl, visits_updateGroup, ?_, ?_⟩
      · rw [updateGroup_table]
        exact rows_of_findAt hs.toStored hfind
      · rw [updateGroup_table]
        exact hdistinct
  | none =>
      obtain ⟨s', hadd, htable, -, hvisits⟩ :=
        addGroup_spec config ldapGroup hs hparent
      rw [hadd]
      refine ⟨_, s', rfl, hvisits, ?_, fun name => ?_⟩
      · rw [htable, insertRow_rows_self]
      · rw [htable]
        exact DistinctNamed.insertRow (hdistinct name) fun _ g =>
          findAt_eq_none hs.toStored hfind

theorem updateEntries_spec (config : GroupMapperConfig) (parent : Option GroupId)
    (hs : s.realm.table.Forest)
    (hdistinct : s.realm.table.DistinctSiblings)
    (hparent : ∀ p, parent = some p → s.realm.table.Exists p)
    (hnames : ∀ name ∈ entries.names, name ∈ ldapGroups.map (·.name)) :
    ∃ s' ids, updateKeycloakGroupTreeEntries config ldapGroups entries parent s = some s' ∧
      Visits s s' ids ∧ Spans s'.realm.table parent entries ids ∧
      s'.realm.table.DistinctSiblings := by
  induction entries generalizing s parent with
  | nil => exact ⟨s, [], rfl, .refl s, rfl, hdistinct⟩
  | cons name children rest ihchildren ihrest =>
      obtain ⟨ldapGroup, hldap, hname⟩ := exists_ldapGroup (hnames name List.mem_cons_self)
      obtain ⟨g, s₁, hentry, hvisits₁, hrow, hdistinct₁⟩ :=
        updateTreeGroup_spec config hs hdistinct hparent ldapGroup hname
      have hexists : s₁.realm.table.Exists g := by
        rw [Table.Exists, hrow]
        rfl
      obtain ⟨s₂, ids₂, hchildren, hvisits₂, hspans₂, hdistinct₂⟩ :=
        ihchildren _ (hvisits₁.forest hs) hdistinct₁ (fun p hp => Option.some.inj hp ▸ hexists)
          fun x hx => hnames x (List.mem_cons_of_mem _ (List.mem_append_left _ hx))
      obtain ⟨s₃, ids₃, hrest, hvisits₃, hspans₃, hdistinct₃⟩ :=
        ihrest parent (hvisits₂.forest (hvisits₁.forest hs)) hdistinct₂
          (fun p hp => hvisits₂.exists_of (hvisits₁.exists_of (hparent p hp)))
          fun x hx => hnames x (List.mem_cons_of_mem _ (List.mem_append_right _ hx))
      refine ⟨s₃, g :: (ids₂ ++ ids₃), ?_, hvisits₁.trans (hvisits₂.trans hvisits₃),
        ⟨g, ids₂, ids₃, rfl, ?_, ?_, hspans₃⟩, hdistinct₃⟩
      · rw [updateKeycloakGroupTreeEntries, hldap, Option.bind_eq_bind, Option.bind_some, hentry]
        exact (congrArg (Option.bind · _) hchildren).trans hrest
      · exact hvisits₃.row (hvisits₂.row hrow)
      · exact hspans₂.mono fun x _ hx => hvisits₃.kept x hx

theorem updateEntries_again (config : GroupMapperConfig) {ids : List GroupId}
    (hs : s.realm.table.Stored)
    (hdistinct : s.realm.table.DistinctSiblings)
    (hnames : ∀ name ∈ entries.names, name ∈ ldapGroups.map (·.name))
    (hspans : Spans s.realm.table parent entries ids) :
    ∃ s', updateKeycloakGroupTreeEntries config ldapGroups entries parent s = some s' ∧
      Visits s s' ids ∧ s'.added = s.added := by
  induction entries generalizing s parent ids with
  | nil =>
      cases hspans
      exact ⟨s, rfl, .refl s, rfl⟩
  | cons name children rest ihchildren ihrest =>
      obtain ⟨g, ids₂, ids₃, rfl, hrow, hchildren, hrest⟩ := hspans
      obtain ⟨ldapGroup, hldap, -⟩ := exists_ldapGroup (hnames name List.mem_cons_self)
      have hfind := findAt_of_rows hs (hdistinct name) hrow
      have htable₁ := updateGroup_table config s g ldapGroup
      obtain ⟨s₂, hupdate₂, hvisits₂, hadded₂⟩ :=
        ihchildren (s := s.updateGroup config g ldapGroup) (htable₁ ▸ hs) (htable₁ ▸ hdistinct)
          (fun x hx => hnames x (List.mem_cons_of_mem _ (List.mem_append_left _ hx)))
          (htable₁ ▸ hchildren)
      have htable₂ := (hvisits₂.same hadded₂).trans htable₁
      obtain ⟨s₃, hupdate₃, hvisits₃, hadded₃⟩ :=
        ihrest (s := s₂) (htable₂ ▸ hs) (htable₂ ▸ hdistinct)
          (fun x hx => hnames x (List.mem_cons_of_mem _ (List.mem_append_right _ hx)))
          (htable₂ ▸ hrest)
      refine ⟨s₃, ?_, visits_updateGroup.trans (hvisits₂.trans hvisits₃),
        hadded₃.trans hadded₂⟩
      rw [updateKeycloakGroupTreeEntries, hldap, Option.bind_eq_bind, Option.bind_some,
        updateTreeGroup, hfind]
      exact (congrArg (Option.bind · _) hupdate₂).trans hupdate₃

end

end Keycloak.Groups.LdapSync
