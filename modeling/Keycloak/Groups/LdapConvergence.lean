import Keycloak.Groups.LdapFlat

/-!
# Convergence of the group synchronisation

With inheritance every synchronisation converges.  Without it a group is looked up by its
name as a path, so that a name with a slash leads to another group or to none.
-/

namespace Keycloak.Groups.LdapSync

open Table

structure Converged (config : GroupMapperConfig) (ldapGroups : List LDAPObject)
    (realm realm' : Realm) : Prop where
  unique : ∀ ldapGroup ∈ ldapGroups,
    ∃! g, AtPlace (ldapGroupsRep config ldapGroups) realm'.table ldapGroup.name g
  kept : ∀ ldapGroup ∈ ldapGroups, ∀ g,
    AtPlace (ldapGroupsRep config ldapGroups) realm.table ldapGroup.name g →
      AtPlace (ldapGroupsRep config ldapGroups) realm'.table ldapGroup.name g
  dropped : config.dropNonExistingGroupsDuringSync = true → ∀ g, realm'.table.Exists g →
    ∃ ldapGroup ∈ ldapGroups,
      AtPlace (ldapGroupsRep config ldapGroups) realm'.table ldapGroup.name g
  untouched : config.dropNonExistingGroupsDuringSync = false → ∀ g, realm.table.Exists g →
    (∀ ldapGroup ∈ ldapGroups,
      ¬ AtPlace (ldapGroupsRep config ldapGroups) realm.table ldapGroup.name g) →
    realm'.table.rows g = realm.table.rows g ∧ realm'.attributes g = realm.attributes g

/-- A synchronisation and an immediately repeated one, in whatever order the map of the LDAP
groups is iterated. -/
def Converges (config : GroupMapperConfig) (realm : Realm) (ldapGroups : List LDAPObject) :
    Prop :=
  ∀ entrySet entrySet', entrySet.Perm ldapGroups → entrySet'.Perm ldapGroups →
    ∃ s, syncDataFromFederationProviderToKeycloak config realm ldapGroups entrySet = some s ∧
      Converged config ldapGroups realm s.realm ∧
      ∃ s', syncDataFromFederationProviderToKeycloak config s.realm ldapGroups entrySet' =
        some s' ∧ s'.added = 0 ∧ s'.removed = 0

/-- A name with a slash does no harm: nothing is dropped, the LDAP group has its group
already, and the path that the name is taken for leads to a group that may be updated. -/
structure Harmless (config : GroupMapperConfig) (realm : Realm) (ldapGroups : List LDAPObject)
    (ldapGroup : LDAPObject) : Prop where
  keeps : config.dropNonExistingGroupsDuringSync = false
  placed : ∃ g, realm.table.rows g = some ⟨some ldapGroup.name, none⟩
  found : ∃ g, realm.table.findGroupByPath ("/" ++ ldapGroup.name) = some g ∧
    ((∃ other ∈ ldapGroups, realm.table.rows g = some ⟨some other.name, none⟩) ∨
      SameAttributes config realm g ldapGroup)

def start (realm : Realm) : Sync :=
  ⟨realm, [], 0, 0, 0⟩

def finish (config : GroupMapperConfig) (s : Sync) : Option Sync :=
  if config.dropNonExistingGroupsDuringSync then dropNonExistingKcGroups s else some s

section

variable {config : GroupMapperConfig} {realm : Realm} {ldapGroups entrySet : List LDAPObject}
  {s s' : Sync} {ids : List GroupId} {entries : GroupTreeEntries}

theorem sync_eq_tree (hpreserve : config.preserveGroupsInheritance = true)
    (hresolve : resolveGroupTree (ldapGroupsRep config ldapGroups) config.ignoreMissingGroups =
      some entries) :
    syncDataFromFederationProviderToKeycloak config realm ldapGroups entrySet =
      (updateKeycloakGroupTreeEntries config ldapGroups entries none (start realm)).bind
        (finish config) := by
  unfold syncDataFromFederationProviderToKeycloak
  rw [if_pos hpreserve, hresolve]
  rfl

theorem sync_eq_flat (hpreserve : config.preserveGroupsInheritance = false) :
    syncDataFromFederationProviderToKeycloak config realm ldapGroups entrySet =
      (entrySet.foldlM (updateFlatGroup config) (start realm)).bind (finish config) := by
  unfold syncDataFromFederationProviderToKeycloak
  rw [if_neg (by rw [hpreserve]; exact Bool.false_ne_true)]
  rfl

theorem sync_eq_loop (hpreserve : config.preserveGroupsInheritance = false)
    (hdrop : config.dropNonExistingGroupsDuringSync = false) :
    syncDataFromFederationProviderToKeycloak config realm ldapGroups entrySet =
      entrySet.foldlM (updateFlatGroup config) (start realm) := by
  have hfinish : finish config = some := by
    funext s
    rw [finish, hdrop]
    rfl
  rw [sync_eq_flat hpreserve, hfinish, Option.bind_fun_some]

theorem names_ldapGroupsRep :
    (ldapGroupsRep config ldapGroups).map (·.groupName) = ldapGroups.map (·.name) := by
  rw [ldapGroupsRep, List.map_map]
  rfl

theorem exists_place {t : Table} {g : GroupId} :
    (∃ name ∈ (ldapGroupsRep config ldapGroups).map (·.groupName),
      AtPlace (ldapGroupsRep config ldapGroups) t name g) ↔
      ∃ ldapGroup ∈ ldapGroups,
        AtPlace (ldapGroupsRep config ldapGroups) t ldapGroup.name g := by
  simp only [names_ldapGroupsRep, List.mem_map, exists_exists_and_eq_and]

/-! ## After the loop -/

/-- The loop has left every LDAP group a group at its place, and when the others are dropped
it has visited exactly these. -/
structure Settled (config : GroupMapperConfig) (ldapGroups : List LDAPObject) (s : Sync)
    (ids : List GroupId) : Prop where
  forest : s.realm.table.Forest
  distinct : s.realm.table.DistinctSiblings
  placed : ∀ ldapGroup ∈ ldapGroups,
    ∃ g, AtPlace (ldapGroupsRep config ldapGroups) s.realm.table ldapGroup.name g
  ids_iff : config.dropNonExistingGroupsDuringSync = true → ∀ g, g ∈ ids ↔
    ∃ ldapGroup ∈ ldapGroups,
      AtPlace (ldapGroupsRep config ldapGroups) s.realm.table ldapGroup.name g

theorem finish_spec (hvisits : Visits (start realm) s ids)
    (hsettled : Settled config ldapGroups s ids) :
    ∃ s', finish config s = some s' ∧ Pruned s.realm.table s'.realm.table ∧
      (∀ g ∈ ids, s'.realm.table.rows g = s.realm.table.rows g) ∧
      (config.dropNonExistingGroupsDuringSync = true → ∀ g, s'.realm.table.Exists g → g ∈ ids) ∧
      (config.dropNonExistingGroupsDuringSync = false → s' = s) := by
  have hvisited : ∀ g, g ∈ s.visitedGroupIds ↔ g ∈ ids := fun g =>
    (hvisits.visited g).trans (or_iff_left List.not_mem_nil)
  unfold finish
  cases hdrop : config.dropNonExistingGroupsDuringSync with
  | false => exact ⟨s, rfl, .refl _, fun _ _ => rfl, nofun, fun _ => rfl⟩
  | true =>
      have hup : s.realm.table.ClosedUp (· ∈ s.visitedGroupIds) := by
        intro x p hx hlink
        rw [hvisited, hsettled.ids_iff hdrop] at hx ⊢
        exact exists_place.mp (closedUp_places (exists_place.mpr hx) hlink)
      obtain ⟨s', hfinish, hpruned, hkeeps, hdrops, -⟩ :=
        dropNonExistingKcGroups_spec hsettled.forest hup
      refine ⟨s', hfinish, hpruned, fun g hg => hkeeps g ((hvisited g).mpr hg),
        fun _ g hg => (hvisited g).mp (hdrops g hg), nofun⟩

theorem converged_of_settled (hsingle : SingleParent (ldapGroupsRep config ldapGroups))
    (hvisits : Visits (start realm) s ids) (hsettled : Settled config ldapGroups s ids)
    (huntouched : ∀ g, realm.table.Exists g → (∀ ldapGroup ∈ ldapGroups,
      ¬ AtPlace (ldapGroupsRep config ldapGroups) realm.table ldapGroup.name g) →
      s.realm.attributes g = realm.attributes g) :
    ∃ s', finish config s = some s' ∧ Converged config ldapGroups realm s'.realm ∧
      Pruned s.realm.table s'.realm.table ∧
      (∀ g ∈ ids, s'.realm.table.rows g = s.realm.table.rows g) ∧
      (config.dropNonExistingGroupsDuringSync = false → s' = s) := by
  obtain ⟨s', hfinish, hpruned, hkeeps, hdrops, hnodrop⟩ := finish_spec hvisits hsettled
  refine ⟨s', hfinish, ?_, hpruned, hkeeps, hnodrop⟩
  have hname : ∀ ldapGroup ∈ ldapGroups,
      ldapGroup.name ∈ (ldapGroupsRep config ldapGroups).map (·.groupName) := by
    intro ldapGroup hmem
    rw [names_ldapGroupsRep]
    exact List.mem_map_of_mem hmem
  -- what is at a place has been visited, when something is dropped
  have hstays : ∀ ldapGroup ∈ ldapGroups, ∀ {g},
      AtPlace (ldapGroupsRep config ldapGroups) s.realm.table ldapGroup.name g →
      AtPlace (ldapGroupsRep config ldapGroups) s'.realm.table ldapGroup.name g := by
    intro ldapGroup hmem g hplace
    cases hdrop : config.dropNonExistingGroupsDuringSync with
    | false =>
        rw [hnodrop hdrop]
        exact hplace
    | true =>
        refine hplace.mono_places (hname ldapGroup hmem) fun name hname x hx => ?_
        exact hkeeps x ((hsettled.ids_iff hdrop x).mpr (exists_place.mp ⟨name, hname, hx⟩))
  have hback : ∀ {name g}, AtPlace (ldapGroupsRep config ldapGroups) s'.realm.table name g →
      AtPlace (ldapGroupsRep config ldapGroups) s.realm.table name g := fun hplace =>
    hplace.mono fun x hx => (hpruned.rows x hx).symm
  exact {
    unique ldapGroup hmem := by
      obtain ⟨g, hplace⟩ := hsettled.placed ldapGroup hmem
      refine ⟨g, hstays ldapGroup hmem hplace, fun h hplace' => ?_⟩
      exact AtPlace.eq hsingle hsettled.distinct (hname ldapGroup hmem) (hback hplace') hplace
    kept ldapGroup hmem g hplace := hstays ldapGroup hmem (hplace.mono hvisits.kept)
    dropped hdrop g hexists := by
      obtain ⟨ldapGroup, hmem, hplace⟩ :=
        (hsettled.ids_iff hdrop g).mp (hdrops hdrop g hexists)
      exact ⟨ldapGroup, hmem, hstays ldapGroup hmem hplace⟩
    untouched hdrop g hexists hother := by
      rw [hnodrop hdrop]
      exact ⟨hvisits.kept g hexists, huntouched g hexists hother⟩ }

/-- After a loop that adds nothing to a realm that has converged nothing is dropped. -/
theorem finish_again {realm₀ : Realm} (hconverged : Converged config ldapGroups realm₀ realm)
    (hvisits : Visits (start realm) s ids) (hsettled : Settled config ldapGroups s ids)
    (hadded : s.added = 0) :
    ∃ s', finish config s = some s' ∧ s'.added = 0 ∧ s'.removed = 0 := by
  obtain ⟨s', hfinish, -, -, -, hnodrop⟩ := finish_spec hvisits hsettled
  refine ⟨s', hfinish, ?_⟩
  cases hdrop : config.dropNonExistingGroupsDuringSync with
  | false =>
      rw [hnodrop hdrop]
      exact ⟨hadded, hvisits.removed⟩
  | true =>
      rw [finish, if_pos hdrop] at hfinish
      obtain ⟨hadded', hremoved⟩ :=
        dropNonExistingKcGroups_counts hsettled.forest.toStored hfinish
      refine ⟨hadded'.trans hadded, (hremoved.mpr fun g hexists => ?_).trans hvisits.removed⟩
      rw [hvisits.visited, hsettled.ids_iff hdrop]
      rw [hvisits.same hadded] at hexists ⊢
      exact .inl (hconverged.dropped hdrop g hexists)

/-! ## With inheritance -/

theorem settled_of_spans (haccepted : Accepted (ldapGroupsRep config ldapGroups) entries)
    (hforest : s.realm.table.Forest) (hdistinct : s.realm.table.DistinctSiblings)
    (hspans : Spans s.realm.table none entries ids) : Settled config ldapGroups s ids := by
  obtain ⟨hplaced, hids⟩ := mem_spans haccepted hdistinct hspans
  refine ⟨hforest, hdistinct, fun ldapGroup hmem => hplaced _ ?_, fun _ g => ?_⟩
  · rw [names_ldapGroupsRep]
    exact List.mem_map_of_mem hmem
  · exact (hids g).trans exists_place

theorem converges_tree (hrealm : realm.table.Forest) (hdistinct : realm.table.DistinctSiblings)
    (hpreserve : config.preserveGroupsInheritance = true)
    (hresolve : resolveGroupTree (ldapGroupsRep config ldapGroups) config.ignoreMissingGroups =
      some entries) : Converges config realm ldapGroups := by
  intro entrySet entrySet' _ _
  rw [sync_eq_tree hpreserve hresolve]
  have haccepted := accepted_of_resolveGroupTree hresolve
  have hnames : ∀ name ∈ entries.names, name ∈ ldapGroups.map (·.name) := by
    intro name hmem
    rwa [haccepted.names.mem_iff, names_ldapGroupsRep] at hmem
  obtain ⟨s₁, ids, hupdate, hvisits, hspans, hdistinct₁⟩ :=
    updateEntries_spec config none (s := start realm) hrealm hdistinct
      nofun hnames
  have hforest₁ := hvisits.forest hrealm
  have hsettled := settled_of_spans haccepted hforest₁ hdistinct₁ hspans
  obtain ⟨s, hfinish, hconverged, hpruned, hkeeps, -⟩ :=
    converged_of_settled haccepted.parent hvisits hsettled
      fun g hexists hother => hvisits.attributes g fun hmem => by
        obtain ⟨ldapGroup, hmem, hplace⟩ :=
          exists_place.mp (((mem_spans haccepted hdistinct₁ hspans).2 g).mp hmem)
        exact hother ldapGroup hmem (hplace.of_kept hrealm.toStored hvisits.kept hexists)
  refine ⟨s, by rw [hupdate]; exact hfinish, hconverged, ?_⟩
  rw [sync_eq_tree hpreserve hresolve]
  have hforest := hforest₁.pruned hpruned
  have hdistinct' := hdistinct₁.pruned hpruned
  have hspans' := hspans.mono fun g hg _ => hkeeps g hg
  obtain ⟨s₂, hupdate₂, hvisits₂, hadded₂⟩ :=
    updateEntries_again config (s := start s.realm) hforest.toStored
      hdistinct' hnames hspans'
  have htable₂ : s₂.realm.table = s.realm.table := hvisits₂.same hadded₂
  have hsettled₂ : Settled config ldapGroups s₂ ids :=
    settled_of_spans haccepted (htable₂ ▸ hforest) (htable₂ ▸ hdistinct') (htable₂ ▸ hspans')
  obtain ⟨s', hfinish', hcounts⟩ := finish_again hconverged hvisits₂ hsettled₂ hadded₂
  exact ⟨s', by rw [hupdate₂]; exact hfinish', hcounts⟩

/-! ## Without inheritance -/

theorem atPlace_flat (hpreserve : config.preserveGroupsInheritance = false) {t : Table}
    {name : String} {g : GroupId} :
    AtPlace (ldapGroupsRep config ldapGroups) t name g ↔ t.rows g = some ⟨some name, none⟩ := by
  have hchildren : ∀ group ∈ ldapGroupsRep config ldapGroups, ∀ name,
      name ∉ group.childrenNames := by
    intro group hgroup name
    obtain ⟨ldapGroup, -, rfl⟩ := List.mem_map.mp hgroup
    rw [hpreserve]
    exact List.not_mem_nil
  constructor
  · intro hplace
    cases hplace with
    | topLevel _ hrow => exact hrow
    | subgroup hmem hchild _ _ => exact absurd hchild (hchildren _ hmem _)
  · exact .topLevel fun group hgroup => hchildren group hgroup name

theorem singleParent_flat (hpreserve : config.preserveGroupsInheritance = false) :
    SingleParent (ldapGroupsRep config ldapGroups) := by
  intro name _ group hgroup group' _ hchild _
  obtain ⟨ldapGroup, -, rfl⟩ := List.mem_map.mp hgroup
  rw [hpreserve] at hchild
  exact absurd hchild List.not_mem_nil

/-- A loop that starts where no name is dangerous settles. -/
theorem settled_of_flatRun (hpreserve : config.preserveGroupsInheritance = false)
    (hperm : entrySet.Perm ldapGroups) (hforest : s'.realm.table.Forest)
    (hdistinct : s'.realm.table.DistinctSiblings) (hrun : FlatRun config s s' entrySet ids)
    (hplaced : ∀ ldapGroup ∈ ldapGroups,
      ∃ g, s'.realm.table.rows g = some ⟨some ldapGroup.name, none⟩)
    (hplain : config.dropNonExistingGroupsDuringSync = true → ∀ ldapGroup ∈ ldapGroups,
      Plain ldapGroup.name) : Settled config ldapGroups s' ids := by
  refine ⟨hforest, hdistinct, fun ldapGroup hmem => ?_, fun hdrop g => ?_⟩
  · obtain ⟨g, hrow⟩ := hplaced ldapGroup hmem
    exact ⟨g, (atPlace_flat hpreserve).mpr hrow⟩
  · -- a group that has been visited is the one with the name
    have hlocated : ∀ ldapGroup ∈ ldapGroups, ∀ {g}, Located s s' ldapGroup g →
        s'.realm.table.rows g = some ⟨some ldapGroup.name, none⟩ := by
      intro ldapGroup hmem g hlocated
      rcases hlocated with hfind | ⟨hrow, -⟩
      · exact (findExisting_of_plain hforest.toStored hrun.plain
          (hplain hdrop ldapGroup hmem)).mp hfind
      · exact hrow
    simp only [atPlace_flat hpreserve]
    constructor
    · intro hg
      obtain ⟨ldapGroup, hmem, hat⟩ := hrun.exists_ldapGroup hg
      have hmem' := hperm.mem_iff.mp hmem
      exact ⟨ldapGroup, hmem', hlocated ldapGroup hmem' hat⟩
    · rintro ⟨ldapGroup, hmem, hrow⟩
      obtain ⟨h, hh, hat⟩ := hrun.exists_id (hperm.mem_iff.mpr hmem)
      rw [hdistinct _ hrow (hlocated ldapGroup hmem hat)]
      exact hh

/-- A realm that has converged is left as it is, when every name with a slash is found. -/
theorem flat_again {realm₀ : Realm} (hpreserve : config.preserveGroupsInheritance = false)
    (hperm : entrySet.Perm ldapGroups) (hconverged : Converged config ldapGroups realm₀ realm)
    (hrealm : realm.table.Forest) (hdistinct : realm.table.DistinctSiblings)
    (hdrop : config.dropNonExistingGroupsDuringSync = true → ∀ ldapGroup ∈ ldapGroups,
      Plain ldapGroup.name)
    (hslash : ∀ ldapGroup ∈ ldapGroups, ¬ Plain ldapGroup.name →
      (findExisting realm.table ldapGroup).isSome) :
    ∃ s', syncDataFromFederationProviderToKeycloak config realm ldapGroups entrySet = some s' ∧
      s'.added = 0 ∧ s'.removed = 0 := by
  have hplain : PlainSiblings realm.table := fun name _ => hdistinct name
  obtain ⟨s, ids, hfold, hrun⟩ :=
    flatRun config (s := start realm) hrealm hplain entrySet
  have hplaced : ∀ ldapGroup ∈ ldapGroups,
      ∃ g, realm.table.rows g = some ⟨some ldapGroup.name, none⟩ := by
    intro ldapGroup hmem
    obtain ⟨g, hplace, -⟩ := hconverged.unique ldapGroup hmem
    exact ⟨g, (atPlace_flat hpreserve).mp hplace⟩
  have hadded : s.added = 0 := hrun.added_iff.mpr fun ldapGroup hmem => by
    have hmem' := hperm.mem_iff.mp hmem
    by_cases hname : Plain ldapGroup.name
    · obtain ⟨g, hrow⟩ := hplaced ldapGroup hmem'
      rw [start, (findExisting_of_plain hrealm.toStored hplain hname).mpr hrow]
      rfl
    · exact hslash ldapGroup hmem' hname
  have htable : s.realm.table = realm.table := hrun.visits.same hadded
  have hsettled : Settled config ldapGroups s ids :=
    settled_of_flatRun hpreserve hperm (htable ▸ hrealm) (htable ▸ hdistinct) hrun
      (htable ▸ hplaced) hdrop
  obtain ⟨s', hfinish, hcounts⟩ := finish_again hconverged hrun.visits hsettled hadded
  refine ⟨s', ?_, hcounts⟩
  rw [sync_eq_flat hpreserve, hfold]
  exact hfinish

theorem converges_flat (hrealm : realm.table.Forest) (hdistinct : realm.table.DistinctSiblings)
    (hpreserve : config.preserveGroupsInheritance = false)
    (hharmless : ∀ ldapGroup ∈ ldapGroups, ¬ Plain ldapGroup.name →
      Harmless config realm ldapGroups ldapGroup) : Converges config realm ldapGroups := by
  intro entrySet entrySet' hperm hperm'
  rw [sync_eq_flat hpreserve]
  have hplain : PlainSiblings realm.table := fun name _ => hdistinct name
  obtain ⟨s₁, ids, hfold, hrun⟩ :=
    flatRun config (s := start realm) hrealm hplain entrySet
  have hforest₁ := hrun.visits.forest hrealm
  have hslash : ∀ ldapGroup ∈ entrySet, ¬ Plain ldapGroup.name →
      (findExisting realm.table ldapGroup).isSome := by
    intro ldapGroup hmem hname
    obtain ⟨g, hfind, -⟩ := (hharmless ldapGroup (hperm.mem_iff.mp hmem) hname).found
    rw [findExisting, hfind]
    rfl
  have hdistinct₁ := hrun.distinctSiblings hdistinct hslash
  have hdrop : config.dropNonExistingGroupsDuringSync = true → ∀ ldapGroup ∈ ldapGroups,
      Plain ldapGroup.name := by
    intro hdrop ldapGroup hmem
    by_contra hname
    have hkeeps := (hharmless ldapGroup hmem hname).keeps
    rw [hdrop] at hkeeps
    cases hkeeps
  have hplaced₁ : ∀ ldapGroup ∈ ldapGroups,
      ∃ g, s₁.realm.table.rows g = some ⟨some ldapGroup.name, none⟩ := by
    intro ldapGroup hmem
    by_cases hname : Plain ldapGroup.name
    · obtain ⟨g, -, hfind | ⟨hrow, -⟩⟩ := hrun.exists_id (hperm.mem_iff.mpr hmem)
      · exact ⟨g, (findExisting_of_plain hforest₁.toStored hrun.plain hname).mp hfind⟩
      · exact ⟨g, hrow⟩
    · obtain ⟨g, hrow⟩ := (hharmless ldapGroup hmem hname).placed
      exact ⟨g, hrun.visits.row hrow⟩
  have hsettled := settled_of_flatRun hpreserve hperm hforest₁ hdistinct₁ hrun hplaced₁ hdrop
  obtain ⟨s, hfinish, hconverged, hpruned, -, hnodrop⟩ :=
    converged_of_settled (singleParent_flat hpreserve) hrun.visits hsettled
      fun g hexists hother => hrun.untouched g hexists fun ldapGroup hmem hfind => by
        have hmem' := hperm.mem_iff.mp hmem
        by_cases hname : Plain ldapGroup.name
        · have hrow := (findExisting_of_plain hrealm.toStored hplain hname).mp hfind
          exact absurd ((atPlace_flat hpreserve).mpr hrow) (hother ldapGroup hmem')
        · obtain ⟨h, hfind', hwhere⟩ := (hharmless ldapGroup hmem' hname).found
          cases hfind.symm.trans hfind'
          rcases hwhere with ⟨other, hother', hrow⟩ | hsame
          · exact absurd ((atPlace_flat hpreserve).mpr hrow) (hother other hother')
          · exact hsame
  refine ⟨s, by rw [hfold]; exact hfinish, hconverged, ?_⟩
  refine flat_again hpreserve hperm' hconverged (hforest₁.pruned hpruned)
    (hdistinct₁.pruned hpruned) hdrop fun ldapGroup hmem hname => ?_
  have hmem₀ := hperm.mem_iff.mpr hmem
  obtain ⟨g, hfind⟩ := Option.isSome_iff_exists.mp (hslash ldapGroup hmem₀ hname)
  rw [hnodrop (hharmless ldapGroup hmem hname).keeps,
    findExisting_mono hrealm.toStored hforest₁.toStored hrun.plain hrun.visits.kept hfind]
  rfl

/-! ### What a name with a slash does -/

/-- A synchronisation is a loop and what follows it. -/
theorem flatRun_of_sync (hrealm : realm.table.Forest) (hplain : PlainSiblings realm.table)
    (hpreserve : config.preserveGroupsInheritance = false)
    (hsync : syncDataFromFederationProviderToKeycloak config realm ldapGroups entrySet = some s') :
    ∃ s ids, FlatRun config (start realm) s entrySet ids ∧ finish config s = some s' := by
  rw [sync_eq_flat hpreserve] at hsync
  obtain ⟨s, ids, hfold, hrun⟩ :=
    flatRun config (s := start realm) hrealm hplain entrySet
  rw [hfold] at hsync
  exact ⟨s, ids, hrun, hsync⟩

/-- When others are dropped, the group of a name with a slash is dropped as well: what the
repeated synchronisation finds for it is another group. -/
theorem not_dropping (hrealm : realm.table.Forest) (hdistinct : realm.table.DistinctSiblings)
    (hpreserve : config.preserveGroupsInheritance = false)
    (hconverges : Converges config realm ldapGroups) {ldapGroup : LDAPObject}
    (hmem : ldapGroup ∈ ldapGroups) (hname : ¬ Plain ldapGroup.name) :
    config.dropNonExistingGroupsDuringSync = false := by
  cases hdrop : config.dropNonExistingGroupsDuringSync with
  | false => rfl
  | true =>
      exfalso
      obtain ⟨s, hsync, hconverged, s', hsync', hadded, hremoved⟩ :=
        hconverges ldapGroups ldapGroups (.refl _) (.refl _)
      obtain ⟨s₁, ids₁, hrun₁, hfinish₁⟩ :=
        flatRun_of_sync hrealm (fun name _ => hdistinct name) hpreserve hsync
      rw [finish, if_pos hdrop] at hfinish₁
      have hforest₁ := hrun₁.visits.forest hrealm
      have hpruned := foldlM_drop_pruned hforest₁.toStored hfinish₁
      have hforest := hforest₁.pruned hpruned
      obtain ⟨s₂, ids₂, hrun₂, hfinish₂⟩ :=
        flatRun_of_sync hforest (hrun₁.plain.pruned hpruned) hpreserve hsync'
      rw [finish, if_pos hdrop] at hfinish₂
      have hforest₂ := hrun₂.visits.forest hforest
      obtain ⟨hadded₂, hremoved₂⟩ := dropNonExistingKcGroups_counts hforest₂.toStored hfinish₂
      rw [hadded] at hadded₂
      have hall := hremoved₂.mp (hremoved.trans hrun₂.visits.removed.symm)
      -- the group at the place has been visited, but not for a path
      obtain ⟨g, hplace, -⟩ := hconverged.unique ldapGroup hmem
      have hrow := hrun₂.visits.row ((atPlace_flat hpreserve).mp hplace)
      have hvisited := (hrun₂.visits.visited g).mp (hall g (by rw [Table.Exists, hrow]; rfl))
      have hid : g ∈ ids₂ := (or_iff_left List.not_mem_nil).mp hvisited
      obtain ⟨other, hother, hfind | ⟨-, hnone⟩⟩ := hrun₂.exists_ldapGroup hid
      · obtain ⟨name, hpiece, parent, hrow'⟩ :=
          hforest₂.toStored.plain_of_findGroupByPath hfind
        rw [hrow] at hrow'
        cases hrow'
        exact hname hpiece
      · have hsome := hrun₂.added_iff.mp hadded₂.symm other hother
        rw [hnone] at hsome
        cases hsome

/-- The group of a name with a slash that is found was there before, and the group that is
found is updated. -/
theorem harmless_of_found (hrealm : realm.table.Forest)
    (hdistinct : realm.table.DistinctSiblings)
    (hpreserve : config.preserveGroupsInheritance = false)
    (hdrop : config.dropNonExistingGroupsDuringSync = false)
    (hconverges : Converges config realm ldapGroups) {ldapGroup : LDAPObject}
    {others : List LDAPObject} (hperm : (others ++ [ldapGroup]).Perm ldapGroups) {g : GroupId}
    (hfind : findExisting realm.table ldapGroup = some g) :
    Harmless config realm ldapGroups ldapGroup := by
  have hplain : PlainSiblings realm.table := fun name _ => hdistinct name
  have hmem : ldapGroup ∈ ldapGroups :=
    hperm.mem_iff.mp (List.mem_append_right _ (List.mem_singleton_self _))
  obtain ⟨s, hsync, hconverged, -⟩ := hconverges _ _ hperm hperm
  obtain ⟨s₁, ids, hfold, hrun⟩ :=
    flatRun config (s := start realm) hrealm hplain others
  have hfind₁ : findExisting s₁.realm.table ldapGroup = some g :=
    findExisting_mono hrealm.toStored (hrun.visits.forest hrealm).toStored hrun.plain
      hrun.visits.kept hfind
  rw [sync_eq_loop hpreserve hdrop, List.foldlM_append, hfold, Option.bind_eq_bind,
    Option.bind_some, List.foldlM_cons, updateFlatGroup_of_some hfind₁] at hsync
  cases hsync
  refine ⟨hdrop, ?_, g, hfind, ?_⟩
  · obtain ⟨h, hplace, -⟩ := hconverged.unique ldapGroup hmem
    have hrow := (atPlace_flat hpreserve).mp hplace
    rw [updateGroup_table] at hrow
    refine ⟨h, hrun.row_of_found (fun other _ heq => ?_) hrow⟩
    rw [start, findExisting, heq, ← findExisting, hfind]
    rfl
  · by_cases hother : ∃ other ∈ ldapGroups, realm.table.rows g = some ⟨some other.name, none⟩
    · exact .inl hother
    · right
      have hexists : realm.table.Exists g := by
        obtain ⟨name, -, parent, hrow⟩ := hrealm.toStored.plain_of_findGroupByPath hfind
        rw [Table.Exists, hrow]
        rfl
      have huntouched := (hconverged.untouched hdrop g hexists fun other hmem' hplace =>
        hother ⟨other, hmem', (atPlace_flat hpreserve).mp hplace⟩).2
      intro attrName hattr
      rw [← huntouched]
      exact updateAttributes_self.trans (if_pos hattr)

/-- A name with a slash is found, for otherwise a group would be added: beside another one at
the same place, or once more by the repeated synchronisation. -/
theorem found_of_converges (hrealm : realm.table.Forest)
    (hdistinct : realm.table.DistinctSiblings)
    (hpreserve : config.preserveGroupsInheritance = false)
    (hdrop : config.dropNonExistingGroupsDuringSync = false)
    (hconverges : Converges config realm ldapGroups) {ldapGroup : LDAPObject}
    (hname : ¬ Plain ldapGroup.name) {others : List LDAPObject}
    (hothers : ∀ other ∈ others, other.name ≠ ldapGroup.name)
    (hperm : (others ++ [ldapGroup]).Perm ldapGroups) :
    ∃ g, findExisting realm.table ldapGroup = some g := by
  rw [← Option.isSome_iff_exists, ← Option.ne_none_iff_isSome]
  intro hnone
  have hplain : PlainSiblings realm.table := fun name _ => hdistinct name
  have hmem : ldapGroup ∈ ldapGroups :=
    hperm.mem_iff.mp (List.mem_append_right _ (List.mem_singleton_self _))
  by_cases hplaced : ∃ g, realm.table.rows g = some ⟨some ldapGroup.name, none⟩
  · obtain ⟨g, hrow⟩ := hplaced
    have hfirst : (ldapGroup :: others).Perm ldapGroups :=
      (List.perm_append_singleton ldapGroup others).symm.trans hperm
    obtain ⟨s, hsync, hconverged, -⟩ := hconverges _ _ hfirst hfirst
    obtain ⟨s₁, hupdate, htable, hstep⟩ :=
      flatRun_addGroup config (s := start realm) hrealm hplain hnone
    obtain ⟨s₂, ids, hfold, hrun⟩ :=
      flatRun config (hstep.visits.forest hrealm) hstep.plain others
    rw [sync_eq_loop hpreserve hdrop, List.foldlM_cons, hupdate, Option.bind_eq_bind,
      Option.bind_some, hfold] at hsync
    cases hsync
    have hnew : s₁.realm.table.rows realm.table.nextId = some ⟨some ldapGroup.name, none⟩ := by
      rw [htable]
      exact insertRow_rows_self
    have hold := hrun.visits.row (hstep.visits.row hrow)
    have heq := (hconverged.unique ldapGroup hmem).unique
      ((atPlace_flat hpreserve).mpr hold) ((atPlace_flat hpreserve).mpr (hrun.visits.row hnew))
    refine hrealm.not_exists_nextId ?_
    rw [← heq, Table.Exists, hrow]
    rfl
  · obtain ⟨s, hsync, hconverged, s', hsync', hadded, -⟩ := hconverges _ _ hperm hperm
    obtain ⟨s₁, ids, hfold, hrun⟩ :=
      flatRun config (s := start realm) hrealm hplain others
    have hforest₁ := hrun.visits.forest hrealm
    have hnorow : ∀ g, s₁.realm.table.rows g ≠ some ⟨some ldapGroup.name, none⟩ := by
      intro g hrow
      refine hplaced ⟨g, hrun.row_of_found (fun other hmem' heq => ?_) hrow⟩
      exact absurd heq (hothers other hmem')
    rw [sync_eq_loop hpreserve hdrop, List.foldlM_append, hfold, Option.bind_eq_bind,
      Option.bind_some, List.foldlM_cons] at hsync
    cases hfind₁ : findExisting s₁.realm.table ldapGroup with
    | some g =>
        rw [updateFlatGroup_of_some hfind₁] at hsync
        cases hsync
        obtain ⟨h, hplace, -⟩ := hconverged.unique ldapGroup hmem
        have hrow := (atPlace_flat hpreserve).mp hplace
        rw [updateGroup_table] at hrow
        exact hnorow h hrow
    | none =>
        obtain ⟨s₂, hupdate, htable, hstep⟩ :=
          flatRun_addGroup config hforest₁ hrun.plain hfind₁
        rw [hupdate] at hsync
        cases hsync
        have hforest := hstep.visits.forest hforest₁
        rw [sync_eq_loop hpreserve hdrop] at hsync'
        obtain ⟨s₃, ids₃, hfold₃, hrun₃⟩ :=
          flatRun config (s := start s.realm) hforest hstep.plain
            (others ++ [ldapGroup])
        cases hfold₃.symm.trans hsync'
        have hsome := hrun₃.added_iff.mp hadded ldapGroup (hperm.mem_iff.mpr hmem)
        have hnone' := findExisting_insertRow hforest₁ hrun.plain
          hname hfind₁
        rw [← htable] at hnone'
        rw [start, hnone'] at hsome
        cases hsome

/-- A synchronisation and its repetition converge exactly when the inheritance is preserved or
every name with a slash does no harm. -/
theorem sync_converges_iff (hrealm : realm.table.Forest)
    (hdistinct : realm.table.DistinctSiblings) (hnames : (ldapGroups.map (·.name)).Nodup)
    (hresolve : config.preserveGroupsInheritance = true →
      (resolveGroupTree (ldapGroupsRep config ldapGroups) config.ignoreMissingGroups).isSome) :
    Converges config realm ldapGroups ↔ config.preserveGroupsInheritance = true ∨
      ∀ ldapGroup ∈ ldapGroups, '/' ∈ ldapGroup.name.toList →
        Harmless config realm ldapGroups ldapGroup := by
  cases hpreserve : config.preserveGroupsInheritance with
  | true =>
      obtain ⟨entries, hentries⟩ := Option.isSome_iff_exists.mp (hresolve hpreserve)
      exact iff_of_true (converges_tree hrealm hdistinct hpreserve hentries) (.inl rfl)
  | false =>
      constructor
      · intro hconverges
        refine .inr fun ldapGroup hmem hslash => ?_
        have hname : ¬ Plain ldapGroup.name := fun hplain => hplain hslash
        have hdrop := not_dropping hrealm hdistinct hpreserve hconverges hmem hname
        obtain ⟨before, after, rfl⟩ := List.append_of_mem hmem
        have hperm : (before ++ after ++ [ldapGroup]).Perm (before ++ ldapGroup :: after) :=
          (List.perm_append_singleton ldapGroup (before ++ after)).trans
            List.perm_middle.symm
        have hothers : ∀ other ∈ before ++ after, other.name ≠ ldapGroup.name := by
          rw [List.map_append, List.map_cons, List.nodup_middle, List.nodup_cons,
            ← List.map_append] at hnames
          exact fun other hother heq => hnames.1 (List.mem_map.mpr ⟨other, hother, heq⟩)
        obtain ⟨g, hfind⟩ := found_of_converges hrealm hdistinct hpreserve hdrop hconverges
          hname hothers hperm
        exact harmless_of_found hrealm hdistinct hpreserve hdrop hconverges hperm hfind
      · intro hcondition
        rcases hcondition with hfalse | hharmless
        · cases hfalse
        · refine converges_flat hrealm hdistinct hpreserve fun ldapGroup hmem hname => ?_
          exact hharmless ldapGroup hmem (not_not.mp hname)

end

/-! ### A realm without groups -/

def emptyRealm : Realm where
  table := ⟨fun _ => none, 0⟩
  attributes _ _ := none

theorem emptyRealm_forest : emptyRealm.table.Forest where
  parent_exists hlink := nomatch hlink
  lt_nextId hexists := nomatch hexists
  acyclic := ParentWalk.acyclic_of_no_links fun _ => rfl

theorem emptyRealm_distinctSiblings : emptyRealm.table.DistinctSiblings :=
  fun _ _ _ _ hg _ => nomatch hg

def flatConfig : GroupMapperConfig := ⟨false, false, false, []⟩

def ldapGroupNamed (name : String) : LDAPObject := ⟨name, [], fun _ => none⟩

theorem plain_names_converge :
    Converges flatConfig emptyRealm [ldapGroupNamed "sales", ldapGroupNamed "hr"] :=
  (sync_converges_iff emptyRealm_forest emptyRealm_distinctSiblings (by decide) (by decide)).mpr
    (.inr fun ldapGroup hmem hslash => by
      have hplain : ∀ ldapGroup ∈ [ldapGroupNamed "sales", ldapGroupNamed "hr"],
          '/' ∉ ldapGroup.name.toList := by decide
      exact absurd hslash (hplain ldapGroup hmem))

/-- The group `x/y` is looked up below the group `x`, and is added by every synchronisation. -/
theorem slash_does_not_converge :
    emptyRealm.table.Forest ∧ emptyRealm.table.DistinctSiblings ∧
      ¬ Converges flatConfig emptyRealm [ldapGroupNamed "x/y"] := by
  refine ⟨emptyRealm_forest, emptyRealm_distinctSiblings, fun hconverges => ?_⟩
  obtain ⟨s, hsync, -, s', hsync', hadded, -⟩ := hconverges _ _ (.refl _) (.refl _)
  have htwice : ((syncDataFromFederationProviderToKeycloak flatConfig emptyRealm
      [ldapGroupNamed "x/y"] [ldapGroupNamed "x/y"]).bind fun s =>
        (syncDataFromFederationProviderToKeycloak flatConfig s.realm [ldapGroupNamed "x/y"]
          [ldapGroupNamed "x/y"]).map (·.added)) = some 1 := by
    decide
  rw [hsync, Option.bind_some, hsync', Option.map_some, hadded] at htwice
  cases htwice

end Keycloak.Groups.LdapSync
