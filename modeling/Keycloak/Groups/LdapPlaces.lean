import Keycloak.Groups.LdapTree

/-!
# The places of the LDAP groups

A group that is no subgroup of another LDAP group has its place at the top level, every
other one below the group at the place of its parent.  The groups that span the trees are
those at the places.
-/

namespace Keycloak.Groups.LdapSync

open Table

inductive AtPlace (groups : List Group) (t : Table) : String → GroupId → Prop
  | topLevel {name g} : (∀ group ∈ groups, name ∉ group.childrenNames) →
      t.rows g = some ⟨some name, none⟩ → AtPlace groups t name g
  | subgroup {name group p g} : group ∈ groups → name ∈ group.childrenNames →
      AtPlace groups t group.groupName p → t.rows g = some ⟨some name, some p⟩ →
      AtPlace groups t name g

section

variable {groups : List Group} {t t' : Table} {name : String} {g h p : GroupId}
  {parent : Option GroupId} {entries : GroupTreeEntries} {ids : List GroupId}

theorem AtPlace.mono (hplace : AtPlace groups t name g)
    (hrows : ∀ x, t.Exists x → t'.rows x = t.rows x) : AtPlace groups t' name g := by
  induction hplace with
  | @topLevel name g hroot hrow =>
      refine .topLevel hroot ((hrows g ?_).trans hrow)
      rw [Table.Exists, hrow]
      rfl
  | @subgroup name group p g hmem hchild hplace hrow ih =>
      refine .subgroup hmem hchild ih ((hrows g ?_).trans hrow)
      rw [Table.Exists, hrow]
      rfl

theorem AtPlace.mono_places (hplace : AtPlace groups t name g)
    (hname : name ∈ groups.map (·.groupName))
    (hrows : ∀ name ∈ groups.map (·.groupName), ∀ x, AtPlace groups t name x →
      t'.rows x = t.rows x) : AtPlace groups t' name g := by
  induction hplace with
  | @topLevel name g hroot hrow =>
      exact .topLevel hroot ((hrows name hname g (.topLevel hroot hrow)).trans hrow)
  | @subgroup name group p g hmem hchild hplace hrow ih =>
      have hstays := hrows name hname g (.subgroup hmem hchild hplace hrow)
      exact .subgroup hmem hchild (ih (List.mem_map_of_mem hmem)) (hstays.trans hrow)

theorem AtPlace.of_kept (ht : t.Stored) (hrows : ∀ x, t.Exists x → t'.rows x = t.rows x)
    (hplace : AtPlace groups t' name g) (hg : t.Exists g) : AtPlace groups t name g := by
  induction hplace with
  | @topLevel name g hroot hrow => exact .topLevel hroot ((hrows g hg).symm.trans hrow)
  | @subgroup name group p g hmem hchild hplace hrow ih =>
      have hold := (hrows g hg).symm.trans hrow
      have hlink : t.getParentId g = some p := (rows_eq_iff.mp hold).2.2
      exact .subgroup hmem hchild (ih (ht.parent_exists hlink)) hold

def SingleParent (groups : List Group) : Prop :=
  ∀ name ∈ groups.map (·.groupName), ∀ group ∈ groups, ∀ group' ∈ groups,
    name ∈ group.childrenNames → name ∈ group'.childrenNames →
      group.groupName = group'.groupName

theorem AtPlace.eq (hsingle : SingleParent groups) (hdistinct : t.DistinctSiblings)
    (hname : name ∈ groups.map (·.groupName)) (hplace : AtPlace groups t name g)
    (hplace' : AtPlace groups t name h) : g = h := by
  induction hplace generalizing h with
  | @topLevel name g hroot hrow =>
      cases hplace' with
      | topLevel _ hrow' => exact hdistinct name hrow hrow'
      | subgroup hmem hchild _ _ => exact absurd hchild (hroot _ hmem)
  | @subgroup name group p g hmem hchild hplace hrow ih =>
      cases hplace' with
      | topLevel hroot _ => exact absurd hchild (hroot _ hmem)
      | @subgroup _ group' p' _ hmem' hchild' hplace' hrow' =>
          have hparent :=
            hsingle name hname group hmem group' hmem' hchild hchild'
          have hp : p = p' := ih (List.mem_map_of_mem hmem) (hparent ▸ hplace')
          exact hdistinct name hrow (hp ▸ hrow')

theorem places_of_spans {subtree : GroupTreeEntries} (hfollows : Follows groups subtree)
    (hspans : Spans t parent subtree ids)
    (hroots : ∀ name ∈ subtree.roots, ∀ g, t.rows g = some ⟨some name, parent⟩ →
      AtPlace groups t name g) :
    (∀ name ∈ subtree.names, ∃ g ∈ ids, AtPlace groups t name g) ∧
      ∀ g ∈ ids, ∃ name ∈ subtree.names, AtPlace groups t name g := by
  induction subtree generalizing parent ids with
  | nil =>
      cases hspans
      exact ⟨fun name hname => absurd hname List.not_mem_nil,
        fun g hg => absurd hg List.not_mem_nil⟩
  | cons name children rest ihchildren ihrest =>
      obtain ⟨g, ids₁, ids₂, rfl, hrow, hchildren, hrest⟩ := hspans
      obtain ⟨⟨group, hgroup, rfl, hbelow⟩, hfollows₁, hfollows₂⟩ := hfollows
      have hplace := hroots _ List.mem_cons_self g hrow
      obtain ⟨hplaced₁, hplaces₁⟩ := ihchildren hfollows₁ hchildren
        fun child hchild x hx => .subgroup hgroup ((hbelow child).mp hchild).1 hplace hx
      obtain ⟨hplaced₂, hplaces₂⟩ := ihrest hfollows₂ hrest
        fun x hx => hroots x (List.mem_cons_of_mem _ hx)
      constructor
      · intro x hx
        rcases List.mem_cons.mp hx with rfl | hx
        · exact ⟨g, List.mem_cons_self, hplace⟩
        · rcases List.mem_append.mp hx with hx | hx
          · obtain ⟨y, hy, hat⟩ := hplaced₁ x hx
            exact ⟨y, List.mem_cons_of_mem _ (List.mem_append_left _ hy), hat⟩
          · obtain ⟨y, hy, hat⟩ := hplaced₂ x hx
            exact ⟨y, List.mem_cons_of_mem _ (List.mem_append_right _ hy), hat⟩
      · intro y hy
        rcases List.mem_cons.mp hy with rfl | hy
        · exact ⟨_, List.mem_cons_self, hplace⟩
        · rcases List.mem_append.mp hy with hy | hy
          · obtain ⟨x, hx, hat⟩ := hplaces₁ y hy
            exact ⟨x, List.mem_cons_of_mem _ (List.mem_append_left _ hx), hat⟩
          · obtain ⟨x, hx, hat⟩ := hplaces₂ y hy
            exact ⟨x, List.mem_cons_of_mem _ (List.mem_append_right _ hx), hat⟩

theorem mem_spans (haccepted : Accepted groups entries) (hdistinct : t.DistinctSiblings)
    (hspans : Spans t none entries ids) :
    (∀ name ∈ groups.map (·.groupName), ∃ g, AtPlace groups t name g) ∧
      ∀ g, g ∈ ids ↔ ∃ name ∈ groups.map (·.groupName), AtPlace groups t name g := by
  have hnames : ∀ name, name ∈ entries.names ↔ name ∈ groups.map (·.groupName) :=
    fun name => haccepted.names.mem_iff
  obtain ⟨hplaced, hplaces⟩ := places_of_spans haccepted.follows hspans
    fun name hname g hrow =>
      .topLevel ((haccepted.roots name).mp hname).2 hrow
  refine ⟨fun name hname => ?_, fun g => ⟨fun hg => ?_, ?_⟩⟩
  · obtain ⟨g, -, hplace⟩ := hplaced name ((hnames name).mpr hname)
    exact ⟨g, hplace⟩
  · obtain ⟨name, hname, hplace⟩ := hplaces g hg
    exact ⟨name, (hnames name).mp hname, hplace⟩
  · rintro ⟨name, hname, hplace⟩
    obtain ⟨h, hmem, hplace'⟩ := hplaced name ((hnames name).mpr hname)
    rw [AtPlace.eq haccepted.parent hdistinct hname hplace hplace']
    exact hmem

theorem closedUp_places : t.ClosedUp fun g =>
    ∃ name ∈ groups.map (·.groupName), AtPlace groups t name g := by
  rintro x p ⟨name, hname, hplace⟩ hlink
  cases hplace with
  | topLevel _ hrow =>
      have hnone := (rows_eq_iff.mp hrow).2.2
      rw [hlink] at hnone
      cases hnone
  | @subgroup _ group p' _ hmem _ hplace hrow =>
      have hsome := (rows_eq_iff.mp hrow).2.2
      rw [hlink] at hsome
      cases hsome
      exact ⟨group.groupName, List.mem_map_of_mem hmem, hplace⟩

end

end Keycloak.Groups.LdapSync
