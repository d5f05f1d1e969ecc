import Keycloak.Groups.LdapPlaces

/-!
# Synchronisation without inheritance

Every LDAP group is looked up by its name as a path.  A group that is found once is found
from then on, and whatever is added is a top level group with the name of an LDAP group
that was not found.
-/

namespace Keycloak.Groups

namespace LdapSync

open Table

def findExisting (t : Table) (ldapGroup : LDAPObject) : Option GroupId :=
  t.findGroupByPath ("/" ++ ldapGroup.name)

/-- No two groups with the same name, which is one piece of a path, have the same parent. -/
def PlainSiblings (t : Table) : Prop :=
  ∀ name, Plain name → t.DistinctNamed name

section

variable {config : GroupMapperConfig} {t t' : Table} {s s' : Sync} {g : GroupId}
  {ldapGroup : LDAPObject} {ldapGroups : List LDAPObject} {ids : List GroupId}

theorem findExisting_eq_some (ht : t.Stored) (hplain : PlainSiblings t) :
    findExisting t ldapGroup = some g ↔ t.Reaches none (splitPath ("/" ++ ldapGroup.name)) g :=
  ht.findGroupByPath_eq_some hplain

theorem findExisting_mono (ht : t.Stored) (ht' : t'.Stored) (hplain' : PlainSiblings t')
    (hrows : ∀ x, t.Exists x → t'.rows x = t.rows x)
    (hfind : findExisting t ldapGroup = some g) : findExisting t' ldapGroup = some g := by
  refine (findExisting_eq_some ht' hplain').mpr ?_
  refine (ht.reaches_of_findGroupByPath hfind).mono fun x name parent _ hrow => ?_
  rw [hrows x (by rw [Table.Exists, hrow]; rfl), hrow]

theorem findExisting_of_kept (ht : t.Stored) (ht' : t'.Stored) (hplain : PlainSiblings t)
    (hrows : ∀ x, t.Exists x → t'.rows x = t.rows x)
    (hfind : findExisting t' ldapGroup = some g) (hg : t.Exists g) :
    findExisting t ldapGroup = some g := by
  refine (findExisting_eq_some ht hplain).mpr ?_
  exact ((ht'.reaches_of_findGroupByPath hfind).of_kept ht hrows hg).1

theorem findExisting_of_plain (ht : t.Stored) (hplain : PlainSiblings t)
    (hname : Plain ldapGroup.name) :
    findExisting t ldapGroup = some g ↔ t.rows g = some ⟨some ldapGroup.name, none⟩ :=
  (findExisting_eq_some ht hplain).trans (reaches_of_plain hname)

theorem findExisting_insertRow (ht : t.Forest) (hplain : PlainSiblings t) {name : String}
    (hname : ¬ Plain name) (hnone : findExisting t ldapGroup = none) :
    findExisting (t.insertRow name none) ldapGroup = none := by
  have ht' : (t.insertRow name none).Forest := ht.insertRow fun p hp => nomatch hp
  cases hfind : findExisting (t.insertRow name none) ldapGroup with
  | none => rfl
  | some g =>
      have hreaches := ht'.reaches_of_findGroupByPath hfind
      have hold : t.Reaches none (splitPath ("/" ++ ldapGroup.name)) g := by
        refine hreaches.mono fun x piece parent hmem hrow => ?_
        rcases insertRow_rows_cases hrow with hrow | ⟨-, heq⟩
        · exact hrow
        · cases heq
          exact absurd (plain_of_mem_splitPath hmem) hname
      rw [(findExisting_eq_some ht.toStored hplain).mpr hold] at hnone
      cases hnone

/-! ## One LDAP group -/

theorem updateFlatGroup_of_some (hfind : findExisting s.realm.table ldapGroup = some g) :
    updateFlatGroup config s ldapGroup = some (s.updateGroup config g ldapGroup) := by
  rw [findExisting] at hfind
  unfold updateFlatGroup
  rw [hfind]

theorem updateFlatGroup_of_none (config : GroupMapperConfig) (hs : s.realm.table.Forest)
    (hfind : findExisting s.realm.table ldapGroup = none) :
    ∃ s', updateFlatGroup config s ldapGroup = some s' ∧
      s'.realm.table = s.realm.table.insertRow ldapGroup.name none ∧
      s'.added = s.added + 1 ∧ Visits s s' [s.realm.table.nextId] := by
  rw [findExisting] at hfind
  unfold updateFlatGroup
  rw [hfind]
  exact addGroup_spec config ldapGroup hs fun p hp => nomatch hp

theorem PlainSiblings.insertRow (ht : t.Stored) (hplain : PlainSiblings t)
    (hfind : findExisting t ldapGroup = none) :
    PlainSiblings (t.insertRow ldapGroup.name none) := by
  intro name hname
  refine DistinctNamed.insertRow (hplain name hname) fun heq x hrow => ?_
  subst heq
  rw [(findExisting_of_plain ht hplain hname).mpr hrow] at hfind
  cases hfind

theorem PlainSiblings.pruned (hplain : PlainSiblings t) (hpruned : Pruned t t') :
    PlainSiblings t' :=
  fun name hname => DistinctNamed.pruned (hplain name hname) hpruned

/-! ## The loop -/

/-- The group that is visited for an LDAP group: one that is found, or a new one. -/
def Located (s s' : Sync) (ldapGroup : LDAPObject) (g : GroupId) : Prop :=
  findExisting s'.realm.table ldapGroup = some g ∨
    s'.realm.table.rows g = some ⟨some ldapGroup.name, none⟩ ∧
      findExisting s.realm.table ldapGroup = none

/-- The attributes that the synchronisation writes are those of the LDAP group. -/
def SameAttributes (config : GroupMapperConfig) (r : Realm) (g : GroupId)
    (ldapGroup : LDAPObject) : Prop :=
  ∀ attrName ∈ config.groupAttributes, r.attributes g attrName = ldapGroup.attributes attrName

structure FlatRun (config : GroupMapperConfig) (s s' : Sync) (ldapGroups : List LDAPObject)
    (ids : List GroupId) : Prop where
  visits : Visits s s' ids
  plain : PlainSiblings s'.realm.table
  located : List.Forall₂ (Located s s') ldapGroups ids
  new : ∀ g, s'.realm.table.Exists g → s.realm.table.Exists g ∨ ∃ ldapGroup ∈ ldapGroups,
    s'.realm.table.rows g = some ⟨some ldapGroup.name, none⟩ ∧
      findExisting s.realm.table ldapGroup = none
  added_iff : s'.added = s.added ↔
    ∀ ldapGroup ∈ ldapGroups, (findExisting s.realm.table ldapGroup).isSome
  untouched : ∀ g, s.realm.table.Exists g →
    (∀ ldapGroup ∈ ldapGroups, findExisting s.realm.table ldapGroup = some g →
      SameAttributes config s.realm g ldapGroup) → s'.realm.attributes g = s.realm.attributes g

theorem flatRun_updateGroup (hplain : PlainSiblings s.realm.table)
    (hfind : findExisting s.realm.table ldapGroup = some g) :
    FlatRun config s (s.updateGroup config g ldapGroup) [ldapGroup] [g] := by
  have htable := updateGroup_table config s g ldapGroup
  exact {
    visits := visits_updateGroup
    plain := htable ▸ hplain
    located := .cons (.inl (htable ▸ hfind)) .nil
    new x hx := .inl (htable ▸ hx)
    added_iff := by
      refine iff_of_true rfl fun other hmem => ?_
      rw [List.mem_singleton.mp hmem, hfind]
      rfl
    untouched x _ hsame := by
      rcases eq_or_ne x g with rfl | hne
      · exact updateAttributes_same (hsame ldapGroup (List.mem_singleton_self _) hfind)
      · exact updateAttributes_of_ne hne }

theorem flatRun_addGroup (config : GroupMapperConfig) (hs : s.realm.table.Forest)
    (hplain : PlainSiblings s.realm.table)
    (hfind : findExisting s.realm.table ldapGroup = none) :
    ∃ s', updateFlatGroup config s ldapGroup = some s' ∧
      s'.realm.table = s.realm.table.insertRow ldapGroup.name none ∧
      FlatRun config s s' [ldapGroup] [s.realm.table.nextId] := by
  obtain ⟨s', hupdate, htable, hadded, hvisits⟩ :=
    updateFlatGroup_of_none config hs hfind
  have hrow : s'.realm.table.rows s.realm.table.nextId = some ⟨some ldapGroup.name, none⟩ := by
    rw [htable, insertRow_rows_self]
  refine ⟨s', hupdate, htable, ?_⟩
  exact {
    visits := hvisits
    plain := htable ▸ hplain.insertRow hs.toStored hfind
    located := .cons (.inr ⟨hrow, hfind⟩) .nil
    new x hx := by
      rcases hvisits.new x hx with hold | hmem
      · exact .inl hold
      · cases List.mem_singleton.mp hmem
        exact .inr ⟨ldapGroup, List.mem_singleton_self _, hrow, hfind⟩
    added_iff := by
      refine iff_of_false (by omega) fun hall => ?_
      have hsome := hall ldapGroup (List.mem_singleton_self _)
      rw [hfind] at hsome
      cases hsome
    untouched x hx _ := by
      refine hvisits.attributes x fun hmem => ?_
      rw [List.mem_singleton.mp hmem] at hx
      exact hs.not_exists_nextId hx }

theorem updateFlatGroup_spec (config : GroupMapperConfig) (hs : s.realm.table.Forest)
    (hplain : PlainSiblings s.realm.table) :
    ∃ s' g, updateFlatGroup config s ldapGroup = some s' ∧
      FlatRun config s s' [ldapGroup] [g] := by
  cases hfind : findExisting s.realm.table ldapGroup with
  | some g => exact ⟨_, g, updateFlatGroup_of_some hfind, flatRun_updateGroup hplain hfind⟩
  | none =>
      obtain ⟨s', hupdate, -, hrun⟩ := flatRun_addGroup config hs hplain hfind
      exact ⟨s', _, hupdate, hrun⟩

theorem FlatRun.refl (hplain : PlainSiblings s.realm.table) : FlatRun config s s [] [] where
  visits := .refl s
  plain := hplain
  located := .nil
  new _ hx := .inl hx
  added_iff := iff_of_true rfl fun _ hmem => absurd hmem List.not_mem_nil
  untouched _ _ _ := rfl

theorem FlatRun.trans {s'' : Sync} {ldapGroups' : List LDAPObject} {ids' : List GroupId}
    (hs : s.realm.table.Forest) (hplain : PlainSiblings s.realm.table)
    (h : FlatRun config s s' ldapGroups ids) (h' : FlatRun config s' s'' ldapGroups' ids') :
    FlatRun config s s'' (ldapGroups ++ ldapGroups') (ids ++ ids') := by
  have hs' := h.visits.forest hs
  have hs'' := h'.visits.forest hs'
  have hfound : ∀ {ldapGroup g}, findExisting s'.realm.table ldapGroup = some g →
      findExisting s''.realm.table ldapGroup = some g :=
    findExisting_mono hs'.toStored hs''.toStored h'.plain h'.visits.kept
  have hnone : ∀ {ldapGroup}, findExisting s'.realm.table ldapGroup = none →
      findExisting s.realm.table ldapGroup = none := fun {ldapGroup} hnone => by
    cases hfind : findExisting s.realm.table ldapGroup with
    | none => rfl
    | some g =>
        rw [findExisting_mono hs.toStored hs'.toStored h.plain h.visits.kept hfind] at hnone
        cases hnone
  refine ⟨h.visits.trans h'.visits, h'.plain, List.rel_append ?_ ?_, fun x hx => ?_, ?_,
    fun x hx hsame => ?_⟩
  · refine h.located.imp fun ldapGroup g hlocated => ?_
    rcases hlocated with hfind | ⟨hrow, hfind⟩
    · exact .inl (hfound hfind)
    · exact .inr ⟨h'.visits.row hrow, hfind⟩
  · refine h'.located.imp fun ldapGroup g hlocated => ?_
    rcases hlocated with hfind | ⟨hrow, hfind⟩
    · exact .inl hfind
    · exact .inr ⟨hrow, hnone hfind⟩
  · rcases h'.new x hx with hx | ⟨ldapGroup, hmem, hrow, hfind⟩
    · rcases h.new x hx with hx | ⟨ldapGroup, hmem, hrow, hfind⟩
      · exact .inl hx
      · exact .inr ⟨ldapGroup, List.mem_append_left _ hmem, h'.visits.row hrow, hfind⟩
    · exact .inr ⟨ldapGroup, List.mem_append_right _ hmem, hrow, hnone hfind⟩
  · have hle := h.visits.added
    have hle' := h'.visits.added
    rw [List.forall_mem_append, ← h.added_iff]
    constructor
    · intro heq
      have heq₁ : s'.added = s.added := by omega
      refine ⟨heq₁, ?_⟩
      rw [← h.visits.same heq₁]
      exact h'.added_iff.mp (by omega)
    · rintro ⟨heq, hall⟩
      rw [← h.visits.same heq, ← h'.added_iff] at hall
      omega
  · rw [List.forall_mem_append] at hsame
    have hfirst := h.untouched x hx hsame.1
    refine (h'.untouched x (h.visits.exists_of hx) fun ldapGroup hmem hfind => ?_).trans hfirst
    have hfind₀ := findExisting_of_kept hs.toStored hs'.toStored hplain h.visits.kept hfind hx
    rw [SameAttributes, hfirst]
    exact hsame.2 ldapGroup hmem hfind₀

theorem flatRun (config : GroupMapperConfig) (hs : s.realm.table.Forest)
    (hplain : PlainSiblings s.realm.table)
    (ldapGroups : List LDAPObject) :
    ∃ s' ids, ldapGroups.foldlM (updateFlatGroup config) s = some s' ∧
      FlatRun config s s' ldapGroups ids := by
  induction ldapGroups generalizing s with
  | nil => exact ⟨s, [], rfl, .refl hplain⟩
  | cons ldapGroup rest ih =>
      obtain ⟨s₁, g, hupdate, hstep⟩ := updateFlatGroup_spec config hs hplain
      obtain ⟨s₂, ids, hfold, hrun⟩ := ih (hstep.visits.forest hs) hstep.plain
      refine ⟨s₂, g :: ids, ?_, hstep.trans hs hplain hrun⟩
      rw [List.foldlM_cons, hupdate]
      exact hfold

theorem exists_of_forall₂ {α β : Type} {r : α → β → Prop} {as : List α} {bs : List β}
    (h : List.Forall₂ r as bs) {a : α} (ha : a ∈ as) : ∃ b ∈ bs, r a b := by
  induction h with
  | nil => cases ha
  | @cons x y as bs hxy _ ih =>
      rcases List.mem_cons.mp ha with rfl | ha
      · exact ⟨y, List.mem_cons_self, hxy⟩
      · obtain ⟨b, hb, hab⟩ := ih ha
        exact ⟨b, List.mem_cons_of_mem _ hb, hab⟩

theorem FlatRun.exists_id (h : FlatRun config s s' ldapGroups ids)
    (hmem : ldapGroup ∈ ldapGroups) : ∃ g ∈ ids, Located s s' ldapGroup g :=
  exists_of_forall₂ h.located hmem

theorem FlatRun.exists_ldapGroup (h : FlatRun config s s' ldapGroups ids) (hg : g ∈ ids) :
    ∃ ldapGroup ∈ ldapGroups, Located s s' ldapGroup g :=
  exists_of_forall₂ (r := flip (Located s s')) (List.Forall₂.flip h.located) hg

theorem FlatRun.row_of_found (h : FlatRun config s s' ldapGroups ids) {name : String}
    {parent : Option GroupId}
    (hfound : ∀ ldapGroup ∈ ldapGroups, ldapGroup.name = name →
      (findExisting s.realm.table ldapGroup).isSome)
    (hrow : s'.realm.table.rows g = some ⟨some name, parent⟩) :
    s.realm.table.rows g = some ⟨some name, parent⟩ := by
  rcases h.new g (by rw [Table.Exists, hrow]; rfl) with hg | ⟨ldapGroup, hmem, hrow', hnone⟩
  · exact (h.visits.kept g hg).symm.trans hrow
  · rw [hrow, Option.some.injEq, GroupEntity.mk.injEq, Option.some.injEq] at hrow'
    have hsome := hfound ldapGroup hmem hrow'.1.symm
    rw [hnone] at hsome
    cases hsome

/-- Distinct siblings stay distinct when every name with a slash is found. -/
theorem FlatRun.distinctSiblings (h : FlatRun config s s' ldapGroups ids)
    (hdistinct : s.realm.table.DistinctSiblings)
    (hslash : ∀ ldapGroup ∈ ldapGroups, ¬ Plain ldapGroup.name →
      (findExisting s.realm.table ldapGroup).isSome) : s'.realm.table.DistinctSiblings := by
  intro name
  by_cases hname : Plain name
  · exact h.plain name hname
  · have hfound : ∀ ldapGroup ∈ ldapGroups, ldapGroup.name = name →
        (findExisting s.realm.table ldapGroup).isSome := fun ldapGroup hmem heq =>
      hslash ldapGroup hmem (heq ▸ hname)
    intro hg hg'
    exact hdistinct name (h.row_of_found hfound hg) (h.row_of_found hfound hg')

end

end LdapSync

end Keycloak.Groups
