import Keycloak.Groups.LdapSync

/-!
# What the steps of the group synchronisation do to the rows

A group is at a place when its row has the name and the parent of that place.  Groups are
found by their places, a new group is one more row, and the groups that are dropped take
along nothing that has been visited.
-/

namespace Keycloak.Groups

namespace Table

section

variable {t t' : Table} {g h : GroupId} {name : String} {parent : Option GroupId}

theorem rows_eq_iff : t.rows g = some ⟨some name, parent⟩ ↔
    t.Exists g ∧ t.getName g = some name ∧ t.getParentId g = parent := by
  unfold Exists getName getParentId
  constructor
  · intro hrow
    rw [hrow]
    exact ⟨rfl, rfl, rfl⟩
  · rintro ⟨hexists, hname, hparent⟩
    obtain ⟨e, he⟩ := Option.isSome_iff_exists.mp hexists
    rw [he, Option.bind_some] at hname hparent
    rw [he, ← hname, ← hparent]

theorem Stored.mem_getTopLevelGroups (ht : t.Stored) :
    g ∈ t.getTopLevelGroups ↔ t.Exists g ∧ t.getParentId g = none := by
  rw [getTopLevelGroups, List.mem_filter, List.mem_range, decide_eq_true_eq]
  exact ⟨fun hmem => hmem.2, fun hmem => ⟨ht.lt_nextId hmem.1, hmem⟩⟩

theorem Stored.mem_getGroups (ht : t.Stored) : g ∈ t.getGroups ↔ t.Exists g := by
  rw [getGroups, List.mem_filter, List.mem_range]
  exact ⟨fun hmem => hmem.2, fun hmem => ⟨ht.lt_nextId hmem, hmem⟩⟩

theorem Stored.mem_subgroups (ht : t.Stored) : g ∈ LdapSync.subgroups t parent ↔
    t.Exists g ∧ t.getParentId g = parent := by
  cases parent with
  | none => exact ht.mem_getTopLevelGroups
  | some p =>
      refine ht.mem_getSubGroups.trans ⟨fun hlink => ?_, fun hmem => hmem.2⟩
      exact ⟨exists_of_getParentId hlink, hlink⟩

def DistinctNamed (t : Table) (name : String) : Prop :=
  ∀ {g h parent}, t.rows g = some ⟨some name, parent⟩ → t.rows h = some ⟨some name, parent⟩ →
    g = h

def DistinctSiblings (t : Table) : Prop :=
  ∀ name, t.DistinctNamed name

theorem DistinctNamed.pruned (ht : t.DistinctNamed name) (hpruned : Pruned t t') :
    t'.DistinctNamed name := by
  have hold : ∀ {x e}, t'.rows x = some e → t.rows x = some e := by
    intro x e hrow
    rw [← hpruned.rows x (by rw [Exists, hrow]; rfl)]
    exact hrow
  intro g h parent hg hh
  exact ht (hold hg) (hold hh)

theorem DistinctSiblings.pruned (ht : t.DistinctSiblings) (hpruned : Pruned t t') :
    t'.DistinctSiblings :=
  fun name => DistinctNamed.pruned (ht name) hpruned

/-! ## New rows -/

def insertRow (t : Table) (name : String) (parent : Option GroupId) : Table where
  rows := Function.update t.rows t.nextId (some ⟨some name, parent⟩)
  nextId := t.nextId + 1

theorem insertRow_rows_self : (t.insertRow name parent).rows t.nextId =
    some ⟨some name, parent⟩ :=
  Function.update_self ..

theorem Stored.not_exists_nextId (ht : t.Stored) : ¬ t.Exists t.nextId :=
  fun hexists => Nat.lt_irrefl _ (ht.lt_nextId hexists)

theorem Stored.insertRow_rows (ht : t.Stored) (hg : t.Exists g) :
    (t.insertRow name parent).rows g = t.rows g :=
  Function.update_of_ne (fun heq : g = t.nextId => ht.not_exists_nextId (heq ▸ hg)) ..

theorem insertRow_rows_cases {e : GroupEntity} (hrow : (t.insertRow name parent).rows g = some e) :
    t.rows g = some e ∨ g = t.nextId ∧ e = ⟨some name, parent⟩ := by
  rcases eq_or_ne g t.nextId with rfl | hne
  · rw [insertRow_rows_self, Option.some.injEq] at hrow
    exact .inr ⟨rfl, hrow.symm⟩
  · exact .inl ((Function.update_of_ne hne ..).symm.trans hrow)

theorem exists_insertRow :
    (t.insertRow name parent).Exists g ↔ g = t.nextId ∨ t.Exists g := by
  unfold Exists insertRow
  rcases eq_or_ne g t.nextId with rfl | hne
  · simp
  · simp [hne]

theorem Stored.createGroup_moveGroup (ht : t.Stored) (hparent : ∀ p, parent = some p → t.Exists p) :
    (t.createGroup (some name)).moveGroup t.nextId parent = some (t.insertRow name parent) := by
  have hself : parent ≠ some t.nextId := fun heq => ht.not_exists_nextId (hparent _ heq)
  have hlink : (t.createGroup (some name)).getParentId t.nextId = none := by
    simp [getParentId, createGroup]
  rw [Table.moveGroup, if_neg hself, leaveParent, hlink]
  cases parent with
  | none =>
      simp [setParent, addTopLevelGroup, modify, createGroup, insertRow]
  | some p =>
      have hne : p ≠ t.nextId := fun heq => hself (congrArg some heq)
      simp [setParent, addChild, modify, createGroup, insertRow, hne, hne.symm]

theorem getParentId_insertRow (t : Table) (name : String) (parent : Option GroupId) :
    (t.insertRow name parent).getParentId = Function.update t.getParentId t.nextId parent := by
  funext x
  rcases eq_or_ne x t.nextId with rfl | hne
  · rw [Function.update_self, getParentId, insertRow_rows_self]
    rfl
  · rw [Function.update_of_ne hne, getParentId, getParentId, insertRow]
    simp only [Function.update_of_ne hne]

theorem Forest.insertRow (ht : t.Forest) (hparent : ∀ p, parent = some p → t.Exists p) :
    (t.insertRow name parent).Forest := by
  have hlinks := getParentId_insertRow t name parent
  refine ⟨⟨fun {x p} hlink => ?_, fun {x} hexists => ?_⟩, ?_⟩
  · rw [hlinks] at hlink
    refine exists_insertRow.mpr (.inr ?_)
    rcases eq_or_ne x t.nextId with rfl | hne
    · rw [Function.update_self] at hlink
      exact hparent p hlink
    · rw [Function.update_of_ne hne] at hlink
      exact ht.parent_exists hlink
  · rcases exists_insertRow.mp hexists with rfl | hold
    · exact Nat.lt_succ_self _
    · exact Nat.lt_succ_of_lt (ht.lt_nextId hold)
  · rw [hlinks]
    cases parent with
    | none => exact ht.acyclic.update_none
    | some p =>
        refine ht.acyclic.update_some fun hreach => ?_
        -- nothing has the new id as its parent
        cases hreach with
        | refl => exact ht.not_exists_nextId (hparent _ rfl)
        | tail _ hlink => exact ht.not_exists_nextId (ht.parent_exists hlink)

theorem DistinctNamed.insertRow {name' : String} (ht : t.DistinctNamed name')
    (hnew : name' = name → ∀ g, t.rows g ≠ some ⟨some name, parent⟩) :
    (t.insertRow name parent).DistinctNamed name' := by
  intro g h parent' hg hh
  rcases insertRow_rows_cases hg with hg | ⟨rfl, heq⟩
  · rcases insertRow_rows_cases hh with hh | ⟨-, heq⟩
    · exact ht hg hh
    · cases heq
      exact absurd hg (hnew rfl g)
  · rcases insertRow_rows_cases hh with hh | ⟨rfl, -⟩
    · cases heq
      exact absurd hh (hnew rfl h)
    · rfl

/-! ## Removed rows -/

theorem Forest.removeGroup_isSome_of_lt (ht : t.Forest) (hg : g < t.nextId) :
    (removeGroup t.nextId t g).isSome := by
  by_cases hexists : t.Exists g
  · exact ht.removeGroup_isSome hexists (Nat.le_refl _)
  · have hpos : 0 < t.nextId := Nat.lt_of_le_of_lt (Nat.zero_le g) hg
    obtain ⟨fuel, hfuel⟩ := Nat.exists_eq_succ_of_ne_zero (Nat.ne_of_gt hpos)
    have hnone : t.getSubGroups g = [] := by
      refine List.eq_nil_iff_forall_not_mem.mpr fun sub hsub => hexists ?_
      exact ht.parent_exists (ht.mem_getSubGroups.mp hsub)
    rw [hfuel, removeGroup, hnone]
    rfl

/-- The parents of what is kept are kept. -/
def ClosedUp (t : Table) (keep : GroupId → Prop) : Prop :=
  ∀ {x p}, keep x → t.getParentId x = some p → keep p

theorem ClosedUp.pruned {keep : GroupId → Prop} (h : t.ClosedUp keep) (hpruned : Pruned t t') :
    t'.ClosedUp keep :=
  fun hkeep hlink => h hkeep (hpruned.getParentId hlink)

theorem foldlM_removeGroup_keeps {keep : GroupId → Prop} {fuel : Nat} {x : GroupId}
    (ih : ∀ {t t' : Table} {g}, t.Stored → t.ClosedUp keep → removeGroup fuel t g = some t' →
      ¬ keep g → t'.rows x = t.rows x)
    {subGroups : List GroupId} (ht : t.Stored) (hup : t.ClosedUp keep)
    (hfold : subGroups.foldlM (removeGroup fuel) t = some t')
    (hsubs : ∀ sub ∈ subGroups, ¬ keep sub) : t'.rows x = t.rows x := by
  induction subGroups generalizing t with
  | nil =>
      cases hfold
      rfl
  | cons sub rest ihrest =>
      rw [List.foldlM_cons] at hfold
      obtain ⟨t₁, hsub, hrest⟩ := Option.bind_eq_some_iff.mp hfold
      have hpruned := (removeGroup_pruned hsub ht).1
      have hrow := ih ht hup hsub (hsubs sub (.head _))
      rw [← hrow]
      exact ihrest (hpruned.stored ht) (hup.pruned hpruned) hrest
        fun sub' hmem => hsubs sub' (.tail _ hmem)

theorem removeGroup_keeps {keep : GroupId → Prop} {fuel : Nat} {x : GroupId} (ht : t.Stored)
    (hup : t.ClosedUp keep) (hremove : removeGroup fuel t g = some t') (hg : ¬ keep g)
    (hx : keep x) : t'.rows x = t.rows x := by
  induction fuel generalizing t t' g with
  | zero => cases hremove
  | succ fuel ih =>
      rw [removeGroup] at hremove
      obtain ⟨t₁, hfold, heq⟩ := Option.bind_eq_some_iff.mp hremove
      cases heq
      have hsubs : ∀ sub ∈ t.getSubGroups g, ¬ keep sub := fun sub hsub hkeep =>
        hg (hup hkeep (ht.mem_getSubGroups.mp hsub))
      have hne : x ≠ g := fun heq => hg (heq ▸ hx)
      refine (Function.update_of_ne hne ..).trans ?_
      exact foldlM_removeGroup_keeps ih ht hup hfold hsubs

end

end Table

end Keycloak.Groups
