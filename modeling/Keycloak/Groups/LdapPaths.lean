import Keycloak.Groups.LdapRows

/-!
# Paths of groups

`findGroupByPath` follows the pieces of a path from the top level.  The pieces hold no
slash, so what it finds never has one in its name.
-/

namespace Keycloak.Groups

namespace Table

def Plain (name : String) : Prop :=
  '/' ∉ name.toList

instance (name : String) : Decidable (Plain name) :=
  inferInstanceAs (Decidable (_ ∉ _))

theorem plain_of_mem_splitPath {path piece : String} (h : piece ∈ splitPath path) :
    Plain piece := by
  obtain ⟨text, htext, rfl⟩ := List.mem_map.mp h
  rw [Plain, String.toList_ofList]
  exact Split.not_mem_of_mem_split htext

theorem splitPath_of_plain {name : String} (h : Plain name) : splitPath ("/" ++ name) = [name] := by
  have htext : ("/" ++ name).toList = '/' :: name.toList := by
    rw [String.toList_append]
    rfl
  have hlast : name.toList.getLast? ≠ some '/' := fun heq => h (List.mem_of_getLast? heq)
  rw [splitPath, htext, List.head?_cons, if_pos rfl, List.tail_cons, if_neg hlast,
    Split.split_of_not_mem h, List.map_singleton, String.ofList_toList]

inductive Reaches (t : Table) : Option GroupId → List String → GroupId → Prop
  | last {parent name g} : t.rows g = some ⟨some name, parent⟩ → Reaches t parent [name] g
  | step {parent name h rest g} : t.rows h = some ⟨some name, parent⟩ →
      Reaches t (some h) rest g → Reaches t parent (name :: rest) g

section

variable {t t' : Table} {g h : GroupId} {parent : Option GroupId} {names : List String}

theorem Reaches.ne_nil (hreaches : t.Reaches parent names g) : names ≠ [] := by
  cases hreaches with
  | last _ => exact List.cons_ne_nil _ _
  | step _ _ => exact List.cons_ne_nil _ _

theorem Reaches.exists_row (hreaches : t.Reaches parent names g) :
    ∃ name ∈ names, ∃ parent, t.rows g = some ⟨some name, parent⟩ := by
  induction hreaches with
  | last hrow => exact ⟨_, List.mem_singleton_self _, _, hrow⟩
  | step _ _ ih =>
      obtain ⟨name, hmem, hrow⟩ := ih
      exact ⟨name, List.mem_cons_of_mem _ hmem, hrow⟩

theorem Reaches.mono (hreaches : t.Reaches parent names g)
    (hrows : ∀ x name parent, name ∈ names → t.rows x = some ⟨some name, parent⟩ →
      t'.rows x = some ⟨some name, parent⟩) : t'.Reaches parent names g := by
  induction hreaches with
  | last hrow => exact .last (hrows _ _ _ (List.mem_singleton_self _) hrow)
  | step hrow _ ih =>
      refine .step (hrows _ _ _ List.mem_cons_self hrow) (ih fun x name parent hmem => ?_)
      exact hrows x name parent (List.mem_cons_of_mem _ hmem)

theorem Reaches.of_kept (hreaches : t'.Reaches parent names g) (ht : t.Stored)
    (hrows : ∀ x, t.Exists x → t'.rows x = t.rows x) (hg : t.Exists g) :
    t.Reaches parent names g ∧ ∀ p, parent = some p → t.Exists p := by
  have hback : ∀ {x name parent}, t.Exists x → t'.rows x = some ⟨some name, parent⟩ →
      t.rows x = some ⟨some name, parent⟩ ∧ ∀ p, parent = some p → t.Exists p := by
    intro x name parent hx hrow
    rw [hrows x hx] at hrow
    exact ⟨hrow, fun p hp => ht.parent_exists (hp ▸ (rows_eq_iff.mp hrow).2.2)⟩
  induction hreaches with
  | last hrow =>
      obtain ⟨hrow, hparent⟩ := hback hg hrow
      exact ⟨.last hrow, hparent⟩
  | step hrow _ ih =>
      obtain ⟨hrest, hexists⟩ := ih hg
      obtain ⟨hrow, hparent⟩ := hback (hexists _ rfl) hrow
      exact ⟨.step hrow hrest, hparent⟩

theorem Reaches.eq (hdistinct : ∀ name ∈ names, t.DistinctNamed name)
    (hreaches : t.Reaches parent names g) (hreaches' : t.Reaches parent names h) : g = h := by
  induction hreaches with
  | last hrow =>
      cases hreaches' with
      | last hrow' => exact hdistinct _ (List.mem_singleton_self _) hrow hrow'
      | step _ hnil => exact absurd rfl hnil.ne_nil
  | step hrow hrest ih =>
      cases hreaches' with
      | last _ => exact absurd rfl hrest.ne_nil
      | step hrow' hrest' =>
          cases hdistinct _ List.mem_cons_self hrow hrow'
          exact ih (fun name hmem => hdistinct name (List.mem_cons_of_mem _ hmem)) hrest'

theorem Stored.reaches_of_findSubGroup (ht : t.Stored) {parent : GroupId}
    (hfind : t.findSubGroup names parent = some g) : t.Reaches (some parent) names g := by
  induction names generalizing parent with
  | nil => cases hfind
  | cons name rest ih =>
      rw [findSubGroup] at hfind
      obtain ⟨sub, hsub, hfound⟩ := List.exists_of_findSome?_eq_some hfind
      split at hfound
      · rename_i hname
        have hlink := ht.mem_getSubGroups.mp hsub
        have hrow := rows_eq_iff.mpr ⟨exists_of_getParentId hlink, hname, hlink⟩
        split at hfound
        · rename_i hrest
          cases hfound
          exact hrest ▸ .last hrow
        · exact .step hrow (ih hfound)
      · cases hfound

theorem Stored.findSubGroup_isSome (ht : t.Stored) {parent : GroupId}
    (hreaches : t.Reaches (some parent) names g) : (t.findSubGroup names parent).isSome := by
  induction names generalizing parent with
  | nil => exact absurd rfl hreaches.ne_nil
  | cons name rest ih =>
      rw [findSubGroup, List.findSome?_isSome_iff]
      cases hreaches with
      | last hrow =>
          obtain ⟨-, hname, hlink⟩ := rows_eq_iff.mp hrow
          refine ⟨g, ht.mem_getSubGroups.mpr hlink, ?_⟩
          rw [if_pos hname, if_pos rfl]
          rfl
      | step hrow hrest =>
          obtain ⟨-, hname, hlink⟩ := rows_eq_iff.mp hrow
          refine ⟨_, ht.mem_getSubGroups.mpr hlink, ?_⟩
          rw [if_pos hname, if_neg hrest.ne_nil]
          exact ih hrest

theorem Stored.reaches_of_findGroupByPath (ht : t.Stored) {path : String}
    (hfind : t.findGroupByPath path = some g) : t.Reaches none (splitPath path) g := by
  unfold findGroupByPath at hfind
  split at hfind
  · cases hfind
  · rename_i name rest hsplit
    rw [hsplit]
    obtain ⟨top, htop, hfound⟩ := List.exists_of_findSome?_eq_some hfind
    split at hfound
    · rename_i hname
      obtain ⟨hexists, hlink⟩ := ht.mem_getTopLevelGroups.mp htop
      have hrow := rows_eq_iff.mpr ⟨hexists, hname, hlink⟩
      split at hfound
      · rename_i hrest
        cases hfound
        exact hrest ▸ .last hrow
      · exact .step hrow (ht.reaches_of_findSubGroup hfound)
    · cases hfound

theorem Stored.findGroupByPath_isSome (ht : t.Stored) {path : String}
    (hreaches : t.Reaches none (splitPath path) g) : (t.findGroupByPath path).isSome := by
  unfold findGroupByPath
  split
  · rename_i hsplit
    exact absurd hsplit hreaches.ne_nil
  · rename_i name rest hsplit
    rw [hsplit] at hreaches
    rw [List.findSome?_isSome_iff]
    cases hreaches with
    | last hrow =>
        obtain ⟨hexists, hname, hlink⟩ := rows_eq_iff.mp hrow
        refine ⟨g, ht.mem_getTopLevelGroups.mpr ⟨hexists, hlink⟩, ?_⟩
        rw [if_pos hname, if_pos rfl]
        rfl
    | step hrow hrest =>
        obtain ⟨hexists, hname, hlink⟩ := rows_eq_iff.mp hrow
        refine ⟨_, ht.mem_getTopLevelGroups.mpr ⟨hexists, hlink⟩, ?_⟩
        rw [if_pos hname, if_neg hrest.ne_nil]
        exact ht.findSubGroup_isSome hrest

theorem Stored.findGroupByPath_eq_some (ht : t.Stored)
    (hdistinct : ∀ name, Plain name → t.DistinctNamed name) {path : String} :
    t.findGroupByPath path = some g ↔ t.Reaches none (splitPath path) g := by
  refine ⟨ht.reaches_of_findGroupByPath, fun hreaches => ?_⟩
  obtain ⟨h, hfind⟩ := Option.isSome_iff_exists.mp (ht.findGroupByPath_isSome hreaches)
  have hreaches' := ht.reaches_of_findGroupByPath hfind
  rw [hfind, Reaches.eq (fun name hmem => hdistinct name (plain_of_mem_splitPath hmem)) hreaches
    hreaches']

theorem reaches_of_plain {name : String} (hplain : Plain name) :
    t.Reaches none (splitPath ("/" ++ name)) g ↔ t.rows g = some ⟨some name, none⟩ := by
  rw [splitPath_of_plain hplain]
  constructor
  · intro hreaches
    cases hreaches with
    | last hrow => exact hrow
    | step _ hnil => exact absurd rfl hnil.ne_nil
  · exact .last

theorem Stored.plain_of_findGroupByPath (ht : t.Stored) {path : String}
    (hfind : t.findGroupByPath path = some g) :
    ∃ name, Plain name ∧ ∃ parent, t.rows g = some ⟨some name, parent⟩ := by
  obtain ⟨name, hmem, hrow⟩ := (ht.reaches_of_findGroupByPath hfind).exists_row
  exact ⟨name, plain_of_mem_splitPath hmem, hrow⟩

end

end Table

end Keycloak.Groups
