import Keycloak.Groups.Hierarchy
import Mathlib.Data.List.Basic

/-!
# Paths of groups

The path of a group in a forest with distinct sibling names, as `buildGroupPath` writes it, says
which group it is.  As a text, the path of a group is also a prefix of the paths below a sibling
whose name is longer.
-/

namespace Keycloak

namespace Groups

namespace Table

/-- The name as `buildGroupPath` writes it. -/
def label (t : Table) (group : GroupId) : List Char := ((t.getName group).getD "null").toList

/-- A forest of groups with distinct sibling names, which contain no slash. -/
structure Named (t : Table) : Prop extends Forest t where
  slash_free : ∀ {group}, t.Exists group → '/' ∉ t.label group
  siblings : ∀ {g g'}, t.Exists g → t.Exists g' → t.getParentId g = t.getParentId g' →
    t.label g = t.label g' → g = g'

def path (t : Table) (group : GroupId) : List Char :=
  ((t.buildGroupPath t.nextId group).getD "").toList

def parentPath (t : Table) (group : GroupId) : List Char :=
  match t.getParentId group with
  | none => []
  | some parent => t.path parent

def Above (t : Table) (group below : GroupId) : Prop :=
  Relation.TransGen (ParentWalk.IsParent t.getParentId) below group

/-- The group has a sibling whose name continues its own, and which is the other group or above
it. -/
def Extended (t : Table) (group below : GroupId) : Prop :=
  ∃ sibling, sibling ≠ group ∧ t.Exists sibling ∧
    t.getParentId sibling = t.getParentId group ∧ t.label group <+: t.label sibling ∧
    (sibling = below ∨ t.Above sibling below)

variable {t : Table}

theorem above_iff {group below : GroupId} :
    t.Above group below ↔
      ∃ parent, t.getParentId below = some parent ∧ (parent = group ∨ t.Above group parent) := by
  rw [Above, Relation.TransGen.head'_iff]
  constructor
  · intro ⟨parent, hparent, hreach⟩
    exact ⟨parent, hparent, (Relation.reflTransGen_iff_eq_or_transGen.mp hreach).imp Eq.symm id⟩
  · intro ⟨parent, hparent, hreach⟩
    exact ⟨parent, hparent, Relation.reflTransGen_iff_eq_or_transGen.mpr (hreach.imp Eq.symm id)⟩

theorem buildGroupPath_succ {fuel : Nat} {group : GroupId} {text : String}
    (h : t.buildGroupPath fuel group = some text) :
    t.buildGroupPath (fuel + 1) group = some text := by
  induction fuel generalizing group text with
  | zero => cases h
  | succ fuel ih =>
      rw [buildGroupPath] at h ⊢
      cases hparent : t.getParent group with
      | none => simpa only [hparent] using h
      | some parent =>
          simp only [hparent, Option.map_eq_some_iff] at h ⊢
          obtain ⟨above, habove, rfl⟩ := h
          exact ⟨above, ih habove, rfl⟩

theorem buildGroupPath_mono {fuel fuel' : Nat} (hle : fuel ≤ fuel') {group : GroupId}
    {text : String} (h : t.buildGroupPath fuel group = some text) :
    t.buildGroupPath fuel' group = some text := by
  induction hle with
  | refl => exact h
  | step _ ih => exact buildGroupPath_succ ih

theorem Forest.exists_path (h : t.Forest) {fuel : Nat} (hfuel : t.nextId ≤ fuel)
    {group : GroupId} (hgroup : t.Exists group) :
    ∃ text, t.buildGroupPath fuel group = some text ∧ text.toList = t.path group := by
  obtain ⟨text, htext⟩ :=
    Option.isSome_iff_exists.mp (h.buildGroupPath_isSome hgroup (Nat.le_refl _))
  refine ⟨text, buildGroupPath_mono hfuel htext, ?_⟩
  rw [path, htext]
  rfl

theorem Forest.path_eq (h : t.Forest) {group : GroupId} (hgroup : t.Exists group) :
    t.path group = t.parentPath group ++ '/' :: t.label group := by
  obtain ⟨text, htext, hpath⟩ := h.exists_path (Nat.le_succ t.nextId) hgroup
  rw [buildGroupPath, h.getParent_eq] at htext
  rw [← hpath, parentPath]
  cases hparent : t.getParentId group with
  | none =>
      simp only [hparent, Option.some.injEq] at htext
      rw [← htext, String.toList_append]
      rfl
  | some parent =>
      simp only [hparent, Option.map_eq_some_iff] at htext
      obtain ⟨above, habove, rfl⟩ := htext
      have hparentPath : t.path parent = above.toList := by
        rw [path, habove]
        rfl
      show _ = t.path parent ++ '/' :: t.label group
      rw [String.toList_append, String.toList_append, hparentPath]
      rfl

/-- Induction along the parent links. -/
theorem Forest.parent_induction (h : t.Forest) {motive : GroupId → Prop}
    (hstep : ∀ group, t.Exists group →
      (∀ parent, t.getParentId group = some parent → motive parent) → motive group)
    {group : GroupId} (hgroup : t.Exists group) : motive group := by
  have hwalk : t.Exists group → motive group :=
    h.walk (P := fun _ group => t.Exists group → motive group)
      (fun _ group ih hexists => hstep group hexists fun parent hparent =>
        ih parent hparent (h.parent_exists hparent)) hgroup (Nat.le_refl _)
  exact hwalk hgroup

theorem eq_nil_of_slash {label label' extra : List Char} (hlabel : '/' ∉ label)
    (h : '/' :: label = extra ++ '/' :: label') : extra = [] := by
  cases extra with
  | nil => rfl
  | cons c extra =>
      rw [List.cons_append] at h
      cases h
      exact absurd (List.mem_append_right extra List.mem_cons_self) hlabel

theorem append_slash_inj {above above' label label' : List Char} (hlabel : '/' ∉ label)
    (hlabel' : '/' ∉ label') (h : above ++ '/' :: label = above' ++ '/' :: label') :
    above = above' ∧ label = label' := by
  have habove : above = above' := by
    cases List.append_eq_append_iff.mp h with
    | inl hmore =>
        obtain ⟨extra, habove, htail⟩ := hmore
        rw [eq_nil_of_slash hlabel htail, List.append_nil] at habove
        exact habove.symm
    | inr hmore =>
        obtain ⟨extra, habove, htail⟩ := hmore
        rw [eq_nil_of_slash hlabel' htail, List.append_nil] at habove
        exact habove
  rw [habove, List.append_cancel_left_eq] at h
  exact ⟨habove, (List.cons.inj h).2⟩

theorem slash_prefix_iff {above above' label label' : List Char} (hlabel : '/' ∉ label)
    (hlabel' : '/' ∉ label') :
    above ++ '/' :: label <+: above' ++ '/' :: label' ↔
      above ++ '/' :: label <+: above' ∨ (above = above' ∧ label <+: label') := by
  constructor
  · intro h
    cases List.prefix_or_prefix_of_prefix h (List.prefix_append above' _) with
    | inl hbefore => exact .inl hbefore
    | inr hwithin =>
        obtain ⟨last, hlast⟩ := hwithin
        rw [← hlast, List.prefix_append_right_inj] at h
        cases last with
        | nil =>
            rw [List.append_nil] at hlast
            exact .inl (hlast ▸ List.prefix_refl _)
        | cons c last =>
            obtain ⟨rfl, hlast'⟩ := List.cons_prefix_cons.mp h
            have hfree : '/' ∉ last := fun hmem => hlabel' (hlast'.subset hmem)
            obtain ⟨habove, hlabels⟩ := append_slash_inj hfree hlabel hlast
            exact .inr ⟨habove.symm, hlabels ▸ hlast'⟩
  · intro h
    cases h with
    | inl hbefore => exact hbefore.trans (List.prefix_append _ _)
    | inr hwithin =>
        rw [hwithin.1, List.prefix_append_right_inj, List.cons_prefix_cons]
        exact ⟨rfl, hwithin.2⟩

theorem Forest.path_ne_nil (h : t.Forest) {group : GroupId} (hgroup : t.Exists group) :
    t.path group ≠ [] := by
  rw [h.path_eq hgroup]
  exact List.append_ne_nil_of_right_ne_nil _ (List.cons_ne_nil _ _)

theorem Forest.getParentId_eq (h : t.Forest) {group group' : GroupId}
    (hparents : ∀ parent, t.getParentId group = some parent → ∀ parent', t.Exists parent' →
      t.path parent = t.path parent' → parent = parent')
    (hpath : t.parentPath group = t.parentPath group') :
    t.getParentId group = t.getParentId group' := by
  rw [parentPath, parentPath] at hpath
  cases hparent : t.getParentId group with
  | none =>
      cases hparent' : t.getParentId group' with
      | none => rfl
      | some parent' =>
          rw [hparent, hparent'] at hpath
          exact absurd hpath.symm (h.path_ne_nil (h.parent_exists hparent'))
  | some parent =>
      cases hparent' : t.getParentId group' with
      | none =>
          rw [hparent, hparent'] at hpath
          exact absurd hpath (h.path_ne_nil (h.parent_exists hparent))
      | some parent' =>
          rw [hparent, hparent'] at hpath
          rw [hparents parent hparent parent' (h.parent_exists hparent') hpath]

/-- Groups with one path are one group. -/
theorem Named.path_injective (h : t.Named) {group group' : GroupId} (hgroup : t.Exists group)
    (hgroup' : t.Exists group') (hpath : t.path group = t.path group') : group = group' := by
  suffices hall : ∀ group', t.Exists group' → t.path group = t.path group' → group = group' by
    exact hall group' hgroup' hpath
  apply h.parent_induction (motive := fun group => ∀ group', t.Exists group' →
    t.path group = t.path group' → group = group') _ hgroup
  intro group hgroup ih group' hgroup' hpath
  rw [h.path_eq hgroup, h.path_eq hgroup'] at hpath
  obtain ⟨habove, hlabel⟩ :=
    append_slash_inj (h.slash_free hgroup) (h.slash_free hgroup') hpath
  exact h.siblings hgroup hgroup' (h.getParentId_eq ih habove) hlabel

theorem Named.parentPath_injective (h : t.Named) {group group' : GroupId} :
    t.parentPath group = t.parentPath group' ↔ t.getParentId group = t.getParentId group' := by
  constructor
  · exact h.getParentId_eq fun parent hparent parent' hparent' =>
      h.path_injective (h.parent_exists hparent) hparent'
  · intro hparents
    rw [parentPath, parentPath, hparents]

theorem extended_iff {group below : GroupId} (hbelow : t.Exists below) :
    t.Extended group below ↔
      (below ≠ group ∧ t.getParentId below = t.getParentId group ∧
          t.label group <+: t.label below) ∨
        ∃ parent, t.getParentId below = some parent ∧ t.Extended group parent := by
  constructor
  · intro ⟨sibling, hne, hexists, hparent, hlabel, hplace⟩
    cases hplace with
    | inl hself =>
        subst hself
        exact .inl ⟨hne, hparent, hlabel⟩
    | inr habove =>
        obtain ⟨parent, hlink, hplace⟩ := above_iff.mp habove
        exact .inr ⟨parent, hlink, sibling, hne, hexists, hparent, hlabel, hplace.imp Eq.symm id⟩
  · intro h
    cases h with
    | inl hself => exact ⟨below, hself.1, hbelow, hself.2.1, hself.2.2, .inl rfl⟩
    | inr habove =>
        obtain ⟨parent, hlink, sibling, hne, hexists, hparent, hlabel, hplace⟩ := habove
        exact ⟨sibling, hne, hexists, hparent, hlabel,
          .inr (above_iff.mpr ⟨parent, hlink, hplace.imp Eq.symm id⟩)⟩

/-- What it means that the path of a group starts with that of another one. -/
theorem Named.path_prefix_iff (h : t.Named) {group below : GroupId} (hgroup : t.Exists group)
    (hbelow : t.Exists below) :
    t.path group <+: t.path below ↔
      group = below ∨ t.Above group below ∨ t.Extended group below := by
  apply h.parent_induction (motive := fun below => t.path group <+: t.path below ↔
    group = below ∨ t.Above group below ∨ t.Extended group below) _ hbelow
  intro below hbelow ih
  have hlast : t.parentPath group = t.parentPath below ∧ t.label group <+: t.label below ↔
      group = below ∨ (below ≠ group ∧ t.getParentId below = t.getParentId group ∧
        t.label group <+: t.label below) := by
    rw [h.parentPath_injective]
    by_cases hself : group = below
    · subst hself
      exact iff_of_true ⟨rfl, List.prefix_refl _⟩ (.inl rfl)
    · rw [or_iff_right hself, and_iff_right (Ne.symm hself), eq_comm]
  rw [h.path_eq hbelow, h.path_eq hgroup,
    slash_prefix_iff (h.slash_free hgroup) (h.slash_free hbelow), ← h.path_eq hgroup, hlast,
    above_iff, extended_iff hbelow]
  cases hparent : t.getParentId below with
  | none =>
      have hnone : ¬ t.path group <+: t.parentPath below := by
        rw [parentPath, hparent, List.prefix_nil]
        exact h.path_ne_nil hgroup
      rw [or_iff_right hnone]
      simp only [reduceCtorEq, false_and, exists_false, false_or, or_false]
  | some parent =>
      have hparentPath : t.parentPath below = t.path parent := by
        rw [parentPath, hparent]
      rw [hparentPath, ih parent hparent]
      have habove : (∃ above, some parent = some above ∧ (above = group ∨ t.Above group above)) ↔
          group = parent ∨ t.Above group parent := by
        simp only [Option.some.injEq, exists_eq_left', eq_comm]
      have hextended : (∃ above, some parent = some above ∧ t.Extended group above) ↔
          t.Extended group parent := by
        simp only [Option.some.injEq, exists_eq_left']
      rw [habove, hextended]
      apply iff_of_eq
      ac_rfl

end Table

end Groups

end Keycloak
