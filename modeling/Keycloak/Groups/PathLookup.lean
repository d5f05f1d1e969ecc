import Keycloak.Groups.GroupPaths
import Keycloak.Groups.LdapPaths

/-!
# Groups found by their own paths

`findGroupByPath` reads what `buildGroupPath` writes.  Names are joined by slashes and none in a
name is escaped, so the group comes back when no name on its path has one.
-/

namespace Keycloak.Groups

namespace Table

def FoundByPath (t : Table) (group : GroupId) : Prop :=
  ∃ path, t.buildGroupPath t.nextId group = some path ∧ t.findGroupByPath path = some group

/-- A forest in which siblings have distinct names, none of them empty. -/
structure NamedForest (t : Table) : Prop extends Forest t where
  distinct : t.DistinctSiblings
  named : ∀ {group}, t.Exists group → ∃ name, t.getName group = some name ∧ name ≠ ""

section

variable {t : Table} {group a : GroupId} {names : List String} {name : String}
  {parent : Option GroupId}

theorem Reaches.snoc {last : GroupId} (h : t.Reaches parent names last)
    (hrow : t.rows group = some ⟨some name, some last⟩) :
    t.Reaches parent (names ++ [name]) group := by
  induction h with
  | last hrow' => exact .step hrow' (.last hrow)
  | step hrow' _ ih => exact .step hrow' (ih hrow)

theorem Reaches.name_mem (h : t.Reaches parent names group)
    (habove : a = group ∨ t.Above a group) :
    (∃ name ∈ names, t.getName a = some name) ∨
      ∃ p, parent = some p ∧ (a = p ∨ t.Above a p) := by
  induction h with
  | @last parent name g hrow =>
      obtain ⟨-, hname, hlink⟩ := rows_eq_iff.mp hrow
      rcases habove with rfl | habove
      · exact .inl ⟨name, List.mem_singleton_self name, hname⟩
      · obtain ⟨p, hp, hplace⟩ := above_iff.mp habove
        exact .inr ⟨p, hlink.symm.trans hp, hplace.imp Eq.symm id⟩
  | @step parent name h rest g hrow _ ih =>
      obtain ⟨-, hname, hlink⟩ := rows_eq_iff.mp hrow
      rcases ih habove with ⟨name', hmem, hname'⟩ | ⟨p, hp, hplace⟩
      · exact .inl ⟨name', List.mem_cons_of_mem _ hmem, hname'⟩
      · cases hp
        rcases hplace with rfl | habove
        · exact .inl ⟨name, List.mem_cons_self, hname⟩
        · obtain ⟨p, hp, hplace⟩ := above_iff.mp habove
          exact .inr ⟨p, hlink.symm.trans hp, hplace.imp Eq.symm id⟩

def render (names : List String) : List Char := names.flatMap fun name => '/' :: name.toList

theorem render_eq_cons (hne : names ≠ []) :
    render names = '/' :: ['/'].intercalate (names.map String.toList) := by
  induction names with
  | nil => exact absurd rfl hne
  | cons name rest ih =>
      cases rest with
      | nil => simp [render]
      | cons next rest =>
          have hrest := ih (List.cons_ne_nil next rest)
          rw [render, List.flatMap_cons, ← render, hrest]
          simp only [List.map_cons, List.intercalate_cons_cons, List.cons_append,
            List.nil_append, List.append_assoc]

/-- A path does not end in a slash when its names have none and are not empty. -/
theorem getLast?_render (hplain : ∀ name ∈ names, Plain name) (hnames : ∀ name ∈ names, name ≠ "") :
    (render names).getLast? ≠ some '/' := by
  rcases List.eq_nil_or_concat names with rfl | ⟨init, last, rfl⟩
  · exact fun h => nomatch h
  · rw [List.concat_eq_append] at hplain hnames ⊢
    have hlast : last ∈ init ++ [last] := List.mem_append_right _ List.mem_cons_self
    have hne : last.toList ≠ [] := fun hempty =>
      hnames last hlast (String.toList_eq_nil_iff.mp hempty)
    intro hslash
    rw [render, List.flatMap_append, List.flatMap_singleton, List.getLast?_append,
      List.getLast?_cons, List.getLast?_eq_some_getLast hne] at hslash
    exact hplain last hlast (Option.some.inj hslash ▸ List.getLast_mem hne)

theorem splitPath_of_render {path : String} (hpath : path.toList = render names)
    (hplain : ∀ name ∈ names, Plain name) (hnames : ∀ name ∈ names, name ≠ "")
    (hne : names ≠ []) : splitPath path = names := by
  have hmap : names.map String.toList ≠ [] := by
    rw [ne_eq, List.map_eq_nil_iff]
    exact hne
  have hpieces : ∀ piece ∈ names.map String.toList, '/' ∉ piece := by
    intro piece hpiece
    obtain ⟨name, hname, rfl⟩ := List.mem_map.mp hpiece
    exact hplain name hname
  have hlast : (names.map String.toList).getLast hmap ≠ [] := by
    rw [List.getLast_map]
    intro hempty
    exact hnames _ (List.getLast_mem hne) (String.toList_eq_nil_iff.mp hempty)
  have hend : (['/'].intercalate (names.map String.toList)).getLast? ≠ some '/' := by
    intro hslash
    have hrender := getLast?_render hplain hnames
    rw [render_eq_cons hne, List.getLast?_cons, hslash] at hrender
    exact hrender rfl
  rw [splitPath, hpath, render_eq_cons hne, List.head?_cons, if_pos rfl, List.tail_cons,
    if_neg hend, Split.split_intercalate hmap hpieces hlast, List.map_map]
  simp

/-- The path of a group is made of its own name and those above it. -/
theorem NamedForest.exists_names (h : t.NamedForest) (hgroup : t.Exists group) :
    ∃ names, names ≠ [] ∧ t.Reaches none names group ∧ t.path group = render names ∧
      ∀ name ∈ names, ∃ a, (a = group ∨ t.Above a group) ∧ t.Exists a ∧
        t.getName a = some name := by
  apply h.parent_induction (motive := fun group => ∃ names, names ≠ [] ∧
    t.Reaches none names group ∧ t.path group = render names ∧
      ∀ name ∈ names, ∃ a, (a = group ∨ t.Above a group) ∧ t.Exists a ∧
        t.getName a = some name) _ hgroup
  intro group hgroup ih
  obtain ⟨name, hname, -⟩ := h.named hgroup
  have hlabel : t.label group = name.toList := by
    rw [label, hname]
    rfl
  rw [h.path_eq hgroup, hlabel, parentPath]
  cases hparent : t.getParentId group with
  | none =>
      refine ⟨[name], List.cons_ne_nil _ _, .last (rows_eq_iff.mpr ⟨hgroup, hname, hparent⟩),
        ?_, fun name' hmem => ⟨group, .inl rfl, hgroup, ?_⟩⟩
      · simp [render]
      · rw [List.mem_singleton.mp hmem]
        exact hname
  | some parent =>
      obtain ⟨names, -, hreaches, hpath, hnames⟩ := ih parent hparent
      refine ⟨names ++ [name], List.append_ne_nil_of_right_ne_nil _ (List.cons_ne_nil _ _),
        hreaches.snoc (rows_eq_iff.mpr ⟨hgroup, hname, hparent⟩), ?_, fun name' hmem => ?_⟩
      · show t.path parent ++ '/' :: name.toList = render (names ++ [name])
        rw [hpath, render, render, List.flatMap_append, List.flatMap_singleton]
      · rcases List.mem_append.mp hmem with hmem | hmem
        · obtain ⟨a, hplace, hexists, hname'⟩ := hnames name' hmem
          refine ⟨a, .inr (above_iff.mpr ⟨parent, hparent, ?_⟩), hexists, hname'⟩
          exact hplace.imp Eq.symm id
        · rw [List.mem_singleton.mp hmem]
          exact ⟨group, .inl rfl, hgroup, hname⟩

/-- A group is found by its path exactly when its name and the names above it have no slash. -/
theorem foundByPath_iff (h : t.NamedForest) (hgroup : t.Exists group) :
    t.FoundByPath group ↔ ∀ a, a = group ∨ t.Above a group → '/' ∉ t.label a := by
  obtain ⟨path, hpath, htext⟩ := h.exists_path (Nat.le_refl t.nextId) hgroup
  have hfound : t.FoundByPath group ↔ t.Reaches none (splitPath path) group := by
    rw [FoundByPath, hpath]
    simp only [Option.some.injEq, exists_eq_left']
    exact h.findGroupByPath_eq_some fun name _ => h.distinct name
  rw [hfound]
  constructor
  · intro hreaches a hplace
    rcases hreaches.name_mem hplace with ⟨name, hmem, hname⟩ | ⟨p, hp, -⟩
    · rw [label, hname]
      exact plain_of_mem_splitPath hmem
    · cases hp
  · intro hplain
    obtain ⟨names, hne, hreaches, hrender, hnames⟩ := h.exists_names hgroup
    have hsplit : splitPath path = names := by
      refine splitPath_of_render (htext.trans hrender) (fun name hmem => ?_)
        (fun name hmem hempty => ?_) hne
      · obtain ⟨a, hplace, -, hname⟩ := hnames name hmem
        have hslash := hplain a hplace
        rw [label, hname] at hslash
        exact hslash
      · obtain ⟨a, -, hexists, hname⟩ := hnames name hmem
        obtain ⟨name', hname', hnonempty⟩ := h.named hexists
        rw [hname, Option.some.injEq] at hname'
        exact hnonempty (hname' ▸ hempty)
    rw [hsplit]
    exact hreaches

end

/-! ### Three groups -/

def threeGroups (top sub other : String) : Table where
  rows
    | 0 => some ⟨some top, none⟩
    | 1 => some ⟨some sub, some 0⟩
    | 2 => some ⟨some other, none⟩
    | _ => none
  nextId := 3

section

variable {top sub other : String}

theorem threeGroups_rows {group : GroupId} {e : GroupEntity}
    (h : (threeGroups top sub other).rows group = some e) :
    group = 0 ∧ e = ⟨some top, none⟩ ∨ group = 1 ∧ e = ⟨some sub, some 0⟩ ∨
      group = 2 ∧ e = ⟨some other, none⟩ := by
  rw [threeGroups] at h
  dsimp only at h
  split at h
  · exact .inl ⟨rfl, (Option.some.inj h).symm⟩
  · exact .inr (.inl ⟨rfl, (Option.some.inj h).symm⟩)
  · exact .inr (.inr ⟨rfl, (Option.some.inj h).symm⟩)
  · cases h

theorem threeGroups_forest : (threeGroups top sub other).Forest := by
  have hlink : ∀ {group parent}, (threeGroups top sub other).getParentId group = some parent →
      parent = 0 ∧ group = 1 := by
    intro group parent h
    obtain ⟨e, hrow, he⟩ := Option.bind_eq_some_iff.mp h
    rcases threeGroups_rows hrow with ⟨rfl, rfl⟩ | ⟨rfl, rfl⟩ | ⟨rfl, rfl⟩
    · cases he
    · exact ⟨(Option.some.inj he).symm, rfl⟩
    · cases he
  refine ⟨⟨fun h => (hlink h).1 ▸ rfl, fun {group} h => ?_⟩,
    ParentWalk.acyclic_of_lt fun a p h => ?_⟩
  · obtain ⟨e, hrow⟩ := Option.isSome_iff_exists.mp h
    rcases threeGroups_rows hrow with ⟨rfl, -⟩ | ⟨rfl, -⟩ | ⟨rfl, -⟩ <;> simp [threeGroups]
  · obtain ⟨rfl, rfl⟩ := hlink h
    exact Nat.zero_lt_one

theorem threeGroups_distinct (hne : top ≠ other) :
    (threeGroups top sub other).DistinctSiblings := by
  intro name g h parent hg hh
  rcases threeGroups_rows hg with ⟨rfl, he⟩ | ⟨rfl, he⟩ | ⟨rfl, he⟩ <;>
    rcases threeGroups_rows hh with ⟨rfl, he'⟩ | ⟨rfl, he'⟩ | ⟨rfl, he'⟩ <;> simp_all

theorem threeGroups_getName {group : GroupId} (h : (threeGroups top sub other).Exists group) :
    ∃ name ∈ [top, sub, other], (threeGroups top sub other).getName group = some name := by
  obtain ⟨e, hrow⟩ := Option.isSome_iff_exists.mp h
  rcases threeGroups_rows hrow with ⟨rfl, -⟩ | ⟨rfl, -⟩ | ⟨rfl, -⟩
  · exact ⟨top, by simp, rfl⟩
  · exact ⟨sub, by simp, rfl⟩
  · exact ⟨other, by simp, rfl⟩

end

/-! ### A group with a slash in its name -/

def slashGroups : Table := threeGroups "x" "y" "x/y"

theorem slashGroups_named : slashGroups.NamedForest where
  toForest := threeGroups_forest
  distinct := threeGroups_distinct (by decide)
  named hexists := by
    obtain ⟨name, hmem, hname⟩ := threeGroups_getName hexists
    refine ⟨name, hname, ?_⟩
    rintro rfl
    exact absurd hmem (by decide)

/-- The group `y` is found by its path. -/
theorem subgroup_found : slashGroups.FoundByPath 1 := by
  have hexists : slashGroups.Exists 1 := by decide
  refine (foundByPath_iff slashGroups_named hexists).mpr fun a hplace => ?_
  rcases hplace with rfl | habove
  · decide
  · obtain ⟨parent, hparent, hrest⟩ := above_iff.mp habove
    cases hparent
    rcases hrest with rfl | habove
    · decide
    · obtain ⟨parent, hparent, -⟩ := above_iff.mp habove
      cases hparent

/-- The path of the group `x/y` leads to the group `y`. -/
theorem slash_leads_elsewhere :
    slashGroups.NamedForest ∧ slashGroups.Exists 2 ∧
      slashGroups.buildGroupPath 3 2 = some "/x/y" ∧
        slashGroups.findGroupByPath "/x/y" = some 1 ∧ ¬ slashGroups.FoundByPath 2 := by
  have hpath : slashGroups.buildGroupPath 3 2 = some "/x/y" := by decide
  have hfind : slashGroups.findGroupByPath "/x/y" = some 1 := by decide
  refine ⟨slashGroups_named, rfl, hpath, hfind, ?_⟩
  rintro ⟨path, hbuilt, hfound⟩
  cases hpath.symm.trans hbuilt
  cases hfind.symm.trans hfound

end Table

end Keycloak.Groups
