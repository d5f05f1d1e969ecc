import Mathlib.Data.List.Nodup
import Mathlib.Data.List.Perm.Subperm
import Mathlib.Logic.Relation
import Mathlib.Order.WellFounded
import Mathlib.Data.Fintype.EquivFin
import Mathlib.Data.Set.Finite.Basic

/-!
# Directed graphs with finitely many inner nodes

Without cycles the edges are well-founded, so a recursion along them ends.

The second half is about a depth-first visit that fails when it meets a node twice, with
one list of visited nodes for all branches.  It fails exactly if two paths from its start
meet: the start is a successor of a node that is reached, or two of these nodes have a
successor in common.
-/

namespace Digraph

open Relation

variable {α : Type*}

theorem wellFounded_of_acyclic {R : α → α → Prop} {nodes : Set α} (hfinite : nodes.Finite)
    (hnodes : ∀ a b, R a b → a ∈ nodes) (hacyclic : ∀ a, ¬ TransGen R a a) :
    WellFounded fun b a => R a b := by
  have : Finite nodes := hfinite
  have htrans : IsTrans nodes fun b a => TransGen R a.1 b.1 := ⟨fun _ _ _ hba hcb => hcb.trans hba⟩
  have hirrefl : Std.Irrefl fun (b a : nodes) => TransGen R a.1 b.1 := ⟨fun a => hacyclic a.1⟩
  have hwf : WellFounded fun (b a : nodes) => TransGen R a.1 b.1 :=
    Finite.wellFounded_of_trans_of_irrefl _
  have hinner : ∀ a : nodes, Acc (fun b a => R a b) a.1 := by
    intro a
    induction a using hwf.induction with
    | _ a ih =>
        refine ⟨_, fun b hab => ?_⟩
        by_cases hb : b ∈ nodes
        · exact ih ⟨b, hb⟩ (.single hab)
        · exact ⟨_, fun c hbc => absurd (hnodes b c hbc) hb⟩
  refine ⟨fun a => ⟨_, fun b hab => ?_⟩⟩
  exact (hinner ⟨a, hnodes a b hab⟩).inv hab

/-! ## A visit that meets no node twice -/

inductive Visit (α : Type*) where
  | done (seen : List α)
  | repeated (a : α)
  | outOfFuel
  deriving DecidableEq, Repr

def visitAll (visit : α → List α → Visit α) : List α → List α → Visit α
  | [], seen => .done seen
  | a :: rest, seen =>
      match visit a seen with
      | .done seen' => visitAll visit rest seen'
      | .repeated b => .repeated b
      | .outOfFuel => .outOfFuel

section

variable (skip : α → Bool) (next : α → List α)

/-- Nodes to be skipped are not entered; every other node is noted before its successors. -/
def visitOnce [DecidableEq α] : Nat → α → List α → Visit α
  | 0, _, _ => .outOfFuel
  | fuel + 1, a, seen =>
      if skip a then .done seen
      else if a ∈ seen then .repeated a
      else visitAll (visitOnce fuel) (next a) (seen ++ [a])

def Edge (a b : α) : Prop := b ∈ next a ∧ skip b = false

structure Forest (roots new : List α) : Prop where
  nodup : new.Nodup
  entered : ∀ a ∈ roots, skip a = false → a ∈ new
  closed : ∀ a ∈ new, ∀ b, Edge skip next a b → b ∈ new
  unique : ∀ a ∈ new, ∀ a' ∈ new, ∀ b, Edge skip next a b → Edge skip next a' b → a = a'
  rootless : ∀ a ∈ new, ∀ b ∈ roots, ¬ Edge skip next a b
  reached : ∀ b ∈ new, ∃ a ∈ roots, skip a = false ∧ ReflTransGen (Edge skip next) a b

def PathsMeet (start b : α) : Prop :=
  b = start ∧ (∃ a, ReflTransGen (Edge skip next) start a ∧ Edge skip next a b) ∨
    ∃ a a', a ≠ a' ∧ ReflTransGen (Edge skip next) start a ∧
      ReflTransGen (Edge skip next) start a' ∧ Edge skip next a b ∧ Edge skip next a' b

def Adds (roots seen seen' : List α) : Prop :=
  ∃ new, seen' = seen ++ new ∧ Forest skip next roots new ∧ ∀ b ∈ new, b ∉ seen

end

variable {skip : α → Bool} {next : α → List α}

theorem Forest.nil : Forest skip next [] [] where
  nodup := List.nodup_nil
  entered a h := by simp at h
  closed a h := by simp at h
  unique a h := by simp at h
  rootless a h := by simp at h
  reached a h := by simp at h

theorem Forest.skipped {a : α} (h : skip a = true) : Forest skip next [a] [] where
  nodup := List.nodup_nil
  entered b hb hskip := by simp [List.mem_singleton.mp hb, h] at hskip
  closed b h := by simp at h
  unique b h := by simp at h
  rootless b h := by simp at h
  reached b h := by simp at h

theorem Forest.cons {a : α} {rest new new' : List α} (h : Forest skip next [a] new)
    (h' : Forest skip next rest new') (hdisjoint : ∀ b ∈ new', b ∉ new) :
    Forest skip next (a :: rest) (new ++ new') where
  nodup := by
    refine List.nodup_append.mpr ⟨h.nodup, h'.nodup, ?_⟩
    rintro b hb _ hb' rfl
    exact hdisjoint b hb' hb
  entered b hb hskip := by
    rcases List.mem_cons.mp hb with rfl | hrest
    · exact List.mem_append_left _ (h.entered b List.mem_cons_self hskip)
    · exact List.mem_append_right _ (h'.entered b hrest hskip)
  closed b hb c hbc := by
    rcases List.mem_append.mp hb with hnew | hnew
    · exact List.mem_append_left _ (h.closed b hnew c hbc)
    · exact List.mem_append_right _ (h'.closed b hnew c hbc)
  unique b hb b' hb' c hbc hbc' := by
    rcases List.mem_append.mp hb with hnew | hnew <;>
      rcases List.mem_append.mp hb' with hnew' | hnew'
    · exact h.unique b hnew b' hnew' c hbc hbc'
    · exact absurd (h.closed b hnew c hbc) (hdisjoint c (h'.closed b' hnew' c hbc'))
    · exact absurd (h.closed b' hnew' c hbc') (hdisjoint c (h'.closed b hnew c hbc))
    · exact h'.unique b hnew b' hnew' c hbc hbc'
  rootless b hb c hc hbc := by
    rcases List.mem_append.mp hb with hnew | hnew <;> rcases List.mem_cons.mp hc with rfl | hrest
    · exact h.rootless b hnew c List.mem_cons_self hbc
    · exact hdisjoint c (h'.entered c hrest hbc.2) (h.closed b hnew c hbc)
    · exact hdisjoint c (h'.closed b hnew c hbc) (h.entered c List.mem_cons_self hbc.2)
    · exact h'.rootless b hnew c hrest hbc
  reached b hb := by
    rcases List.mem_append.mp hb with hnew | hnew
    · obtain ⟨root, hroot, hreach⟩ := h.reached b hnew
      rw [List.mem_singleton.mp hroot] at hreach
      exact ⟨a, List.mem_cons_self, hreach⟩
    · obtain ⟨root, hroot, hreach⟩ := h'.reached b hnew
      exact ⟨root, List.mem_cons_of_mem _ hroot, hreach⟩

theorem Forest.node {a : α} {new : List α} (hskip : skip a = false)
    (h : Forest skip next (next a) new) (hnot : a ∉ new) : Forest skip next [a] (a :: new) where
  nodup := List.nodup_cons.mpr ⟨hnot, h.nodup⟩
  entered b hb _ := by simp [List.mem_singleton.mp hb]
  closed b hb c hbc := by
    rcases List.mem_cons.mp hb with rfl | hnew
    · exact List.mem_cons_of_mem _ (h.entered c hbc.1 hbc.2)
    · exact List.mem_cons_of_mem _ (h.closed b hnew c hbc)
  unique b hb b' hb' c hbc hbc' := by
    rcases List.mem_cons.mp hb with rfl | hnew <;> rcases List.mem_cons.mp hb' with rfl | hnew'
    · rfl
    · exact absurd hbc' (h.rootless b' hnew' c hbc.1)
    · exact absurd hbc (h.rootless b hnew c hbc'.1)
    · exact h.unique b hnew b' hnew' c hbc hbc'
  rootless b hb c hc hbc := by
    rw [List.mem_singleton.mp hc] at hbc
    rcases List.mem_cons.mp hb with rfl | hnew
    · exact hnot (h.entered b hbc.1 hbc.2)
    · exact hnot (h.closed b hnew a hbc)
  reached b hb := by
    rcases List.mem_cons.mp hb with rfl | hnew
    · exact ⟨b, List.mem_cons_self, hskip, .refl⟩
    · obtain ⟨root, hroot, hrootSkip, hreach⟩ := h.reached b hnew
      exact ⟨a, List.mem_cons_self, hskip, .head ⟨hroot, hrootSkip⟩ hreach⟩

theorem Forest.kept {roots new : List α} (h : Forest skip next roots new) {b : α} (hb : b ∈ new) :
    skip b = false := by
  obtain ⟨a, _, hskip, hreach⟩ := h.reached b hb
  cases hreach with
  | refl => exact hskip
  | tail _ hedge => exact hedge.2

theorem Forest.entry {roots new : List α} (h : Forest skip next roots new) {b : α}
    (hb : b ∈ new) : b ∈ roots ∨ ∃ a ∈ new, Edge skip next a b := by
  obtain ⟨root, hroot, hskip, hreach⟩ := h.reached b hb
  have hall : ∀ c, ReflTransGen (Edge skip next) root c → c ∈ new := by
    intro c hc
    induction hc with
    | refl => exact h.entered root hroot hskip
    | tail _ hedge ih => exact h.closed _ ih _ hedge
  cases hreach with
  | refl => exact .inl hroot
  | tail hreach hedge => exact .inr ⟨_, hall _ hreach, hedge⟩

/-- No path of the forest ends where it starts. -/
theorem Forest.acyclic {roots new : List α} (h : Forest skip next roots new) {b : α}
    (hb : b ∈ new) : ¬ TransGen (Edge skip next) b b := by
  obtain ⟨root, hroot, hskip, hreach⟩ := h.reached b hb
  have hclosed : ∀ {c d}, c ∈ new → ReflTransGen (Edge skip next) c d → d ∈ new := by
    intro c d hc hpath
    induction hpath with
    | refl => exact hc
    | tail _ hedge ih => exact h.closed _ ih _ hedge
  have hrootNew := h.entered root hroot hskip
  clear hb
  induction hreach with
  | refl =>
      intro hcycle
      obtain ⟨d, hd, hedge⟩ := TransGen.tail'_iff.mp hcycle
      exact h.rootless d (hclosed hrootNew hd) root hroot hedge
  | @tail c b hc hedge ih =>
      intro hcycle
      obtain ⟨d, hd, hedge'⟩ := TransGen.tail'_iff.mp hcycle
      have hcNew := hclosed hrootNew hc
      have hdNew := hclosed (h.closed c hcNew b hedge) hd
      cases h.unique d hdNew c hcNew b hedge' hedge
      exact ih (TransGen.head' hedge hd)

theorem visitAll_adds {visit : α → List α → Visit α}
    (hvisit : ∀ a seen seen', visit a seen = .done seen' → Adds skip next [a] seen seen')
    {as seen seen' : List α} (h : visitAll visit as seen = .done seen') :
    Adds skip next as seen seen' := by
  induction as generalizing seen with
  | nil =>
      cases h
      exact ⟨[], by simp, .nil, by simp⟩
  | cons a rest ih =>
      unfold visitAll at h
      split at h
      · rename_i middle hfirst
        obtain ⟨new, rfl, hforest, hfresh⟩ := hvisit a seen middle hfirst
        obtain ⟨new', rfl, hforest', hfresh'⟩ := ih h
        refine ⟨new ++ new', by simp, hforest.cons hforest' ?_, ?_⟩
        · exact fun b hb hmem => hfresh' b hb (List.mem_append_right _ hmem)
        · intro b hb
          rcases List.mem_append.mp hb with hnew | hnew
          · exact hfresh b hnew
          · exact fun hmem => hfresh' b hnew (List.mem_append_left _ hmem)
      · cases h
      · cases h

theorem visitOnce_adds [DecidableEq α] {fuel : Nat} {a : α} {seen seen' : List α}
    (h : visitOnce skip next fuel a seen = .done seen') : Adds skip next [a] seen seen' := by
  induction fuel generalizing a seen seen' with
  | zero => cases h
  | succ fuel ih =>
      unfold visitOnce at h
      split_ifs at h with hskip hseen
      · cases h
        exact ⟨[], by simp, .skipped hskip, by simp⟩
      · obtain ⟨new, rfl, hforest, hfresh⟩ := visitAll_adds (fun _ _ _ => ih) h
        have hnot : a ∉ new := fun hmem => hfresh a hmem (by simp)
        refine ⟨a :: new, by simp, .node (by simpa using hskip) hforest hnot, ?_⟩
        intro b hb
        rcases List.mem_cons.mp hb with rfl | hnew
        · exact hseen
        · exact fun hmem => hfresh b hnew (List.mem_append_left _ hmem)

/-! ## Enough fuel -/

structure Within (nodes : List α) (least : Nat) (seen : List α) : Prop where
  nodup : seen.Nodup
  subset : seen ⊆ nodes
  least_le : least ≤ seen.length

theorem Within.adds {nodes roots seen seen' : List α} {least : Nat}
    (hnodes : ∀ a, skip a = false → a ∈ nodes) (h : Within nodes least seen)
    (hadds : Adds skip next roots seen seen') : Within nodes least seen' := by
  obtain ⟨new, rfl, hforest, hfresh⟩ := hadds
  refine ⟨List.nodup_append.mpr ⟨h.nodup, hforest.nodup, ?_⟩, ?_, ?_⟩
  · rintro b hb _ hb' rfl
    exact hfresh b hb' hb
  · exact List.append_subset.mpr ⟨h.subset, fun b hb => hnodes b (hforest.kept hb)⟩
  · rw [List.length_append]
    exact Nat.le_add_right_of_le h.least_le

theorem visitAll_ne_outOfFuel [DecidableEq α] {nodes : List α} {least fuel : Nat}
    (hnodes : ∀ a, skip a = false → a ∈ nodes)
    (hvisit : ∀ a seen, Within nodes least seen → visitOnce skip next fuel a seen ≠ .outOfFuel)
    {as seen : List α} (h : Within nodes least seen) :
    visitAll (visitOnce skip next fuel) as seen ≠ .outOfFuel := by
  induction as generalizing seen with
  | nil => simp [visitAll]
  | cons a rest ih =>
      unfold visitAll
      split
      · rename_i middle hfirst
        exact ih (h.adds hnodes (visitOnce_adds hfirst))
      · simp
      · rename_i hfirst
        exact absurd hfirst (hvisit a seen h)

/-- Every recursion notes a further node, so there are at most as many as nodes. -/
theorem visitOnce_ne_outOfFuel [DecidableEq α] {nodes : List α}
    (hnodes : ∀ a, skip a = false → a ∈ nodes)
    {fuel least : Nat} (hfuel : nodes.length < fuel + least) (a : α) {seen : List α}
    (h : Within nodes least seen) : visitOnce skip next fuel a seen ≠ .outOfFuel := by
  induction fuel generalizing a seen least with
  | zero =>
      have hle := (h.nodup.subperm h.subset).length_le
      have hleast := h.least_le
      omega
  | succ fuel ih =>
      unfold visitOnce
      split_ifs with hskip hseen
      · simp
      · simp
      · have hnodup : (seen ++ [a]).Nodup :=
          List.nodup_append.mpr ⟨h.nodup, List.nodup_singleton a, by
            rintro b hb c hc rfl
            exact hseen (List.mem_singleton.mp hc ▸ hb)⟩
        have hsubset : seen ++ [a] ⊆ nodes :=
          List.append_subset.mpr ⟨h.subset, by simpa using hnodes a (by simpa using hskip)⟩
        have hleast := h.least_le
        have hwithin : Within nodes (least + 1) (seen ++ [a]) :=
          ⟨hnodup, hsubset, by rw [List.length_append, List.length_singleton]; omega⟩
        exact visitAll_ne_outOfFuel hnodes (fun b _ => ih (by omega) b) hwithin

/-! ## Where no node has two entries -/

def EnteredFrom (skip : α → Bool) (next : α → List α) (seen : List α) (a : α) : Prop :=
  ∀ b, Edge skip next b a → b ∈ seen

def Upward (skip : α → Bool) (next : α → List α) (seen : List α) : Prop :=
  ∀ a ∈ seen, EnteredFrom skip next seen a

section

variable {seen seen' roots : List α}
  (hunique : ∀ a a' b, Edge skip next a b → Edge skip next a' b → a = a')

include hunique

theorem Adds.upward (h : Adds skip next roots seen seen') (hseen : Upward skip next seen)
    (hroots : ∀ a ∈ roots, skip a = false → EnteredFrom skip next seen a) :
    Upward skip next seen' := by
  obtain ⟨new, rfl, hforest, -⟩ := h
  intro a ha b hedge
  rcases List.mem_append.mp ha with hold | hnew
  · exact List.mem_append_left _ (hseen a hold b hedge)
  · rcases hforest.entry hnew with hroot | ⟨c, hc, hedge'⟩
    · exact List.mem_append_left _ (hroots a hroot hedge.2 b hedge)
    · exact List.mem_append_right _ (hunique c b a hedge' hedge ▸ hc)

theorem visitAll_ne_repeated [DecidableEq α] {fuel : Nat}
    (hvisit : ∀ a seen, Upward skip next seen →
      (skip a = false → a ∉ seen ∧ EnteredFrom skip next seen a) →
        ∀ c, visitOnce skip next fuel a seen ≠ .repeated c)
    {as : List α} (hnodup : as.Nodup) (hseen : Upward skip next seen)
    (has : ∀ a ∈ as, skip a = false → a ∉ seen ∧ EnteredFrom skip next seen a) (c : α) :
    visitAll (visitOnce skip next fuel) as seen ≠ .repeated c := by
  induction as generalizing seen with
  | nil => exact fun h => nomatch h
  | cons a rest ih =>
      obtain ⟨hrest, hnodup⟩ := List.nodup_cons.mp hnodup
      have ha := has a List.mem_cons_self
      unfold visitAll
      split
      · rename_i middle hfirst
        have hadds := visitOnce_adds hfirst
        have hroots : ∀ b ∈ [a], skip b = false → EnteredFrom skip next seen b := by
          intro b hb hskip
          rw [List.mem_singleton.mp hb] at hskip ⊢
          exact (ha hskip).2
        refine ih hnodup (hadds.upward hunique hseen hroots) fun b hb hskip => ?_
        obtain ⟨hfresh, hentered⟩ := has b (List.mem_cons_of_mem a hb) hskip
        obtain ⟨new, rfl, hforest, hnew⟩ := hadds
        refine ⟨fun hmem => ?_, fun d hedge => List.mem_append_left _ (hentered d hedge)⟩
        rcases List.mem_append.mp hmem with hold | hin
        · exact hfresh hold
        · -- a sibling is not entered below the node in front of it
          rcases hforest.entry hin with hroot | ⟨d, hd, hedge⟩
          · exact hrest (List.mem_singleton.mp hroot ▸ hb)
          · exact hnew d hd (hentered d hedge)
      · rename_i repeated hfirst
        exact absurd hfirst (hvisit a seen hseen ha repeated)
      · exact fun h => nomatch h

/-- A visit meets no node twice when every node is entered along one edge only. -/
theorem visitOnce_ne_repeated [DecidableEq α] (hnext : ∀ a, (next a).Nodup) {fuel : Nat} (a : α)
    (seen : List α) (hseen : Upward skip next seen)
    (ha : skip a = false → a ∉ seen ∧ EnteredFrom skip next seen a) (c : α) :
    visitOnce skip next fuel a seen ≠ .repeated c := by
  induction fuel generalizing a seen c with
  | zero => exact fun h => nomatch h
  | succ fuel ih =>
      unfold visitOnce
      split_ifs with hskip hmem
      · exact fun h => nomatch h
      · exact absurd hmem (ha (by simpa using hskip)).1
      · obtain ⟨hfresh, hentered⟩ := ha (by simpa using hskip)
        have hupward : Upward skip next (seen ++ [a]) := by
          intro b hb d hedge
          rcases List.mem_append.mp hb with hold | hself
          · exact List.mem_append_left _ (hseen b hold d hedge)
          · rw [List.mem_singleton.mp hself] at hedge
            exact List.mem_append_left _ (hentered d hedge)
        refine visitAll_ne_repeated hunique ih (hnext a) hupward (fun b hb hskipb => ?_) c
        have hedge : Edge skip next a b := ⟨hb, hskipb⟩
        refine ⟨fun hin => ?_, fun d hedge' => ?_⟩
        · rcases List.mem_append.mp hin with hold | hself
          · exact hfresh (hseen b hold a hedge)
          · rw [List.mem_singleton.mp hself] at hedge
            exact hfresh (hentered a hedge)
        · exact hunique a d b hedge hedge' ▸ List.mem_append_right _ List.mem_cons_self

end

/-! ## Where it fails -/

structure Explored (skip : α → Bool) (next : α → List α) (start : α) (seen : List α) : Prop where
  reached : ∀ b ∈ seen, ReflTransGen (Edge skip next) start b
  entered : ∀ b ∈ seen, b = start ∨ ∃ a ∈ seen, Edge skip next a b

theorem Explored.snoc {start a : α} {seen : List α} (h : Explored skip next start seen)
    (ha : a = start ∨ ∃ b ∈ seen, Edge skip next b a) :
    Explored skip next start (seen ++ [a]) where
  reached b hb := by
    rcases List.mem_append.mp hb with hold | hnew
    · exact h.reached b hold
    · rw [List.mem_singleton.mp hnew]
      rcases ha with rfl | ⟨c, hc, hedge⟩
      · exact .refl
      · exact (h.reached c hc).tail hedge
  entered b hb := by
    rcases List.mem_append.mp hb with hold | hnew
    · exact (h.entered b hold).imp_right fun ⟨c, hc, hedge⟩ => ⟨c, List.mem_append_left _ hc, hedge⟩
    · rw [List.mem_singleton.mp hnew]
      exact ha.imp_right fun ⟨c, hc, hedge⟩ => ⟨c, List.mem_append_left _ hc, hedge⟩

theorem Explored.adds {start a b : α} {seen seen' : List α} (h : Explored skip next start seen)
    (ha : a ∈ seen) (hb : b ∈ next a) (hadds : Adds skip next [b] seen seen') :
    Explored skip next start seen' := by
  obtain ⟨new, rfl, hforest, _⟩ := hadds
  constructor
  · intro c hc
    rcases List.mem_append.mp hc with hold | hnew
    · exact h.reached c hold
    · obtain ⟨root, hroot, hskip, hreach⟩ := hforest.reached c hnew
      rw [List.mem_singleton.mp hroot] at hskip hreach
      exact ((h.reached a ha).tail ⟨hb, hskip⟩).trans hreach
  · intro c hc
    rcases List.mem_append.mp hc with hold | hnew
    · exact (h.entered c hold).imp_right fun ⟨d, hd, hedge⟩ => ⟨d, List.mem_append_left _ hd, hedge⟩
    · right
      rcases hforest.entry hnew with hroot | ⟨d, hd, hedge⟩
      · rw [List.mem_singleton.mp hroot]
        exact ⟨a, List.mem_append_left _ ha, hb, List.mem_singleton.mp hroot ▸ hforest.kept hnew⟩
      · exact ⟨d, List.mem_append_right _ hd, hedge⟩

/-- The loop over the successors of a node fails only if two paths meet. -/
theorem visitAll_repeated [DecidableEq α] {fuel : Nat} {start a : α}
    (hvisit : ∀ b seen c, Explored skip next start seen →
      (skip b = false → b = start ∨ ∃ d ∈ seen, Edge skip next d b) →
      (skip b = false → b ∈ seen → ∃ d, PathsMeet skip next start d) →
      visitOnce skip next fuel b seen = .repeated c → ∃ d, PathsMeet skip next start d)
    {as : List α} (hnodup : as.Nodup) (has : ∀ b ∈ as, b ∈ next a) {seen : List α} {c : α}
    (hexplored : Explored skip next start seen) (ha : a ∈ seen)
    (hmeet : ∀ b ∈ as, skip b = false → b ∈ seen → ∃ d, PathsMeet skip next start d)
    (h : visitAll (visitOnce skip next fuel) as seen = .repeated c) :
    ∃ d, PathsMeet skip next start d := by
  induction as generalizing seen with
  | nil => cases h
  | cons b rest ih =>
      obtain ⟨hb, hrest⟩ := List.nodup_cons.mp hnodup
      have hbnext : b ∈ next a := has b List.mem_cons_self
      unfold visitAll at h
      split at h
      · rename_i middle hfirst
        have hadds := visitOnce_adds hfirst
        refine ih hrest (fun b' hb' => has b' (List.mem_cons_of_mem _ hb'))
          (hexplored.adds ha hbnext hadds) ?_ ?_ h
        · obtain ⟨new, rfl, _, _⟩ := hadds
          exact List.mem_append_left _ ha
        · intro b' hb' hskip hmem
          obtain ⟨new, rfl, hforest, hfresh⟩ := hadds
          rcases List.mem_append.mp hmem with hold | hnew
          · exact hmeet b' (List.mem_cons_of_mem _ hb') hskip hold
          · -- the node was entered below its sibling
            rcases hforest.entry hnew with hroot | ⟨d, hd, hedge⟩
            · exact absurd (List.mem_singleton.mp hroot ▸ hb') hb
            · obtain ⟨root, hroot, hrootSkip, hreach⟩ := hforest.reached d hd
              rw [List.mem_singleton.mp hroot] at hrootSkip hreach
              have hda : d ≠ a := fun heq => hfresh d hd (heq ▸ ha)
              have hareach := hexplored.reached a ha
              exact ⟨b', .inr ⟨d, a, hda, (hareach.tail ⟨hbnext, hrootSkip⟩).trans hreach, hareach,
                hedge, has b' (List.mem_cons_of_mem _ hb'), hskip⟩⟩
      · rename_i hfirst
        refine hvisit b seen _ hexplored (fun hskip => .inr ⟨a, ha, hbnext, hskip⟩) ?_ hfirst
        exact hmeet b List.mem_cons_self
      · cases h

theorem visitOnce_repeated [DecidableEq α] {fuel : Nat} {start : α}
    (hnext : ∀ a, (next a).Nodup) (a : α) (seen : List α) (c : α)
    (hexplored : Explored skip next start seen)
    (ha : skip a = false → a = start ∨ ∃ b ∈ seen, Edge skip next b a)
    (hmeet : skip a = false → a ∈ seen → ∃ b, PathsMeet skip next start b)
    (h : visitOnce skip next fuel a seen = .repeated c) : ∃ b, PathsMeet skip next start b := by
  induction fuel generalizing a seen c with
  | zero => cases h
  | succ fuel ih =>
      unfold visitOnce at h
      split_ifs at h with hskip hseen
      · exact hmeet (by simpa using hskip) hseen
      · have hkept : skip a = false := by simpa using hskip
        have hentry := ha hkept
        have hnoted := hexplored.snoc hentry
        refine visitAll_repeated ih (hnext a) (fun _ hb => hb) hnoted (by simp) ?_ h
        intro b hb hbskip hmem
        have hareach := hnoted.reached a (by simp)
        rcases List.mem_append.mp hmem with hold | hself
        · rcases hexplored.entered b hold with hstart | ⟨d, hd, hedge⟩
          · exact ⟨b, .inl ⟨hstart, a, hareach, hb, hbskip⟩⟩
          · have hda : d ≠ a := fun heq => hseen (heq ▸ hd)
            exact ⟨b, .inr ⟨d, a, hda, hexplored.reached d hd, hareach, hedge, hb, hbskip⟩⟩
        · rw [List.mem_singleton.mp hself] at hb
          rcases hentry with hstart | ⟨d, hd, hedge⟩
          · exact ⟨a, .inl ⟨hstart, a, hareach, hb, hkept⟩⟩
          · have hda : d ≠ a := fun heq => hseen (heq ▸ hd)
            exact ⟨a, .inr ⟨d, a, hda, hexplored.reached d hd, hareach, hedge, hb, hkept⟩⟩

/-- With more fuel than nodes the visit meets a node twice exactly if two paths meet. -/
theorem visitOnce_repeated_iff [DecidableEq α] {nodes : List α}
    (hnodes : ∀ a, skip a = false → a ∈ nodes) (hnext : ∀ a, (next a).Nodup) {fuel : Nat}
    (hfuel : nodes.length < fuel) {start : α}
    (hstart : skip start = false) :
    (∃ c, visitOnce skip next fuel start [] = .repeated c) ↔
      ∃ b, PathsMeet skip next start b := by
  constructor
  · rintro ⟨c, hc⟩
    refine visitOnce_repeated hnext start [] c ⟨?_, ?_⟩ (fun _ => .inl rfl) ?_ hc
    · simp
    · simp
    · simp
  · rintro ⟨b, hmeet⟩
    cases hvisit : visitOnce skip next fuel start [] with
    | repeated c => exact ⟨c, rfl⟩
    | outOfFuel =>
        have hwithin : Within nodes 0 [] := ⟨List.nodup_nil, by simp, Nat.le_refl 0⟩
        exact absurd hvisit (visitOnce_ne_outOfFuel hnodes (by omega) start hwithin)
    | done seen' =>
        exfalso
        obtain ⟨new, _, hforest, _⟩ := visitOnce_adds hvisit
        have hall : ∀ c, ReflTransGen (Edge skip next) start c → c ∈ new := by
          intro c hc
          induction hc with
          | refl => exact hforest.entered start List.mem_cons_self hstart
          | tail _ hedge ih => exact hforest.closed _ ih _ hedge
        rcases hmeet with ⟨rfl, a, hreach, hedge⟩ | ⟨a, a', hne, hreach, hreach', hedge, hedge'⟩
        · exact hforest.rootless a (hall a hreach) b List.mem_cons_self hedge
        · exact hne (hforest.unique a (hall a hreach) a' (hall a' hreach') b hedge hedge')

end Digraph
