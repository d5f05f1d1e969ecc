import Keycloak.Lib.LinkedMap
import Mathlib.Data.List.Infix

/-!
# Maps nested in maps

A tree is a value or a map from keys to trees.  A value is put at a path by walking down
from the root map; a map is made where there is nothing yet, and a value on the way has no
place for the rest of the path.
-/

/-- A value, or a map from keys to trees. -/
inductive PathTree (K V : Type*) where
  | leaf (v : V)
  | node (entries : List (K × PathTree K V))

namespace PathTree

variable {K V : Type*} [DecidableEq K]

/-- What stands at the end of the path. -/
def walk : PathTree K V → List K → Option (PathTree K V)
  | t, [] => some t
  | leaf _, _ :: _ => none
  | node entries, k :: rest => (entries.lookup k).bind fun t => t.walk rest

/-- The map in which the rest of a path goes on, unless a value stands there. -/
def nested : Option (PathTree K V) → Option (List (K × PathTree K V))
  | none => some []
  | some (node entries) => some entries
  | some (leaf _) => none

/-- The root map with `v` put at the path. -/
def put (v : V) : List (K × PathTree K V) → List K → Option (List (K × PathTree K V))
  | entries, [] => some entries
  | entries, [k] => some (LinkedMap.alter k (fun _ => leaf v) entries)
  | entries, k :: k' :: rest =>
      (nested (entries.lookup k)).bind fun below =>
        (put v below (k' :: rest)).map fun below' =>
          LinkedMap.alter k (fun _ => node below') entries

def Blocked (entries : List (K × PathTree K V)) (path : List K) : Prop :=
  ∃ q w, q <+: path ∧ q ≠ path ∧ (node entries).walk q = some (leaf w)

section

variable {v : V} {entries entries' : List (K × PathTree K V)} {k k' : K} {path q rest : List K}

@[simp] theorem walk_nil (t : PathTree K V) : t.walk [] = some t := by
  cases t <;> rfl

@[simp] theorem walk_leaf_cons : (leaf v).walk (k :: rest) = none := rfl

@[simp] theorem walk_node_cons :
    (node entries).walk (k :: rest) = (entries.lookup k).bind fun t => t.walk rest := rfl

theorem walk_append (t : PathTree K V) (p q : List K) :
    t.walk (p ++ q) = (t.walk p).bind fun t' => t'.walk q := by
  induction p generalizing t with
  | nil => simp
  | cons k rest ih =>
      cases t with
      | leaf v => rfl
      | node entries =>
          rw [List.cons_append, walk_node_cons, walk_node_cons, Option.bind_assoc]
          exact Option.bind_congr fun t _ => ih t

theorem put_cons_cons :
    put v entries (k :: k' :: rest) = (nested (entries.lookup k)).bind fun below =>
      (put v below (k' :: rest)).map fun below' =>
        LinkedMap.alter k (fun _ => node below') entries := rfl

theorem put_cons_cons_eq_some (h : put v entries (k :: k' :: rest) = some entries') :
    ∃ below below', nested (entries.lookup k) = some below ∧
      put v below (k' :: rest) = some below' ∧
      entries' = LinkedMap.alter k (fun _ => node below') entries := by
  rw [put_cons_cons, Option.bind_eq_some_iff] at h
  obtain ⟨below, hbelow, hput⟩ := h
  obtain ⟨below', hbelow', rfl⟩ := Option.map_eq_some_iff.mp hput
  exact ⟨below, below', hbelow, hbelow', rfl⟩

theorem walk_put_self (hne : path ≠ []) (h : put v entries path = some entries') :
    (node entries').walk path = some (leaf v) := by
  induction path generalizing entries entries' with
  | nil => exact absurd rfl hne
  | cons k rest ih =>
      cases rest with
      | nil =>
          cases h
          simp
      | cons k' rest =>
          obtain ⟨below, below', -, hput, rfl⟩ := put_cons_cons_eq_some h
          rw [walk_node_cons, LinkedMap.lookup_alter_self, Option.bind_some]
          exact ih (List.cons_ne_nil k' rest) hput

theorem walk_below_leaf {w : V} (hleaf : (node entries).walk path = some (leaf w))
    (hpre : path <+: q) (hne : path ≠ q) : (node entries).walk q = none := by
  obtain ⟨post, rfl⟩ := hpre
  cases post with
  | nil => exact absurd (List.append_nil path).symm hne
  | cons k rest => rw [walk_append, hleaf, Option.bind_some, walk_leaf_cons]

/-- The way to the end of the path consists of maps afterwards. -/
theorem walk_put_above (h : put v entries path = some entries') (hpre : q <+: path)
    (hne : q ≠ path) : ∃ below, (node entries').walk q = some (node below) := by
  induction path generalizing q entries entries' with
  | nil => exact absurd (List.prefix_nil.mp hpre) hne
  | cons k rest ih =>
      cases q with
      | nil => exact ⟨entries', walk_nil _⟩
      | cons k₁ q =>
          obtain ⟨rfl, hq⟩ := List.cons_prefix_cons.mp hpre
          have hne' : q ≠ rest := fun heq => hne (heq ▸ rfl)
          cases rest with
          | nil => exact absurd (List.prefix_nil.mp hq) hne'
          | cons k' rest =>
              obtain ⟨below, below', -, hput, rfl⟩ := put_cons_cons_eq_some h
              rw [walk_node_cons, LinkedMap.lookup_alter_self, Option.bind_some]
              exact ih hput hq hne'

/-- Frame: what is not on the way to the path and not below it stays. -/
theorem walk_put_elsewhere (h : put v entries path = some entries')
    (hq : ¬ q <+: path) (hpath : ¬ path <+: q) :
    (node entries').walk q = (node entries).walk q := by
  induction path generalizing q entries entries' with
  | nil => exact absurd List.nil_prefix hpath
  | cons k rest ih =>
      cases q with
      | nil => exact absurd List.nil_prefix hq
      | cons k₁ q =>
          by_cases hk : k₁ = k
          · subst hk
            have hq' : ¬ q <+: rest := fun hp => hq ((List.prefix_cons_inj k₁).mpr hp)
            have hpath' : ¬ rest <+: q := fun hp => hpath ((List.prefix_cons_inj k₁).mpr hp)
            cases rest with
            | nil => exact absurd List.nil_prefix hpath'
            | cons k' rest =>
                obtain ⟨below, below', hbelow, hput, rfl⟩ := put_cons_cons_eq_some h
                rw [walk_node_cons, walk_node_cons, LinkedMap.lookup_alter_self,
                  Option.bind_some, ih hput hq' hpath']
                cases q with
                | nil => exact absurd List.nil_prefix hq'
                | cons k₂ q =>
                    -- what the walk meets under `k₁` is the map `below`, or nothing
                    cases hlookup : entries.lookup k₁ with
                    | none =>
                        rw [hlookup] at hbelow
                        cases hbelow
                        rfl
                    | some t =>
                        rw [hlookup] at hbelow
                        cases t with
                        | leaf w => cases hbelow
                        | node entries₁ =>
                            cases hbelow
                            rfl
          · have hlookup : ∀ f, (LinkedMap.alter k f entries).lookup k₁ = entries.lookup k₁ :=
              fun f => LinkedMap.lookup_alter_of_ne hk f entries
            cases rest with
            | nil =>
                cases h
                rw [walk_node_cons, walk_node_cons, hlookup]
            | cons k' rest =>
                obtain ⟨below, below', -, -, rfl⟩ := put_cons_cons_eq_some h
                rw [walk_node_cons, walk_node_cons, hlookup]

/-! ## When a value can be put -/

theorem not_blocked_nil : ¬ Blocked entries [] := by
  rintro ⟨q, w, hpre, hne, -⟩
  exact hne (List.prefix_nil.mp hpre)

theorem not_blocked_singleton : ¬ Blocked entries [k] := by
  rintro ⟨q, w, hpre, hne, hwalk⟩
  cases q with
  | nil => cases hwalk
  | cons k₁ q =>
      obtain ⟨rfl, hq⟩ := List.cons_prefix_cons.mp hpre
      exact hne (by rw [List.prefix_nil.mp hq])

theorem blocked_cons_cons :
    Blocked entries (k :: k' :: rest) ↔
      ∀ below, nested (entries.lookup k) = some below → Blocked below (k' :: rest) := by
  constructor
  · rintro ⟨q, w, hpre, hne, hwalk⟩ below hbelow
    cases q with
    | nil => cases hwalk
    | cons k₁ q =>
        obtain ⟨rfl, hq⟩ := List.cons_prefix_cons.mp hpre
        rw [walk_node_cons, Option.bind_eq_some_iff] at hwalk
        obtain ⟨t, hlookup, hwalk⟩ := hwalk
        rw [hlookup] at hbelow
        cases t with
        | leaf w' => cases hbelow
        | node entries₁ =>
            cases hbelow
            exact ⟨q, w, hq, fun heq => hne (heq ▸ rfl), hwalk⟩
  · intro h
    cases hlookup : entries.lookup k with
    | none =>
        obtain ⟨q, w, -, -, hwalk⟩ := h [] (by rw [hlookup]; rfl)
        cases q <;> simp at hwalk
    | some t =>
        cases t with
        | leaf w =>
            refine ⟨[k], w, ?_, by simp, by simp [hlookup]⟩
            exact (List.prefix_cons_inj k).mpr List.nil_prefix
        | node entries₁ =>
            obtain ⟨q, w, hq, hne, hwalk⟩ := h entries₁ (by rw [hlookup]; rfl)
            refine ⟨k :: q, w, (List.prefix_cons_inj k).mpr hq, fun heq => hne ?_, ?_⟩
            · exact (List.cons_eq_cons.mp heq).2
            · rw [walk_node_cons, hlookup, Option.bind_some, hwalk]

theorem put_eq_none_iff : put v entries path = none ↔ Blocked entries path := by
  induction path generalizing entries with
  | nil => exact iff_of_false (by simp [put]) not_blocked_nil
  | cons k rest ih =>
      cases rest with
      | nil => exact iff_of_false (by simp [put]) not_blocked_singleton
      | cons k' rest =>
          rw [put_cons_cons, Option.bind_eq_none_iff, blocked_cons_cons]
          refine forall_congr' fun below => imp_congr_right fun _ => ?_
          rw [Option.map_eq_none_iff]
          exact ih

/-- After a value was put at a path, the longer paths are blocked, and no others that were
not blocked before. -/
theorem blocked_put_iff (hne : path ≠ []) (h : put v entries path = some entries') :
    Blocked entries' q ↔ Blocked entries q ∨ path <+: q ∧ path ≠ q := by
  have hself := walk_put_self hne h
  have hfree : ¬ Blocked entries path := by
    rw [← put_eq_none_iff (v := v), h]
    exact Option.some_ne_none entries'
  constructor
  · rintro ⟨p, w, hpre, hpne, hwalk⟩
    by_cases hp : p <+: path
    · rcases eq_or_ne p path with rfl | hpp
      · exact .inr ⟨hpre, hpne⟩
      · obtain ⟨below, hbelow⟩ := walk_put_above h hp hpp
        rw [hbelow] at hwalk
        cases hwalk
    · by_cases hp' : path <+: p
      · have hpp : path ≠ p := fun heq => hp (heq ▸ List.prefix_rfl)
        rw [walk_below_leaf hself hp' hpp] at hwalk
        cases hwalk
      · rw [walk_put_elsewhere h hp hp'] at hwalk
        exact .inl ⟨p, w, hpre, hpne, hwalk⟩
  · rintro (⟨p, w, hpre, hpne, hwalk⟩ | ⟨hpre, hpne⟩)
    · by_cases hp' : path <+: p
      · have hlonger : path ≠ q := by
          rintro rfl
          exact hpne (hpre.eq_of_length_le hp'.length_le)
        exact ⟨path, v, hp'.trans hpre, hlonger, hself⟩
      · have hp : ¬ p <+: path := by
          intro hp
          refine hfree ⟨p, w, hp, ?_, hwalk⟩
          rintro rfl
          exact hp' List.prefix_rfl
        refine ⟨p, w, hpre, hpne, ?_⟩
        rw [walk_put_elsewhere h hp hp', hwalk]
    · exact ⟨path, v, hpre, hpne, hself⟩

end

end PathTree
