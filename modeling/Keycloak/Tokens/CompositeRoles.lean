import Keycloak.Lib.Worklist
import Keycloak.Tokens.RoleScope

/-!
# Searches through composite roles

`KeycloakModelUtils.searchFor` marks a role when it enters it, and `hasRole` asks it about every
role but the own one.  `RoleUtils.expandCompositeRolesStream` marks a role when it is pushed; the
role where it starts is pushed without being marked, and pushed once more if it is met again.
-/

namespace Keycloak.RoleScope

open Groups (RoleId)
open Relation

namespace Roles

variable (roles : Roles) (it : Iteration)

/-- The loop over the composites of a role, with the stack and the marked roles. -/
def pushComposites (current : RoleId) (stack : List RoleId) (marked : Finset RoleId) :
    List RoleId × Finset RoleId :=
  (it.order (roles.getComposites current)).foldl (fun s r =>
    if r ∈ s.2 then s else (s.1 ++ [r], insert r s.2)) (stack, marked)

/-- The loop; the `Deque` gives back what was added first. -/
def expandLoop : Nat → List RoleId → Finset RoleId → List RoleId → Option (List RoleId)
  | 0, _, _, _ => none
  | _ + 1, [], _, sb => some sb
  | fuel + 1, current :: stack, marked, sb =>
      let sb := sb ++ [current]
      if roles.isComposite current then
        let s := roles.pushComposites it current stack marked
        expandLoop fuel s.1 s.2 sb
      else expandLoop fuel stack marked sb

def expandCompositeRolesStream (fuel : Nat) (role : RoleId) : Option (List RoleId) :=
  roles.expandLoop it fuel [role] ∅ []

end Roles

/-- The three searches end, and each answers what can be reached: in one or more steps, in zero
or more, and the same as a stream without repetitions. -/
structure SearchesReach (roles : Roles) (it : Iteration) (role composite : RoleId) : Prop where
  searchFor : ∀ fuel, roles.ids.card < fuel →
    ∃ found visited, roles.searchFor it role fuel composite ∅ = some (found, visited) ∧
      (found = true ↔ TransGen roles.IsComposite composite role)
  hasRole : ∀ fuel, roles.ids.card < fuel →
    ∃ had, roles.hasRole it fuel composite role = some had ∧
      (had = true ↔ ReflTransGen roles.IsComposite composite role)
  expand : ∀ fuel, roles.ids.card + 1 < fuel →
    ∃ expanded, roles.expandCompositeRolesStream it fuel composite = some expanded ∧
      expanded.Nodup ∧ ∀ a, a ∈ expanded ↔ ReflTransGen roles.IsComposite composite a

section

variable {roles : Roles} {it : Iteration} {fuel : Nat} {composite : RoleId}

theorem expandLoop_eq_walk (stack : List RoleId) (marked : Finset RoleId) (sb : List RoleId) :
    roles.expandLoop it fuel stack marked sb =
      Worklist.walk (fun a => it.order (roles.getComposites a)) fuel stack marked sb := by
  induction fuel generalizing stack marked sb with
  | zero => rfl
  | succ fuel ih =>
      cases stack with
      | nil => rfl
      | cons current stack =>
          rw [Roles.expandLoop, Worklist.walk]
          dsimp only
          split
          · exact ih _ _ _
          · rename_i hcomposite
            rw [order_eq_nil (composites_eq_empty hcomposite), List.foldl_nil]
            exact ih _ _ _

/-- The stream ends and has its start, and once each what can be reached in one or more
steps. -/
theorem expandCompositeRolesStream_spec (it : Iteration) (hcomposite : composite ∈ roles.ids)
    (hfuel : roles.ids.card + 1 < fuel) :
    ∃ found, roles.expandCompositeRolesStream it fuel composite = some (composite :: found) ∧
      found.Nodup ∧ ∀ a, a ∈ found ↔ TransGen roles.IsComposite composite a := by
  have hnext : ∀ a ∈ roles.ids, ∀ b ∈ it.order (roles.getComposites a), b ∈ roles.ids :=
    fun a ha b hb => roles.composite_mem a ha b ((it.mem_order _ b).mp hb)
  have hedge : Worklist.Edge (fun a => it.order (roles.getComposites a)) = roles.IsComposite := by
    funext a b
    exact propext (it.mem_order _ b)
  obtain ⟨found, hwalk, hnodup, hmem⟩ := Worklist.walk_spec hnext hcomposite hfuel
  refine ⟨found, ?_, hnodup, fun a => ?_⟩
  · rw [Roles.expandCompositeRolesStream, expandLoop_eq_walk, hwalk]
  · rw [hmem, hedge]

/-- What is searched is what can be reached, but a role on a cycle through the start of the
stream comes twice if it is the start. -/
theorem searchesReach_iff (it : Iteration) (role : RoleId) (hcomposite : composite ∈ roles.ids) :
    SearchesReach roles it role composite ↔ ¬ TransGen roles.IsComposite composite composite := by
  have hfuel : roles.ids.card + 1 < roles.ids.card + 2 := Nat.lt_succ_self _
  constructor
  · intro h hcycle
    obtain ⟨expanded, hexpanded, hnodup, -⟩ := h.expand _ hfuel
    obtain ⟨found, hfound, -, hmem⟩ := expandCompositeRolesStream_spec it hcomposite hfuel
    obtain rfl := Option.some.inj (hexpanded.symm.trans hfound)
    exact (List.nodup_cons.mp hnodup).1 ((hmem composite).mpr hcycle)
  · intro hacyclic
    refine ⟨fun fuel hfuel => searchFor_spec it hcomposite hfuel role,
      fun fuel hfuel => hasRole_spec it hcomposite hfuel role, fun fuel hfuel => ?_⟩
    obtain ⟨found, hfound, hnodup, hmem⟩ := expandCompositeRolesStream_spec it hcomposite hfuel
    refine ⟨_, hfound, List.nodup_cons.mpr ⟨fun h => hacyclic ((hmem composite).mp h), hnodup⟩,
      fun a => ?_⟩
    rw [List.mem_cons, hmem, reflTransGen_iff_eq_or_transGen]

end

/-- A composite of a composite, beside two roles that are composites of each other. -/
def nestedRoles : Roles where
  ids := {0, 1, 2, 3, 4}
  getContainer _ := .realm
  getName role := if role = 0 then "admin" else if role = 1 then "manage" else
    if role = 2 then "view" else if role = 3 then "left" else "right"
  getComposites role := if role = 0 then {1, 2} else if role = 1 then {2} else
    if role = 3 then {4} else if role = 4 then {3} else ∅
  isSurrogateAuthRequired _ := false
  composite_mem := by decide
  unique := by decide

theorem searchesReach_nested : SearchesReach nestedRoles sampleIteration 2 0 := by
  refine (searchesReach_iff sampleIteration 2 (by decide)).mpr fun hcycle => ?_
  have hbelow : ∀ a, TransGen nestedRoles.IsComposite 0 a → a = 1 ∨ a = 2 := by
    intro a hpath
    induction hpath with
    | single hedge => simpa [Roles.IsComposite, nestedRoles] using hedge
    | tail _ hedge ih =>
        rcases ih with rfl | rfl
        · exact .inr (by simpa [Roles.IsComposite, nestedRoles] using hedge)
        · simp [Roles.IsComposite, nestedRoles] at hedge
  exact absurd (hbelow 0 hcycle) (by decide)

/-- Two roles that are composites of each other: the one that is expanded comes twice. -/
theorem not_searchesReach_of_cycle :
    sampleRoles.expandCompositeRolesStream sampleIteration 6 0 = some [0, 1, 0, 2] ∧
      ¬ SearchesReach sampleRoles sampleIteration 2 0 := by
  have hzero : sampleIteration.order (sampleRoles.getComposites 0) = [1] :=
    Finset.sort_singleton _ 1
  have hone : sampleIteration.order (sampleRoles.getComposites 1) = [0, 2] :=
    (List.toFinset_sort (· ≤ ·) (by decide : [0, 2].Nodup)).mpr (by decide)
  have hcomposite : sampleRoles.isComposite 0 = true ∧ sampleRoles.isComposite 1 = true ∧
      sampleRoles.isComposite 2 = false := by decide
  have hstream : sampleRoles.expandCompositeRolesStream sampleIteration 6 0 =
      some [0, 1, 0, 2] := by
    simp [Roles.expandCompositeRolesStream, Roles.expandLoop, Roles.pushComposites, hzero, hone,
      hcomposite]
  refine ⟨hstream, fun h => ?_⟩
  obtain ⟨expanded, hexpanded, hnodup, -⟩ := h.expand 6 (by decide)
  obtain rfl := Option.some.inj (hstream.symm.trans hexpanded)
  exact absurd hnodup (by decide)

end Keycloak.RoleScope
