import Keycloak.Lib.Search
import Keycloak.Groups.Hierarchy
import Mathlib.Data.Finset.Sort

/-!
# The roles of an access token

`TokenManager.getAccess` and `addComposites`.  Three searches through the composite roles cut
each other's branches: `hasRole` below a role of the user, `applyScope` below a role of the
scope, which stops at the first role that the user has, and `addComposites`, which stops at
the roles that are already in the token.
-/

namespace Keycloak.RoleScope

open Groups (RoleId GroupId Table)
open Relation

inductive Container where
  | realm
  | client (clientId : String)
deriving DecidableEq, Repr

/-- The roles of a realm with their clients.  Composites are roles of the realm, and a role is
known by its container and its name. -/
structure Roles where
  ids : Finset RoleId
  getContainer : RoleId → Container
  getName : RoleId → String
  getComposites : RoleId → Finset RoleId
  isSurrogateAuthRequired : String → Bool
  composite_mem : ∀ a ∈ ids, ∀ b ∈ getComposites a, b ∈ ids
  unique : ∀ a ∈ ids, ∀ b ∈ ids, getContainer a = getContainer b → getName a = getName b → a = b

/-- The order in which the roles of a set are iterated. -/
structure Iteration where
  order : Finset RoleId → List RoleId
  mem_order : ∀ s a, a ∈ order s ↔ a ∈ s

structure UserModel where
  getRoleMappings : List RoleId
  getGroups : List GroupId

structure ClientModel where
  isFullScopeAllowed : Bool
  getRoles : Finset RoleId

structure ClientScopeModel where
  getScopeMappings : Finset RoleId

/-! ## Which roles are requested -/

namespace Roles

variable (roles : Roles) (it : Iteration)

def isComposite (role : RoleId) : Bool := (roles.getComposites role).Nonempty

/-- The stream over the composites; it ends with the first hit. -/
def findFirst (search : RoleId → Finset RoleId → Option (Bool × Finset RoleId)) :
    List RoleId → Finset RoleId → Option (Bool × Finset RoleId)
  | [], visited => some (false, visited)
  | x :: rest, visited =>
      if roles.isComposite x then
        match search x visited with
        | some (false, visited) => findFirst search rest visited
        | result => result
      else findFirst search rest visited

def searchFor (role : RoleId) : Nat → RoleId → Finset RoleId → Option (Bool × Finset RoleId)
  | 0, _, _ => none
  | fuel + 1, composite, visited =>
      if composite ∈ visited then some (false, visited)
      else
        let visited := insert composite visited
        if ¬ roles.isComposite composite then some (false, visited)
        else if role ∈ roles.getComposites composite then some (true, visited)
        else roles.findFirst (searchFor role fuel)
          (it.order (roles.getComposites composite)) visited

def hasRole (fuel : Nat) (self role : RoleId) : Option Bool :=
  if self = role then some true
  else (roles.searchFor it role fuel self ∅).map (·.1)

end Roles

structure Scope where
  visited : Finset RoleId
  requested : Finset RoleId

/-- `hasRole` is that of the role of the user. -/
def applyScope (roles : Roles) (it : Iteration) (hasRole : RoleId → Option Bool) :
    Nat → Scope → RoleId → Option Scope
  | 0, _, _ => none
  | fuel + 1, s, scope =>
      if scope ∈ s.visited then some s
      else
        let s := { s with visited := insert scope s.visited }
        match hasRole scope with
        | none => none
        | some true => some { s with requested := insert scope s.requested }
        | some false =>
            if ¬ roles.isComposite scope then some s
            else (it.order (roles.getComposites scope)).foldlM
              (applyScope roles it hasRole fuel) s

def addGroupsRoles (t : Table) (groupMappings : GroupId → List RoleId) (fuel : Nat)
    (user : UserModel) : Option (List RoleId) :=
  user.getGroups.foldlM (fun mappings group =>
    t.addGroupRoles groupMappings fuel group mappings) user.getRoleMappings

def scopeMappings (client : ClientModel) (clientScopes : List ClientScopeModel) :
    Finset RoleId :=
  clientScopes.foldl (fun mappings scope => mappings ∪ scope.getScopeMappings) client.getRoles

def applyScopes (roles : Roles) (it : Iteration) (fuel : Nat) (desired : Finset RoleId)
    (requested : Finset RoleId) (role : RoleId) : Option (Finset RoleId) :=
  (it.order desired).foldlM (fun requested desiredRole =>
    (applyScope roles it (roles.hasRole it fuel role) fuel ⟨∅, requested⟩ desiredRole).map
      Scope.requested) requested

def getAccess (t : Table) (groupMappings : GroupId → List RoleId) (roles : Roles)
    (it : Iteration) (fuel : Nat) (user : UserModel) (client : ClientModel)
    (clientScopes : List ClientScopeModel) : Option (Finset RoleId) :=
  (addGroupsRoles t groupMappings fuel user).bind fun roleMappings =>
    if client.isFullScopeAllowed then some roleMappings.toFinset
    else (it.order roleMappings.toFinset).foldlM
      (applyScopes roles it fuel (scopeMappings client clientScopes)) ∅

/-! ## Which roles are written -/

structure Access where
  roles : Finset String
  verifyCaller : Option Bool
deriving DecidableEq

def Access.new : Access := ⟨∅, none⟩

def Access.addRole (access : Access) (role : String) : Access :=
  { access with roles := insert role access.roles }

structure AccessToken where
  realmAccess : Option Access
  resourceAccess : String → Option Access

def AccessToken.new : AccessToken := ⟨none, fun _ => none⟩

def AccessToken.access (token : AccessToken) : Container → Option Access
  | .realm => token.realmAccess
  | .client clientId => token.resourceAccess clientId

def AccessToken.isUserInRole (token : AccessToken) (container : Container) (role : String) : Bool :=
  match token.access container with
  | none => false
  | some access => role ∈ access.roles

/-- The role is added to the access of its container, which is created before. -/
def AccessToken.addRole (roles : Roles) (token : AccessToken) (container : Container)
    (role : String) : AccessToken :=
  match container with
  | .realm => { token with
      realmAccess := some ((token.realmAccess.getD .new).addRole role) }
  | .client clientId =>
      let created : Access := { Access.new with
        verifyCaller := if roles.isSurrogateAuthRequired clientId then some true else none }
      { token with
        resourceAccess := Function.update token.resourceAccess clientId
          (some (((token.resourceAccess clientId).getD created).addRole role)) }

def addComposites (roles : Roles) (it : Iteration) :
    Nat → AccessToken → RoleId → Option AccessToken
  | 0, _, _ => none
  | fuel + 1, token, role =>
      if token.isUserInRole (roles.getContainer role) (roles.getName role) then some token
      else
        let token := token.addRole roles (roles.getContainer role) (roles.getName role)
        if ¬ roles.isComposite role then some token
        else (it.order (roles.getComposites role)).foldlM (addComposites roles it fuel) token

def createClientAccessToken (t : Table) (groupMappings : GroupId → List RoleId) (roles : Roles)
    (it : Iteration) (fuel : Nat) (user : UserModel) (client : ClientModel)
    (clientScopes : List ClientScopeModel) : Option AccessToken :=
  (getAccess t groupMappings roles it fuel user client clientScopes).bind fun requested =>
    (it.order requested).foldlM (addComposites roles it fuel) .new

/-! ## The searches -/

section

variable {roles : Roles} {it : Iteration} {fuel : Nat}

def Roles.IsComposite (roles : Roles) (a b : RoleId) : Prop := b ∈ roles.getComposites a

theorem order_eq_nil {s : Finset RoleId} (h : s = ∅) : it.order s = [] := by
  rw [List.eq_nil_iff_forall_not_mem]
  intro a ha
  rw [it.mem_order, h] at ha
  exact Finset.notMem_empty a ha

theorem composites_eq_empty {role : RoleId} (h : ¬ roles.isComposite role) :
    roles.getComposites role = ∅ := by
  rwa [Roles.isComposite, decide_eq_true_eq, Finset.not_nonempty_iff_eq_empty] at h

theorem foldlM_congr {α β : Type} {f g : β → α → Option β} {xs : List α}
    (h : ∀ b, ∀ x ∈ xs, f b x = g b x) (b : β) : xs.foldlM f b = xs.foldlM g b := by
  induction xs generalizing b with
  | nil => rfl
  | cons x rest ih =>
      rw [List.foldlM_cons, List.foldlM_cons, h b x List.mem_cons_self]
      congr 1
      funext b'
      exact ih (fun b x hx => h b x (List.mem_cons_of_mem _ hx)) b'

variable (roles it)

/-- The search of `searchFor`, without its early end. -/
def compositeSearch : Search (Finset RoleId) RoleId where
  seen visited a := a ∈ visited
  mark visited a := insert a visited
  stop _ := false
  next a := (it.order (roles.getComposites a)).filter roles.isComposite
  nodes := roles.ids
  next_mem a ha b hb :=
    roles.composite_mem a ha b ((it.mem_order _ b).mp (List.mem_of_mem_filter hb))
  seen_mark s a _ b := by simp

/-- The search of `applyScope`; `had` says which roles the user has. -/
def scopeSearch (had : RoleId → Bool) : Search Scope RoleId where
  seen s a := a ∈ s.visited
  mark s a := ⟨insert a s.visited, if had a then insert a s.requested else s.requested⟩
  stop := had
  next a := it.order (roles.getComposites a)
  nodes := roles.ids
  next_mem a ha b hb := roles.composite_mem a ha b ((it.mem_order _ b).mp hb)
  seen_mark s a _ b := by simp

variable {roles it}

theorem access_addRole_self (roles : Roles) (token : AccessToken) (container : Container)
    (role : String) :
    ∃ access : Access, (token.addRole roles container role).access container =
        some (access.addRole role) ∧
      ∀ name, name ∈ access.roles ↔ token.isUserInRole container name = true := by
  cases container with
  | realm =>
      refine ⟨token.realmAccess.getD .new, rfl, fun name => ?_⟩
      rw [AccessToken.isUserInRole, AccessToken.access]
      cases token.realmAccess <;> simp [Access.new]
  | client clientId =>
      refine ⟨_, Function.update_self .., fun name => ?_⟩
      rw [AccessToken.isUserInRole, AccessToken.access]
      cases token.resourceAccess clientId <;> simp [Access.new]

theorem access_addRole_of_ne (token : AccessToken) {container other : Container} (role : String)
    (h : other ≠ container) :
    (token.addRole roles container role).access other = token.access other := by
  cases container with
  | realm =>
      cases other with
      | realm => exact absurd rfl h
      | client clientId => rfl
  | client clientId =>
      cases other with
      | realm => rfl
      | client otherId => exact Function.update_of_ne (fun heq => h (congrArg _ heq)) ..

theorem isUserInRole_addRole {token : AccessToken} {container other : Container}
    {role name : String} : (token.addRole roles container role).isUserInRole other name = true ↔
      other = container ∧ name = role ∨ token.isUserInRole other name = true := by
  by_cases h : other = container
  · subst h
    obtain ⟨access, haccess, hroles⟩ := access_addRole_self roles token other role
    rw [AccessToken.isUserInRole, haccess]
    simp [Access.addRole, hroles]
  · rw [AccessToken.isUserInRole, access_addRole_of_ne token role h, ← AccessToken.isUserInRole]
    simp [h]

variable (roles it)

/-- The search of `addComposites`, with the token as its visited set. -/
def tokenSearch : Search AccessToken RoleId where
  seen token a := a ∈ roles.ids ∧ token.isUserInRole (roles.getContainer a) (roles.getName a)
  mark token a := token.addRole roles (roles.getContainer a) (roles.getName a)
  stop _ := false
  next a := it.order (roles.getComposites a)
  nodes := roles.ids
  next_mem a ha b hb := roles.composite_mem a ha b ((it.mem_order _ b).mp hb)
  seen_mark token a ha b := by
    rw [decide_eq_true_eq, decide_eq_true_eq, isUserInRole_addRole]
    constructor
    · rintro ⟨hb, ⟨hcontainer, hname⟩ | hold⟩
      · exact .inl (roles.unique b hb a ha hcontainer hname)
      · exact .inr ⟨hb, hold⟩
    · rintro (rfl | ⟨hb, hold⟩)
      · exact ⟨ha, .inl ⟨rfl, rfl⟩⟩
      · exact ⟨hb, .inr hold⟩

variable {roles it}

theorem addComposites_eq_visit {role : RoleId} (h : role ∈ roles.ids) (token : AccessToken) :
    addComposites roles it fuel token role = (tokenSearch roles it).visit fuel token role := by
  induction fuel generalizing role token with
  | zero => rfl
  | succ fuel ih =>
      rw [addComposites, Search.visit]
      cases hseen : token.isUserInRole (roles.getContainer role) (roles.getName role) with
      | true =>
          have hvisited : (tokenSearch roles it).seen token role = true :=
            decide_eq_true ⟨h, hseen⟩
          rw [if_pos rfl, if_pos hvisited]
      | false =>
          have hvisited : ¬ (tokenSearch roles it).seen token role = true := by
            rw [tokenSearch, decide_eq_true_eq, hseen]
            exact fun hand => Bool.false_ne_true hand.2
          rw [if_neg Bool.false_ne_true, if_neg hvisited]
          dsimp only
          rw [if_neg (show ¬ (tokenSearch roles it).stop role = true from Bool.false_ne_true)]
          split
          · rename_i hcomposite
            have hnext : (tokenSearch roles it).next role = [] :=
              order_eq_nil (composites_eq_empty hcomposite)
            rw [hnext]
            rfl
          · exact foldlM_congr (fun token b hb =>
              ih ((tokenSearch roles it).next_mem role h b hb) token) _

theorem applyScope_eq_visit {hasRole : RoleId → Option Bool} {had : RoleId → Bool}
    (h : ∀ a, hasRole a = some (had a)) (s : Scope) (scope : RoleId) :
    applyScope roles it hasRole fuel s scope =
      (scopeSearch roles it had).visit fuel s scope := by
  induction fuel generalizing s scope with
  | zero => rfl
  | succ fuel ih =>
      rw [applyScope, Search.visit, h]
      by_cases hseen : scope ∈ s.visited
      · have hvisited : (scopeSearch roles it had).seen s scope = true := decide_eq_true hseen
        rw [if_pos hseen, if_pos hvisited]
      · have hvisited : ¬ (scopeSearch roles it had).seen s scope = true := by
          rw [scopeSearch, decide_eq_true_eq]
          exact hseen
        rw [if_neg hseen, if_neg hvisited]
        have hstop : (scopeSearch roles it had).stop scope = had scope := rfl
        rw [hstop]
        cases hhad : had scope with
        | true => simp [scopeSearch, hhad]
        | false =>
            have hmark : (scopeSearch roles it had).mark s scope =
                { s with visited := insert scope s.visited } := by
              simp [scopeSearch, hhad]
            rw [if_neg Bool.false_ne_true, hmark]
            dsimp only
            split
            · rename_i hcomposite
              have hnext : (scopeSearch roles it had).next scope = [] :=
                order_eq_nil (composites_eq_empty hcomposite)
              rw [hnext]
              rfl
            · exact foldlM_congr (fun s b _ => ih s b) _

end

/-! ## `hasRole` -/

section

variable {roles : Roles} {it : Iteration} {fuel : Nat} {role composite : RoleId}

/-- What `searchFor` answers where the full search goes from `visited` to `visited'`. -/
structure Answers (roles : Roles) (role : RoleId) (visited visited' : Finset RoleId)
    (found : Bool) (rest : Finset RoleId) : Prop where
  hit : found = true → ∃ a ∈ visited', role ∈ roles.getComposites a
  miss : found = false → rest = visited' ∧
    ∀ a ∈ visited', a ∉ visited → role ∉ roles.getComposites a

theorem visitAll_subset {visited visited' : Finset RoleId} {xs : List RoleId}
    (hxs : ∀ x ∈ xs, x ∈ roles.ids)
    (h : (compositeSearch roles it).visitAll fuel visited xs = some visited') :
    visited ⊆ visited' :=
  Search.visitAll_invariant (I := fun s => visited ⊆ s)
    (fun _ _ _ hs => hs.trans (Finset.subset_insert _ _)) hxs h subset_rfl

theorem findFirst_answers {search : RoleId → Finset RoleId → Option (Bool × Finset RoleId)}
    {xs : List RoleId} (hxs : ∀ x ∈ xs, x ∈ roles.ids)
    (hsearch : ∀ x ∈ xs, ∀ visited visited',
      (compositeSearch roles it).visit fuel visited x = some visited' →
      ∃ found rest, search x visited = some (found, rest) ∧
        Answers roles role visited visited' found rest)
    {visited visited' : Finset RoleId}
    (h : (compositeSearch roles it).visitAll fuel visited (xs.filter roles.isComposite) =
      some visited') :
    ∃ found rest, roles.findFirst search xs visited = some (found, rest) ∧
      Answers roles role visited visited' found rest := by
  induction xs generalizing visited with
  | nil =>
      cases h
      exact ⟨false, _, rfl, fun h => absurd h Bool.false_ne_true,
        fun _ => ⟨rfl, fun a ha hnot => absurd ha hnot⟩⟩
  | cons x rest ih =>
      obtain ⟨_, hrest⟩ := List.forall_mem_cons.mp hxs
      have ih := @ih hrest fun y hy => hsearch y (List.mem_cons_of_mem x hy)
      rw [Roles.findFirst]
      cases hcomposite : roles.isComposite x with
      | false =>
          rw [List.filter_cons_of_neg (by rw [hcomposite]; exact Bool.false_ne_true)] at h
          rw [if_neg Bool.false_ne_true]
          exact ih h
      | true =>
          rw [List.filter_cons_of_pos hcomposite, Search.visitAll, List.foldlM_cons,
            Option.bind_eq_bind, Option.bind_eq_some_iff] at h
          obtain ⟨middle, hfirst, hloop⟩ := h
          obtain ⟨found, rest', hfound, hanswers⟩ :=
            hsearch x List.mem_cons_self visited middle hfirst
          rw [if_pos rfl, hfound]
          cases found with
          | true =>
              obtain ⟨a, ha, hmem⟩ := hanswers.hit rfl
              have hsubset : middle ⊆ visited' :=
                visitAll_subset (fun y hy => hrest y (List.mem_of_mem_filter hy)) hloop
              exact ⟨true, rest', rfl, fun _ => ⟨a, hsubset ha, hmem⟩,
                fun h => absurd h.symm Bool.false_ne_true⟩
          | false =>
              obtain ⟨rfl, hnone⟩ := hanswers.miss rfl
              obtain ⟨found', rest'', hfound', hanswers'⟩ := ih hloop
              refine ⟨found', rest'', hfound', hanswers'.hit, fun hmiss => ?_⟩
              obtain ⟨hsame, hnone'⟩ := hanswers'.miss hmiss
              refine ⟨hsame, fun a ha hnot => ?_⟩
              by_cases hmiddle : a ∈ rest'
              · exact hnone a hmiddle hnot
              · exact hnone' a ha hmiddle

theorem searchFor_answers (role : RoleId) (hcomposite : composite ∈ roles.ids)
    {visited visited' : Finset RoleId}
    (h : (compositeSearch roles it).visit fuel visited composite = some visited') :
    ∃ found rest, roles.searchFor it role fuel composite visited = some (found, rest) ∧
      Answers roles role visited visited' found rest := by
  induction fuel generalizing composite visited visited' with
  | zero => cases h
  | succ fuel ih =>
      rw [Search.visit] at h
      rw [Roles.searchFor]
      by_cases hseen : composite ∈ visited
      · rw [if_pos (show (compositeSearch roles it).seen visited composite = true from
          decide_eq_true hseen)] at h
        cases h
        rw [if_pos hseen]
        exact ⟨false, visited, rfl, fun h => absurd h Bool.false_ne_true,
        fun _ => ⟨rfl, fun a ha hnot => absurd ha hnot⟩⟩
      · have hknown := (compositeSearch roles it).next_mem composite hcomposite
        have hvisited : ¬ (compositeSearch roles it).seen visited composite = true := by
          rw [compositeSearch, decide_eq_true_eq]
          exact hseen
        rw [if_neg hvisited, if_neg (show ¬ (compositeSearch roles it).stop composite = true from
          Bool.false_ne_true)] at h
        rw [if_neg hseen]
        have hinserted : insert composite visited ⊆ visited' := visitAll_subset hknown h
        dsimp only
        by_cases hempty : ¬ roles.isComposite composite
        · have hnext : (compositeSearch roles it).next composite = [] := by
            show (it.order (roles.getComposites composite)).filter roles.isComposite = []
            rw [order_eq_nil (composites_eq_empty hempty), List.filter_nil]
          rw [hnext] at h
          cases h
          rw [if_pos hempty]
          refine ⟨false, _, rfl, fun h => absurd h Bool.false_ne_true,
        fun _ => ⟨rfl, fun a ha hnot => ?_⟩⟩
          obtain rfl := (Finset.mem_insert.mp ha).resolve_right hnot
          rw [composites_eq_empty hempty]
          exact Finset.notMem_empty role
        · rw [if_neg hempty]
          by_cases hdirect : role ∈ roles.getComposites composite
          · rw [if_pos hdirect]
            exact ⟨true, _, rfl,
              fun _ => ⟨composite, hinserted (Finset.mem_insert_self _ _), hdirect⟩,
              fun h => absurd h.symm Bool.false_ne_true⟩
          · rw [if_neg hdirect]
            have horder : ∀ x ∈ it.order (roles.getComposites composite), x ∈ roles.ids :=
              fun x hx => roles.composite_mem composite hcomposite x ((it.mem_order _ x).mp hx)
            obtain ⟨found, rest, hfound, hanswers⟩ :=
              findFirst_answers horder (fun x hx _ _ hvisit => ih (horder x hx) hvisit) h
            refine ⟨found, rest, hfound, hanswers.hit, fun hmiss => ?_⟩
            obtain ⟨hsame, hnone⟩ := hanswers.miss hmiss
            refine ⟨hsame, fun a ha hnot => ?_⟩
            by_cases heq : a = composite
            · exact heq ▸ hdirect
            · exact hnone a ha (fun hmem => (Finset.mem_insert.mp hmem).elim heq hnot)

theorem reach_composite {a b c : RoleId} (h : ReflTransGen roles.IsComposite a b)
    (hc : c ∈ roles.getComposites b) : ReflTransGen (compositeSearch roles it).Edge a b := by
  induction h generalizing c with
  | refl => exact .refl
  | @tail d b _ hedge ih =>
      refine (ih hedge).tail (List.mem_filter.mpr ⟨(it.mem_order _ b).mpr hedge, ?_⟩)
      exact decide_eq_true ⟨c, hc⟩

theorem reach_of_composite {a b : RoleId} (h : ReflTransGen (compositeSearch roles it).Edge a b) :
    ReflTransGen roles.IsComposite a b :=
  ReflTransGen.mono (fun _ d hedge => (it.mem_order _ d).mp (List.mem_of_mem_filter hedge)) _ _ h

/-- `searchFor` ends and finds exactly what can be reached in one or more steps. -/
theorem searchFor_spec (it : Iteration) (hcomposite : composite ∈ roles.ids)
    (hfuel : roles.ids.card < fuel) (role : RoleId) :
    ∃ found visited, roles.searchFor it role fuel composite ∅ = some (found, visited) ∧
      (found = true ↔ TransGen roles.IsComposite composite role) := by
  obtain ⟨visited', hvisit, hcovers⟩ := Search.visit_covers (S := compositeSearch roles it)
    (s := ∅) hcomposite (Nat.lt_of_le_of_lt (Search.card_unseen_le ∅) hfuel)
  obtain ⟨found, rest, hfound, hanswers⟩ := searchFor_answers role hcomposite hvisit
  have hnone : ∀ a, (compositeSearch roles it).seen ∅ a = false := fun a => by
    simp [compositeSearch]
  have hseen (a : RoleId) : a ∈ visited' ↔
      ReflTransGen (compositeSearch roles it).Edge composite a := by
    have hiff := hcovers.seen_iff (b := a) hnone fun _ => rfl
    rw [compositeSearch, decide_eq_true_eq] at hiff
    rw [hiff]
    simp [compositeSearch]
  refine ⟨found, rest, hfound, ?_⟩
  rw [TransGen.tail'_iff]
  cases found with
  | true =>
      obtain ⟨a, ha, hmem⟩ := hanswers.hit rfl
      exact iff_of_true rfl ⟨a, reach_of_composite ((hseen a).mp ha), hmem⟩
  | false =>
      refine iff_of_false Bool.false_ne_true ?_
      rintro ⟨a, ha, hmem⟩
      exact (hanswers.miss rfl).2 a ((hseen a).mpr (reach_composite ha hmem))
        (Finset.notMem_empty a) hmem

/-- `hasRole` ends and finds exactly what can be reached. -/
theorem hasRole_spec (it : Iteration) {self : RoleId} (hself : self ∈ roles.ids)
    (hfuel : roles.ids.card < fuel) (role : RoleId) :
    ∃ had, roles.hasRole it fuel self role = some had ∧
      (had = true ↔ ReflTransGen roles.IsComposite self role) := by
  rw [Roles.hasRole]
  by_cases heq : self = role
  · subst heq
    exact ⟨true, if_pos rfl, iff_of_true rfl .refl⟩
  · obtain ⟨found, visited, hfound, hiff⟩ := searchFor_spec it hself hfuel role
    refine ⟨found, by rw [if_neg heq, hfound]; rfl, ?_⟩
    rw [hiff, reflTransGen_iff_eq_or_transGen, or_iff_right (Ne.symm heq)]

end

/-! ## `getAccess` -/

section

variable {roles : Roles} {it : Iteration} {fuel : Nat}

def Roles.Closure (roles : Roles) (start : RoleId → Prop) (role : RoleId) : Prop :=
  ∃ a, start a ∧ ReflTransGen roles.IsComposite a role

theorem reach_mem {a b : RoleId} (h : ReflTransGen roles.IsComposite a b) (ha : a ∈ roles.ids) :
    b ∈ roles.ids := by
  induction h with
  | refl => exact ha
  | tail _ hedge ih => exact roles.composite_mem _ ih _ hedge

/-- What is requested for pairs of a role of the user and a role of the scope. -/
structure Grants (roles : Roles) (pairs : RoleId → RoleId → Prop)
    (requested requested' : Finset RoleId) : Prop where
  kept : requested ⊆ requested'
  sound : ∀ a ∈ requested', a ∈ requested ∨ ∃ role scope, pairs role scope ∧
    ReflTransGen roles.IsComposite role a ∧ ReflTransGen roles.IsComposite scope a
  complete : ∀ role scope, pairs role scope → ∀ a, ReflTransGen roles.IsComposite role a →
    ReflTransGen roles.IsComposite scope a →
    ∃ c ∈ requested', ReflTransGen roles.IsComposite c a

theorem Grants.trans {pairs pairs' : RoleId → RoleId → Prop}
    {requested requested' requested'' : Finset RoleId}
    (h : Grants roles pairs requested requested')
    (h' : Grants roles pairs' requested' requested'') :
    Grants roles (fun role scope => pairs role scope ∨ pairs' role scope)
      requested requested'' where
  kept := h.kept.trans h'.kept
  sound a ha := by
    rcases h'.sound a ha with hmiddle | ⟨role, scope, hpair, hreach⟩
    · exact (h.sound a hmiddle).imp_right fun ⟨role, scope, hpair, hreach⟩ =>
        ⟨role, scope, .inl hpair, hreach⟩
    · exact .inr ⟨role, scope, .inr hpair, hreach⟩
  complete role scope hpair a hrole hscope := by
    rcases hpair with hpair | hpair
    · obtain ⟨c, hc, hreach⟩ := h.complete role scope hpair a hrole hscope
      exact ⟨c, h'.kept hc, hreach⟩
    · exact h'.complete role scope hpair a hrole hscope

theorem grants_foldlM {f : Finset RoleId → RoleId → Option (Finset RoleId)}
    {pairs : RoleId → RoleId → RoleId → Prop} {xs : List RoleId}
    (h : ∀ x ∈ xs, ∀ requested, ∃ requested', f requested x = some requested' ∧
      Grants roles (pairs x) requested requested') (requested : Finset RoleId) :
    ∃ requested', xs.foldlM f requested = some requested' ∧
      Grants roles (fun role scope => ∃ x ∈ xs, pairs x role scope) requested requested' := by
  induction xs generalizing requested with
  | nil =>
      exact ⟨requested, rfl, subset_rfl, fun a ha => .inl ha,
        fun _ _ ⟨x, hx, _⟩ => absurd hx List.not_mem_nil⟩
  | cons x rest ih =>
      obtain ⟨middle, hfirst, hgrants⟩ := h x List.mem_cons_self requested
      obtain ⟨requested', hloop, hgrants'⟩ :=
        ih (fun y hy => h y (List.mem_cons_of_mem x hy)) middle
      refine ⟨requested', ?_, ?_⟩
      · rw [List.foldlM_cons, hfirst]
        exact hloop
      · have hboth := hgrants.trans hgrants'
        refine ⟨hboth.kept, fun a ha => ?_, fun role scope hpair => ?_⟩
        · refine (hboth.sound a ha).imp_right fun ⟨role, scope, hpair, hreach⟩ => ?_
          exact ⟨role, scope, (List.exists_mem_cons_iff _ _ _).mpr hpair, hreach⟩
        · exact hboth.complete role scope ((List.exists_mem_cons_iff _ _ _).mp hpair)

/-- One call of `applyScope` requests roles that both can reach, and enough of them. -/
theorem applyScope_grants (it : Iteration) {role desired : RoleId} (hrole : role ∈ roles.ids)
    (hdesired : desired ∈ roles.ids) (hfuel : roles.ids.card < fuel) (requested : Finset RoleId) :
    ∃ s, applyScope roles it (roles.hasRole it fuel role) fuel ⟨∅, requested⟩ desired = some s ∧
      Grants roles (fun a b => a = role ∧ b = desired) requested s.requested := by
  have hspec := hasRole_spec it hrole hfuel
  choose had hhas hhad using hspec
  obtain ⟨s, hvisit, hcovers⟩ := Search.visit_covers (S := scopeSearch roles it had)
    (s := ⟨∅, requested⟩) hdesired (Nat.lt_of_le_of_lt (Search.card_unseen_le _) hfuel)
  have hedge (a b : RoleId) : (scopeSearch roles it had).Edge a b ↔ roles.IsComposite a b :=
    it.mem_order _ b
  have hseen (a : RoleId) : (scopeSearch roles it had).seen s a = true ↔ a ∈ s.visited :=
    decide_eq_true_iff
  have hnone : ∀ a, (scopeSearch roles it had).seen ⟨∅, requested⟩ a = false := fun a => by
    simp [scopeSearch]
  -- the requested roles are those visited ones that the user's role has
  have hrequested : ∀ a, a ∈ s.requested ↔ a ∈ requested ∨ a ∈ s.visited ∧ had a = true := by
    refine Search.visit_invariant
      (I := fun s : Scope => ∀ a, a ∈ s.requested ↔ a ∈ requested ∨ a ∈ s.visited ∧ had a = true)
      (fun s b _ hs a => ?_) hdesired hvisit (fun a => by simp)
    show a ∈ (if had b then insert b s.requested else s.requested) ↔
      a ∈ requested ∨ a ∈ insert b s.visited ∧ had a = true
    cases hb : had b with
    | false =>
        rw [if_neg Bool.false_ne_true, hs, Finset.mem_insert]
        refine or_congr_right (and_congr_left fun ha => (or_iff_right ?_).symm)
        rintro rfl
        rw [hb] at ha
        cases ha
    | true =>
        rw [if_pos rfl, Finset.mem_insert, Finset.mem_insert, hs]
        constructor
        · rintro (rfl | hold | ⟨hvisited, ha⟩)
          · exact .inr ⟨.inl rfl, hb⟩
          · exact .inl hold
          · exact .inr ⟨.inr hvisited, ha⟩
        · rintro (hold | ⟨rfl | hvisited, ha⟩)
          · exact .inr (.inl hold)
          · exact .inl rfl
          · exact .inr (.inr ⟨hvisited, ha⟩)
  have hmono {a b : RoleId} (h : ReflTransGen (scopeSearch roles it had).Edge a b) :
      ReflTransGen roles.IsComposite a b := ReflTransGen.mono (fun a b => (hedge a b).mp) _ _ h
  refine ⟨s, (applyScope_eq_visit hhas _ _).trans hvisit, ?_, ?_, ?_⟩
  · exact fun a ha => (hrequested a).mpr (.inl ha)
  · intro a ha
    refine ((hrequested a).mp ha).imp_right fun ⟨hvisited, hha⟩ => ?_
    obtain ⟨root, hroot, hreach⟩ := hcovers.reached a ((hseen a).mpr hvisited) (hnone a)
    rw [List.mem_singleton.mp hroot] at hreach
    exact ⟨role, desired, ⟨rfl, rfl⟩, (hhad a).mp hha, hmono hreach⟩
  · rintro _ desired ⟨rfl, rfl⟩ a hroleReach hdesiredReach
    have hpath : ReflTransGen (scopeSearch roles it had).Edge desired a :=
      ReflTransGen.mono (fun a b => (hedge a b).mpr) _ _ hdesiredReach
    rcases hcovers.complete hnone List.mem_cons_self hpath with ha | ⟨c, hc, hstop, hreach⟩
    · exact ⟨a, (hrequested a).mpr (.inr ⟨(hseen a).mp ha, (hhad a).mpr hroleReach⟩), .refl⟩
    · exact ⟨c, (hrequested c).mpr (.inr ⟨(hseen c).mp hc, hstop⟩), hmono hreach⟩

theorem mem_scopeMappings {client : ClientModel} {clientScopes : List ClientScopeModel}
    {a : RoleId} : a ∈ scopeMappings client clientScopes ↔
      a ∈ client.getRoles ∨ ∃ scope ∈ clientScopes, a ∈ scope.getScopeMappings := by
  rw [scopeMappings]
  generalize client.getRoles = acc
  induction clientScopes generalizing acc with
  | nil => simp
  | cons scope rest ih =>
      rw [List.foldl_cons, ih, Finset.mem_union, List.exists_mem_cons_iff, or_assoc]

variable {t : Table} {groupMappings : GroupId → List RoleId} {user : UserModel}

def Inherited (t : Table) (groupMappings : GroupId → List RoleId) (group : GroupId)
    (a : RoleId) : Prop :=
  ∃ ancestor, ReflTransGen (ParentWalk.IsParent t.getParentId) group ancestor ∧
    a ∈ groupMappings ancestor

theorem mem_addGroupRoles (ht : t.Forest) {group : GroupId} {acc mappings : List RoleId}
    (h : t.addGroupRoles groupMappings fuel group acc = some mappings) (a : RoleId) :
    a ∈ mappings ↔ a ∈ acc ∨ Inherited t groupMappings group a := by
  induction fuel generalizing group acc with
  | zero => cases h
  | succ fuel ih =>
      rw [Table.addGroupRoles, ht.getParent_eq] at h
      have hself : Inherited t groupMappings group a ↔ a ∈ groupMappings group ∨
          ∃ p, t.getParentId group = some p ∧ Inherited t groupMappings p a := by
        constructor
        · rintro ⟨ancestor, hreach, ha⟩
          rcases ReflTransGen.cases_head hreach with rfl | ⟨p, hp, hreach⟩
          · exact .inl ha
          · exact .inr ⟨p, hp, ancestor, hreach, ha⟩
        · rintro (ha | ⟨p, hp, ancestor, hreach, ha⟩)
          · exact ⟨group, .refl, ha⟩
          · exact ⟨ancestor, .head hp hreach, ha⟩
      rw [hself]
      cases hparent : t.getParentId group with
      | none =>
          rw [hparent] at h
          cases h
          simp
      | some p =>
          rw [hparent] at h
          rw [ih h, List.mem_append, or_assoc]
          simp

def Mapped (t : Table) (groupMappings : GroupId → List RoleId) (user : UserModel) (a : RoleId) :
    Prop :=
  a ∈ user.getRoleMappings ∨ ∃ group ∈ user.getGroups, Inherited t groupMappings group a

theorem addGroupsRoles_spec (groupMappings : GroupId → List RoleId) (ht : t.Forest)
    (hgroups : ∀ group ∈ user.getGroups, t.Exists group)
    (hfuel : t.nextId ≤ fuel) : ∃ mappings, addGroupsRoles t groupMappings fuel user =
      some mappings ∧ ∀ a, a ∈ mappings ↔ Mapped t groupMappings user a := by
  rw [addGroupsRoles]
  unfold Mapped
  generalize user.getRoleMappings = acc
  generalize user.getGroups = groups at hgroups ⊢
  induction groups generalizing acc with
  | nil => exact ⟨acc, rfl, by simp⟩
  | cons group rest ih =>
      obtain ⟨hgroup, hrest⟩ := List.forall_mem_cons.mp hgroups
      obtain ⟨middle, hfirst⟩ := Option.isSome_iff_exists.mp
        (ht.addGroupRoles_isSome groupMappings acc hgroup hfuel)
      obtain ⟨mappings, hloop, hmem⟩ := ih middle hrest
      refine ⟨mappings, ?_, fun a => ?_⟩
      · rw [List.foldlM_cons, hfirst]
        exact hloop
      · rw [hmem, mem_addGroupRoles ht hfirst, List.exists_mem_cons_iff, or_assoc]

end

/-! ## The token -/

section

variable {t : Table} {groupMappings : GroupId → List RoleId} {roles : Roles} {it : Iteration}
  {fuel : Nat} {user : UserModel} {client : ClientModel} {clientScopes : List ClientScopeModel}

def Scoped (client : ClientModel) (clientScopes : List ClientScopeModel) (a : RoleId) : Prop :=
  a ∈ client.getRoles ∨ ∃ scope ∈ clientScopes, a ∈ scope.getScopeMappings

structure Known (t : Table) (groupMappings : GroupId → List RoleId) (roles : Roles)
    (user : UserModel) (client : ClientModel) (clientScopes : List ClientScopeModel) : Prop where
  groups : ∀ group ∈ user.getGroups, t.Exists group
  mapped : ∀ a, Mapped t groupMappings user a → a ∈ roles.ids
  offered : ∀ a, Scoped client clientScopes a → a ∈ roles.ids

theorem getAccess_closure (it : Iteration) (ht : t.Forest)
    (hknown : Known t groupMappings roles user client clientScopes)
    (hgroups : t.nextId ≤ fuel) (hfuel : roles.ids.card < fuel) :
    ∃ requested, getAccess t groupMappings roles it fuel user client clientScopes =
        some requested ∧ (∀ a ∈ requested, a ∈ roles.ids) ∧
      ∀ a, roles.Closure (· ∈ requested) a ↔ roles.Closure (Mapped t groupMappings user) a ∧
        (client.isFullScopeAllowed = false → roles.Closure (Scoped client clientScopes) a) := by
  obtain ⟨mappings, hmappings, hmem⟩ :=
    addGroupsRoles_spec groupMappings ht hknown.groups hgroups
  have hmapped (a : RoleId) : a ∈ mappings.toFinset ↔ Mapped t groupMappings user a := by
    rw [List.mem_toFinset, hmem]
  rw [getAccess, hmappings, Option.bind_some]
  cases hfull : client.isFullScopeAllowed with
  | true =>
      refine ⟨mappings.toFinset, rfl, fun a ha => hknown.mapped a ((hmapped a).mp ha), ?_⟩
      intro a
      simp only [hmapped]
      exact (and_iff_left nofun).symm
  | false =>
      rw [if_neg Bool.false_ne_true]
      have hscoped (a : RoleId) : a ∈ it.order (scopeMappings client clientScopes) ↔
          Scoped client clientScopes a := by
        rw [it.mem_order, mem_scopeMappings]
        rfl
      have hroles (a : RoleId) : a ∈ it.order mappings.toFinset ↔
          Mapped t groupMappings user a := by rw [it.mem_order, hmapped]
      obtain ⟨requested, hloop, hgrants⟩ := grants_foldlM
        (f := applyScopes roles it fuel (scopeMappings client clientScopes))
        (fun role hrole requested => grants_foldlM (fun desired hdesired requested => by
          obtain ⟨s, hs, hgrants⟩ := applyScope_grants it
            (hknown.mapped role ((hroles role).mp hrole))
            (hknown.offered desired ((hscoped desired).mp hdesired)) hfuel requested
          exact ⟨s.requested, by rw [hs, Option.map_some], hgrants⟩) requested) ∅
      have hsound : ∀ a ∈ requested, roles.Closure (Mapped t groupMappings user) a ∧
          roles.Closure (Scoped client clientScopes) a := by
        intro a ha
        obtain ⟨role, scope, ⟨x, hx, y, hy, rfl, rfl⟩, hrole, hscope⟩ :=
          (hgrants.sound a ha).resolve_left (Finset.notMem_empty a)
        exact ⟨⟨role, (hroles role).mp hx, hrole⟩, ⟨scope, (hscoped scope).mp hy, hscope⟩⟩
      refine ⟨requested, hloop, fun a ha => ?_, fun a => ⟨?_, ?_⟩⟩
      · obtain ⟨⟨m, hm, hreach⟩, -⟩ := hsound a ha
        exact reach_mem hreach (hknown.mapped m hm)
      · rintro ⟨c, hc, hreach⟩
        obtain ⟨⟨m, hm, hmc⟩, ⟨d, hd, hdc⟩⟩ := hsound c hc
        exact ⟨⟨m, hm, hmc.trans hreach⟩, fun _ => ⟨d, hd, hdc.trans hreach⟩⟩
      · rintro ⟨⟨m, hm, hreach⟩, hscope⟩
        obtain ⟨d, hd, hreach'⟩ := hscope rfl
        obtain ⟨c, hc, hca⟩ := hgrants.complete m d
          ⟨m, (hroles m).mpr hm, d, (hscoped d).mpr hd, rfl, rfl⟩ a hreach hreach'
        exact ⟨c, hc, hca⟩

theorem addComposites_closure (it : Iteration) {requested : Finset RoleId}
    (hrequested : ∀ a ∈ requested, a ∈ roles.ids) (hfuel : roles.ids.card < fuel) :
    ∃ token, (it.order requested).foldlM (addComposites roles it fuel) .new = some token ∧
      ∀ container name, token.isUserInRole container name = true ↔ ∃ role ∈ roles.ids,
        roles.getContainer role = container ∧ roles.getName role = name ∧
          roles.Closure (· ∈ requested) role := by
  have horder : ∀ a ∈ it.order requested, a ∈ roles.ids :=
    fun a ha => hrequested a ((it.mem_order _ a).mp ha)
  have hempty : ∀ container name, AccessToken.new.isUserInRole container name = false := by
    intro container name
    cases container <;> rfl
  obtain ⟨token, hvisit, hcovers⟩ := Search.visitAll_covers (S := tokenSearch roles it)
    (s := .new) horder (Nat.lt_of_le_of_lt (Search.card_unseen_le _) hfuel)
  have hnone : ∀ a, (tokenSearch roles it).seen .new a = false := fun a => by
    simp [tokenSearch, hempty]
  have hseen (a : RoleId) : (tokenSearch roles it).seen token a = true ↔
      a ∈ roles.ids ∧ token.isUserInRole (roles.getContainer a) (roles.getName a) = true :=
    decide_eq_true_iff
  have hedge (a b : RoleId) : (tokenSearch roles it).Edge a b ↔ roles.IsComposite a b :=
    it.mem_order _ b
  -- every entry of the token is the name of a role that has been visited
  have hentries : ∀ container name, token.isUserInRole container name = true →
      ∃ a ∈ roles.ids, roles.getContainer a = container ∧ roles.getName a = name := by
    refine Search.visitAll_invariant (I := fun token : AccessToken => ∀ container name,
      token.isUserInRole container name = true →
        ∃ a ∈ roles.ids, roles.getContainer a = container ∧ roles.getName a = name)
      (fun token a ha htoken container name hin => ?_) horder hvisit (fun container name hin => ?_)
    · rcases isUserInRole_addRole.mp hin with ⟨rfl, rfl⟩ | hold
      · exact ⟨a, ha, rfl, rfl⟩
      · exact htoken container name hold
    · rw [hempty] at hin
      cases hin
  have hclosure (a : RoleId) : (tokenSearch roles it).seen token a = true ↔
      roles.Closure (· ∈ requested) a := by
    rw [hcovers.seen_iff hnone fun _ => rfl]
    constructor
    · rintro ⟨c, hc, hreach⟩
      exact ⟨c, (it.mem_order _ c).mp hc,
        ReflTransGen.mono (fun a b => (hedge a b).mp) _ _ hreach⟩
    · rintro ⟨c, hc, hreach⟩
      exact ⟨c, (it.mem_order _ c).mpr hc,
        ReflTransGen.mono (fun a b => (hedge a b).mpr) _ _ hreach⟩
  refine ⟨token, ?_, fun container name => ⟨fun hin => ?_, ?_⟩⟩
  · rw [← hvisit]
    exact foldlM_congr (fun token a ha => addComposites_eq_visit (horder a ha) token) _
  · obtain ⟨a, ha, rfl, rfl⟩ := hentries container name hin
    exact ⟨a, ha, rfl, rfl, (hclosure a).mp ((hseen a).mpr ⟨ha, hin⟩)⟩
  · rintro ⟨a, -, rfl, rfl, hreach⟩
    exact ((hseen a).mp ((hclosure a).mpr hreach)).2

/-- The roles of the token are those that both the user and the scope can reach; with the full
scope they are those that the user can reach.  All recursions end. -/
theorem createClientAccessToken_roles (it : Iteration) (ht : t.Forest)
    (hknown : Known t groupMappings roles user client clientScopes)
    (hgroups : t.nextId ≤ fuel) (hfuel : roles.ids.card < fuel) :
    ∃ token, createClientAccessToken t groupMappings roles it fuel user client clientScopes =
        some token ∧
      ∀ container name, token.isUserInRole container name = true ↔ ∃ role ∈ roles.ids,
        roles.getContainer role = container ∧ roles.getName role = name ∧
          roles.Closure (Mapped t groupMappings user) role ∧
          (client.isFullScopeAllowed = false →
            roles.Closure (Scoped client clientScopes) role) := by
  obtain ⟨requested, haccess, hids, hclosure⟩ :=
    getAccess_closure it ht hknown hgroups hfuel
  obtain ⟨token, htoken, hroles⟩ := addComposites_closure it hids hfuel
  refine ⟨token, ?_, fun container name => ?_⟩
  · rw [createClientAccessToken, haccess, Option.bind_some, htoken]
  · rw [hroles]
    simp only [hclosure]

end

/-! A user of a subgroup, and two roles that are composites of each other. -/

def sampleTable : Table :=
  ⟨fun group => if group = 0 then some ⟨some "staff", none⟩
    else if group = 1 then some ⟨some "sales", some 0⟩ else none, 2⟩

def sampleRoles : Roles where
  ids := {0, 1, 2}
  getContainer role := if role = 1 then .client "shop" else .realm
  getName role := if role = 2 then "view" else "manage"
  getComposites role := if role = 0 then {1} else if role = 1 then {0, 2} else ∅
  isSurrogateAuthRequired _ := false
  composite_mem := by decide
  unique := by decide

def sampleIteration : Iteration :=
  ⟨fun s => s.sort (· ≤ ·), fun s _ => Finset.mem_sort (s := s) (· ≤ ·)⟩

theorem sampleTable_forest : sampleTable.Forest := by
  have hparent : ∀ {group p}, sampleTable.getParentId group = some p → group = 1 ∧ p = 0 := by
    intro group p h
    rw [Table.getParentId, sampleTable] at h
    dsimp only at h
    split_ifs at h with hzero hone
    · cases h
    · exact ⟨hone, (Option.some.inj h).symm⟩
    · cases h
  refine ⟨⟨fun h => ?_, fun {group} h => ?_⟩, fun a hcycle => ?_⟩
  · rw [(hparent h).2]
    exact rfl
  · rw [Table.Exists, sampleTable] at h
    dsimp only at h
    split_ifs at h with hzero hone
    · exact hzero ▸ Nat.zero_lt_two
    · exact hone ▸ Nat.one_lt_two
    · cases h
  · have hless : ∀ b, TransGen (ParentWalk.IsParent sampleTable.getParentId) a b → b < a := by
      intro b hpath
      induction hpath with
      | single hlink =>
          obtain ⟨rfl, rfl⟩ := hparent hlink
          exact Nat.zero_lt_one
      | tail _ hlink ih =>
          have hstep := hparent hlink
          exact Nat.lt_trans (by rw [hstep.1, hstep.2]; exact Nat.zero_lt_one) ih
    exact Nat.lt_irrefl a (hless a hcycle)

def sampleMappings (group : GroupId) : List RoleId := if group = 0 then [0] else []

theorem sample_known :
    Known sampleTable sampleMappings sampleRoles ⟨[], [1]⟩ ⟨false, ∅⟩ [⟨{2}⟩] := by
  refine ⟨by decide, fun a ha => ?_, fun a ha => ?_⟩
  · obtain ⟨group, -, ancestor, -, hmem⟩ := ha.resolve_left List.not_mem_nil
    rw [sampleMappings] at hmem
    split_ifs at hmem
    · rw [List.mem_singleton.mp hmem]
      decide
    · cases hmem
  · obtain ⟨scope, hscope, hmem⟩ := ha.resolve_left (Finset.notMem_empty a)
    rw [List.mem_singleton.mp hscope] at hmem
    rw [Finset.mem_singleton.mp hmem]
    decide

theorem createClientAccessToken_sample :
    ∃ token, createClientAccessToken sampleTable sampleMappings sampleRoles sampleIteration 4
        ⟨[], [1]⟩ ⟨false, ∅⟩ [⟨{2}⟩] = some token ∧ token.isUserInRole .realm "view" = true := by
  obtain ⟨token, htoken, hroles⟩ := createClientAccessToken_roles sampleIteration
    sampleTable_forest sample_known (by decide) (show sampleRoles.ids.card < 4 by decide)
  refine ⟨token, htoken, (hroles .realm "view").mpr ⟨2, by decide, by decide, by decide, ?_, ?_⟩⟩
  · have hparent : ReflTransGen (ParentWalk.IsParent sampleTable.getParentId) 1 0 :=
      .single rfl
    refine ⟨0, .inr ⟨1, List.mem_cons_self, 0, hparent, by decide⟩, ?_⟩
    exact (ReflTransGen.single (show (1 : RoleId) ∈ sampleRoles.getComposites 0 by decide)).tail
      (show (2 : RoleId) ∈ sampleRoles.getComposites 1 by decide)
  · exact fun _ => ⟨2, .inr ⟨_, List.mem_cons_self, by decide⟩, .refl⟩

end Keycloak.RoleScope
