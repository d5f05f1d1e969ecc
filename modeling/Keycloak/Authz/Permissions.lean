import Keycloak.Authz.PermissionCollector
import Mathlib.Data.Finset.Card
import Mathlib.Data.Finset.Dedup

/-!
# The resource permissions of a request

`Permissions` collects the resource permissions of an identity: the resources of the resource
server, those of the user, and those granted to the user by permission tickets.  One limit is
shared by all three.
-/

namespace Keycloak.Authz

structure GrantedTicket where
  resource : Resource

namespace Permissions

section

variable (store : Store) (server : ResourceServer)

/-- The scopes of a resource with those it inherits from the resource server's resources of its
type. -/
def populateTypedScopes (resource : Resource) : List Scope :=
  match resource.type with
  | none => resource.scopes
  | some type =>
      if resource.owner = server.id then resource.scopes
      else
        (store.findByType type).foldl (fun scopes resource1 =>
          if resource1.owner = server.id then
            resource1.scopes.foldl (fun scopes typeScope =>
              if typeScope ∈ scopes then scopes else scopes ++ [typeScope]) scopes
          else scopes) resource.scopes

def createRequestedPermissions (identity : Nat) (resource : Resource)
    (requestedScopes : List Scope) : ResourcePermission :=
  ⟨identity, some resource,
    if requestedScopes.isEmpty then populateTypedScopes store server resource
    else requestedScopes.filter fun scope => resource.scopes.contains scope⟩

def createResourcePermissions (identity : Nat) (resource : Resource) : ResourcePermission :=
  ⟨identity, some resource,
    if resource.scopes.isEmpty then populateTypedScopes store server resource
    else resource.scopes⟩

def addOwned (found : Int × List ResourcePermission) (resource : Resource) :
    Int × List ResourcePermission :=
  let limit := found.1 - 1
  if 0 ≤ limit then
    (limit, found.2 ++ [createResourcePermissions store server found.2.length resource])
  else (limit, found.2)

/-- The loop over the tickets, whose map is kept in the order of its entries.  `first` is the
identity of the first resource permission. -/
def userManaged (first : Nat) :
    List GrantedTicket → Int → List (String × ResourcePermission) →
      List (String × ResourcePermission)
  | [], _, permissions => permissions
  | ticket :: rest, limit, permissions =>
      let id := ticket.resource.id
      let (limit, permissions) :=
        match permissions.lookup id with
        | none =>
            (limit - 1, permissions ++ [(id, ⟨first + permissions.length, ticket.resource, []⟩)])
        | some _ => (limit, permissions)
      if limit - 1 ≤ 0 then permissions else userManaged first rest (limit - 1) permissions

/-- `Permissions.all`.  Without a limit it is that of a `long`. -/
def all (findByOwner : String → List Resource) (identityId : String)
    (findGranted : List GrantedTicket) (limit : Option Int) : List ResourcePermission :=
  let found := (findByOwner server.id).foldl (addOwned store server) (limit.getD (2 ^ 63 - 1), [])
  let found := (findByOwner identityId).foldl (addOwned store server) found
  if findGranted.isEmpty then found.2
  else found.2 ++ (userManaged found.2.length findGranted found.1 []).map Prod.snd

end

theorem mem_populateTypedScopes {store : Store} {server : ResourceServer} {resource : Resource}
    {scope : Scope} (h : scope ∈ resource.scopes) :
    scope ∈ populateTypedScopes store server resource := by
  have hscopes : ∀ (added scopes : List Scope), scope ∈ scopes →
      scope ∈ added.foldl (fun scopes typeScope =>
        if typeScope ∈ scopes then scopes else scopes ++ [typeScope]) scopes := by
    intro added
    induction added with
    | nil => exact fun _ hmem => hmem
    | cons typeScope rest ih =>
        intro scopes hmem
        rw [List.foldl_cons]
        apply ih
        split
        · exact hmem
        · exact List.mem_append_left _ hmem
  have hresources : ∀ (typed : List Resource) (scopes : List Scope), scope ∈ scopes →
      scope ∈ typed.foldl (fun scopes resource1 =>
        if resource1.owner = server.id then
          resource1.scopes.foldl (fun scopes typeScope =>
            if typeScope ∈ scopes then scopes else scopes ++ [typeScope]) scopes
        else scopes) scopes := by
    intro typed
    induction typed with
    | nil => exact fun _ hmem => hmem
    | cons resource1 rest ih =>
        intro scopes hmem
        rw [List.foldl_cons]
        apply ih
        split
        · exact hscopes _ _ hmem
        · exact hmem
  rw [populateTypedScopes]
  split
  · exact h
  · split
    · exact h
    · exact hresources _ _ h

/-! ## The limit -/

def ticketResources (granted : List GrantedTicket) : List String :=
  granted.map fun ticket => ticket.resource.id

/-- The limit is used up by the owners' resources, and then by one permission for each resource
with a ticket. -/
def TakesLimit (limit : Nat) (owned : List Resource) (granted : List GrantedTicket)
    (permissions : List ResourcePermission) : Prop :=
  permissions.length = min limit (owned.length + (ticketResources granted).dedup.length) ∧
    ∃ ids : List String, ids.Nodup ∧ ids ⊆ ticketResources granted ∧
      permissions.map (fun p => p.resource.map Resource.id) =
        ((owned.take limit).map Resource.id ++ ids).map some

section

variable {store : Store} {server : ResourceServer}

variable (store server) in
theorem foldl_addOwned (owned : List Resource) (limit : Int) (before : List ResourcePermission) :
    ∃ created, owned.foldl (addOwned store server) (limit, before) =
        (limit - owned.length, before ++ created) ∧
      created.map ResourcePermission.resource = (owned.take limit.toNat).map some := by
  induction owned generalizing limit before with
  | nil => exact ⟨[], by simp, by simp⟩
  | cons resource rest ih =>
      rw [List.foldl_cons, addOwned, List.length_cons]
      dsimp only
      by_cases hlimit : 0 ≤ limit - 1
      · obtain ⟨created, hfold, hcreated⟩ := ih (limit - 1)
          (before ++ [createResourcePermissions store server before.length resource])
        have htake : limit.toNat = (limit - 1).toNat + 1 := by omega
        rw [if_pos hlimit, hfold, htake, List.take_succ_cons, List.map_cons, ← hcreated]
        refine ⟨createResourcePermissions store server before.length resource :: created, ?_, rfl⟩
        rw [List.append_assoc, List.singleton_append, Prod.mk.injEq]
        exact ⟨by push_cast; omega, rfl⟩
      · obtain ⟨created, hfold, hcreated⟩ := ih (limit - 1) before
        have hzero : (limit - 1).toNat = 0 := by omega
        have hzero' : limit.toNat = 0 := by omega
        rw [hzero, List.take_zero] at hcreated
        rw [if_neg hlimit, hfold, hzero', List.take_zero]
        refine ⟨created, ?_, hcreated⟩
        rw [Prod.mk.injEq]
        exact ⟨by push_cast; omega, rfl⟩

/-! ## The loop over the tickets -/

structure Managed (permissions : List (String × ResourcePermission)) : Prop where
  nodup : (LinkedMap.keys permissions).Nodup
  resource : ∀ e ∈ permissions, e.2.resource.map Resource.id = some e.1

theorem Managed.append {permissions : List (String × ResourcePermission)}
    (h : Managed permissions) {ticket : GrantedTicket} (identity : Nat)
    (hnew : permissions.lookup ticket.resource.id = none) :
    Managed (permissions ++ [(ticket.resource.id, ⟨identity, ticket.resource, []⟩)]) where
  nodup := by
    rw [LinkedMap.keys_append, List.nodup_append]
    refine ⟨h.nodup, List.nodup_singleton _, fun k hk k' hk' => ?_⟩
    rw [List.mem_singleton.mp hk']
    rintro rfl
    exact LinkedMap.not_mem_keys_of_lookup hnew hk
  resource e he := by
    rcases List.mem_append.mp he with he | he
    · exact h.resource e he
    · rw [List.mem_singleton.mp he]
      rfl

/-- One ticket: the resource is added to the map, for two of the limit, or it has been seen, for
one. -/
theorem userManaged_cons (first : Nat) (ticket : GrantedTicket) (rest : List GrantedTicket)
    (limit : Int) {permissions : List (String × ResourcePermission)} (h : Managed permissions) :
    ∃ permissions' cost, Managed permissions' ∧
      userManaged first (ticket :: rest) limit permissions =
        (if limit - cost ≤ 0 then permissions'
        else userManaged first rest (limit - cost) permissions') ∧
      (LinkedMap.keys permissions').toFinset =
        insert ticket.resource.id (LinkedMap.keys permissions).toFinset ∧
      ((ticket.resource.id ∈ LinkedMap.keys permissions ∧ cost = 1 ∧
          permissions'.length = permissions.length) ∨
        (ticket.resource.id ∉ LinkedMap.keys permissions ∧ cost = 2 ∧
          permissions'.length = permissions.length + 1)) := by
  rw [userManaged]
  cases hlookup : permissions.lookup ticket.resource.id with
  | none =>
      have hnew := LinkedMap.not_mem_keys_of_lookup hlookup
      refine ⟨_, 2, h.append (first + permissions.length) hlookup, ?_, ?_, .inr ⟨hnew, rfl, ?_⟩⟩
      · have hcost : limit - 1 - 1 = limit - 2 := by omega
        dsimp only
        rw [hcost]
      · ext id
        rw [LinkedMap.keys_append, List.mem_toFinset, List.mem_append, Finset.mem_insert,
          List.mem_toFinset, or_comm]
        exact or_congr_left List.mem_singleton
      · rw [List.length_append, List.length_singleton]
  | some permission =>
      have hmem : ticket.resource.id ∈ LinkedMap.keys permissions :=
        List.mem_map.mpr ⟨_, LinkedMap.mem_of_lookup hlookup, rfl⟩
      refine ⟨permissions, 1, h, rfl, ?_, .inl ⟨hmem, rfl, rfl⟩⟩
      exact (Finset.insert_eq_of_mem (List.mem_toFinset.mpr hmem)).symm

/-- Each ticket of a new resource stands behind so few tickets, those of new resources counted
twice, that the limit is not used up in front of it. -/
def Reaches (limit : Int) (seen : Finset String) (granted : List GrantedTicket) : Prop :=
  ∀ earlier ticket later, granted = earlier ++ ticket :: later → ticket.resource.id ∉ seen →
    ticket.resource.id ∉ ticketResources earlier →
      earlier.length + ((ticketResources earlier).toFinset \ seen).card < limit

theorem card_sdiff_insert {seen ids : Finset String} {id : String} {cost : Int}
    (hcost : (id ∈ seen ∧ cost = 1) ∨ (id ∉ seen ∧ cost = 2)) :
    ((insert id ids \ seen).card : Int) + 1 = (ids \ insert id seen).card + cost := by
  rcases hcost with ⟨hmem, rfl⟩ | ⟨hnew, rfl⟩
  · rw [Finset.insert_eq_of_mem hmem, Finset.insert_sdiff_of_mem _ hmem]
  · have hinsert : insert id ids \ seen = insert id (ids \ insert id seen) := by
      ext x
      by_cases hx : x = id
      · simp [hx, hnew]
      · simp [hx]
    rw [hinsert, Finset.card_insert_of_notMem (by simp)]
    push_cast
    omega

theorem reaches_cons {limit cost : Int} {seen : Finset String} {ticket : GrantedTicket}
    {rest : List GrantedTicket} (hlimit : 0 < limit)
    (hcost : (ticket.resource.id ∈ seen ∧ cost = 1) ∨ (ticket.resource.id ∉ seen ∧ cost = 2)) :
    Reaches limit seen (ticket :: rest) ↔
      Reaches (limit - cost) (insert ticket.resource.id seen) rest := by
  have hcount : ∀ earlier : List GrantedTicket,
      ((ticketResources (ticket :: earlier)).toFinset \ seen).card + (1 : Int) =
        ((ticketResources earlier).toFinset \ insert ticket.resource.id seen).card + cost := by
    intro earlier
    rw [← card_sdiff_insert hcost, ticketResources, List.map_cons, List.toFinset_cons]
    rfl
  constructor
  · intro h earlier ticket' later hsplit hseen hearlier
    rw [Finset.mem_insert, not_or] at hseen
    have hlt := h (ticket :: earlier) ticket' later (by rw [hsplit]; rfl) hseen.2 (by
      rw [ticketResources, List.map_cons, List.mem_cons, not_or]
      exact ⟨hseen.1, hearlier⟩)
    have hcard := hcount earlier
    rw [List.length_cons] at hlt
    push_cast at hlt
    omega
  · intro h earlier ticket' later hsplit hseen hearlier
    cases earlier with
    | nil =>
        rw [ticketResources, List.map_nil, List.toFinset_nil, Finset.empty_sdiff]
        exact hlimit
    | cons ticket₀ earlier =>
        rw [List.cons_append, List.cons.injEq] at hsplit
        obtain ⟨rfl, hsplit⟩ := hsplit
        rw [ticketResources, List.map_cons, List.mem_cons, not_or] at hearlier
        have hlt := h earlier ticket' later hsplit (by
          rw [Finset.mem_insert, not_or]
          exact ⟨hearlier.1, hseen⟩) hearlier.2
        have hcard := hcount earlier
        rw [List.length_cons]
        push_cast
        omega

/-- Behind a limit that is used up, no ticket of a new resource may stand. -/
theorem reaches_of_nonpos {limit : Int} {seen : Finset String} {granted : List GrantedTicket}
    (hlimit : limit ≤ 0) :
    Reaches limit seen granted ↔ (ticketResources granted).toFinset ⊆ seen := by
  constructor
  · intro h
    induction granted using List.reverseRecOn with
    | nil => exact Finset.empty_subset _
    | append_singleton earlier ticket ih =>
        have hearlier := ih fun earlier' ticket' later hsplit =>
          h earlier' ticket' (later ++ [ticket]) (by rw [hsplit]; simp)
        intro id hid
        rw [ticketResources, List.map_append, List.mem_toFinset, List.mem_append] at hid
        by_contra hseen
        rcases hid with hid | hid
        · exact hseen (hearlier (List.mem_toFinset.mpr hid))
        · rw [List.map_singleton, List.mem_singleton] at hid
          subst hid
          have hlt := h earlier ticket [] rfl hseen fun hmem =>
            hseen (hearlier (List.mem_toFinset.mpr hmem))
          omega
  · intro h earlier ticket later hsplit hseen _
    refine absurd (h ?_) hseen
    rw [hsplit, ticketResources, List.mem_toFinset, List.map_append, List.map_cons]
    exact List.mem_append_right _ List.mem_cons_self

structure Visits (limit : Int) (granted : List GrantedTicket)
    (permissions permissions' : List (String × ResourcePermission)) : Prop where
  managed : Managed permissions'
  subset : (LinkedMap.keys permissions').toFinset ⊆
    (LinkedMap.keys permissions).toFinset ∪ (ticketResources granted).toFinset
  monotone : (LinkedMap.keys permissions).toFinset ⊆ (LinkedMap.keys permissions').toFinset
  bound : 2 * (permissions'.length : Int) ≤ 2 * permissions.length + max 2 (limit + 1)
  complete : 0 < limit → ((ticketResources granted).toFinset ⊆
    (LinkedMap.keys permissions').toFinset ↔
      Reaches limit (LinkedMap.keys permissions).toFinset granted)
  /-- The first ticket is taken up whatever the limit. -/
  first : granted ≠ [] → 0 < permissions'.length

theorem userManaged_visits (first : Nat) (granted : List GrantedTicket) (limit : Int)
    {permissions : List (String × ResourcePermission)} (h : Managed permissions) :
    Visits limit granted permissions (userManaged first granted limit permissions) := by
  induction granted generalizing limit permissions with
  | nil =>
      refine ⟨h, Finset.subset_union_left, Finset.Subset.refl _, ?_,
        fun _ => iff_of_true ?_ ?_, fun hne => absurd rfl hne⟩
      · rw [userManaged]
        omega
      · exact Finset.empty_subset _
      · intro earlier ticket later hsplit
        exact absurd hsplit.symm (List.append_ne_nil_of_right_ne_nil _ (List.cons_ne_nil _ _))
  | cons ticket rest ih =>
      obtain ⟨permissions', cost, hmanaged, heq, hkeys, hcase⟩ :=
        userManaged_cons first ticket rest limit h
      have hcost : (ticket.resource.id ∈ (LinkedMap.keys permissions).toFinset ∧ cost = 1) ∨
          (ticket.resource.id ∉ (LinkedMap.keys permissions).toFinset ∧ cost = 2) := by
        rw [List.mem_toFinset]
        exact hcase.imp (fun h => ⟨h.1, h.2.1⟩) fun h => ⟨h.1, h.2.1⟩
      have hlength : 2 * (permissions'.length : Int) ≤ 2 * permissions.length + 2 ∧
          (cost = 1 → permissions'.length = permissions.length) := by
        rcases hcase with ⟨-, hc, hl⟩ | ⟨-, hc, hl⟩ <;> omega
      have hids : (ticketResources (ticket :: rest)).toFinset =
          insert ticket.resource.id (ticketResources rest).toFinset := by
        rw [ticketResources, List.map_cons, List.toFinset_cons]
        rfl
      have hgrows : (LinkedMap.keys permissions).toFinset ⊆
          (LinkedMap.keys permissions').toFinset := by
        rw [hkeys]
        exact Finset.subset_insert _ _
      have hmem : ticket.resource.id ∈ (LinkedMap.keys permissions').toFinset := by
        rw [hkeys]
        exact Finset.mem_insert_self _ _
      have hfirst : ∀ map : List (String × ResourcePermission),
          ticket.resource.id ∈ (LinkedMap.keys map).toFinset → 0 < map.length := by
        intro map hid
        obtain ⟨e, he, -⟩ := List.mem_map.mp (List.mem_toFinset.mp hid)
        exact List.length_pos_of_mem he
      rw [heq]
      by_cases hstop : limit - cost ≤ 0
      · rw [if_pos hstop]
        refine ⟨hmanaged, ?_, hgrows, by omega, fun hlimit => ?_, fun _ => hfirst _ hmem⟩
        · rw [hkeys, hids, Finset.union_insert]
          exact Finset.insert_subset_insert _ Finset.subset_union_left
        · rw [reaches_cons hlimit hcost, reaches_of_nonpos hstop, ← hkeys, hids,
            Finset.insert_subset_iff, and_iff_right hmem]
      · rw [if_neg hstop]
        have hrest := ih (limit - cost) hmanaged
        have hbound := hrest.bound
        refine ⟨hrest.managed, ?_, hgrows.trans hrest.monotone, ?_, fun hlimit => ?_,
          fun _ => hfirst _ (hrest.monotone hmem)⟩
        · refine hrest.subset.trans ?_
          rw [hkeys, hids, Finset.insert_union, Finset.union_insert]
        · rcases hcase with ⟨-, hc, hl⟩ | ⟨-, hc, hl⟩ <;> omega
        · rw [reaches_cons hlimit hcost, ← hkeys, ← hrest.complete (by omega), hids,
            Finset.insert_subset_iff, and_iff_right (hrest.monotone hmem)]

variable (store server) in
/-- The resource permissions of the owners' resources, and those of the tickets behind them. -/
theorem exists_all (findByOwner : String → List Resource) (identityId : String)
    (granted : List GrantedTicket) (limit : Nat) :
    ∃ created managed, all store server findByOwner identityId granted (some limit) =
        created ++ managed.map Prod.snd ∧
      created.map ResourcePermission.resource =
        ((findByOwner server.id ++ findByOwner identityId).take limit).map some ∧
      (granted = [] ∧ managed = [] ∨ granted ≠ [] ∧
        Visits (limit - (findByOwner server.id ++ findByOwner identityId).length) granted []
          managed) := by
  obtain ⟨created, hfold, hcreated⟩ := foldl_addOwned store server
    (findByOwner server.id ++ findByOwner identityId) limit []
  rw [List.nil_append] at hfold
  have hall : all store server findByOwner identityId granted (some limit) =
      if granted.isEmpty then created else created ++ (userManaged created.length granted
        (limit - (findByOwner server.id ++ findByOwner identityId).length) []).map Prod.snd := by
    rw [all, ← List.foldl_append, Option.getD_some, hfold]
  have hempty : Managed [] := ⟨List.nodup_nil, fun e he => absurd he List.not_mem_nil⟩
  rw [Int.toNat_natCast] at hcreated
  by_cases hgranted : granted = []
  · refine ⟨created, [], ?_, hcreated, .inl ⟨hgranted, rfl⟩⟩
    rw [hall, hgranted, List.map_nil, List.append_nil]
    rfl
  · refine ⟨created, _, ?_, hcreated, .inr ⟨hgranted, userManaged_visits created.length granted _
      hempty⟩⟩
    rw [hall, if_neg (fun h => hgranted (List.isEmpty_iff.mp h))]

theorem keys_length {permissions : List (String × ResourcePermission)} (h : Managed permissions) :
    (LinkedMap.keys permissions).toFinset.card = permissions.length := by
  rw [List.toFinset_card_of_nodup h.nodup, LinkedMap.keys, List.length_map]

theorem ids_of_created {created : List ResourcePermission} {owned : List Resource} {limit : Nat}
    {granted : List GrantedTicket} {managed : List (String × ResourcePermission)}
    (hcreated : created.map ResourcePermission.resource = (owned.take limit).map some)
    (hmap : Managed managed)
    (hsubset : (LinkedMap.keys managed).toFinset ⊆ (ticketResources granted).toFinset) :
    ∃ ids : List String, ids.Nodup ∧ ids ⊆ ticketResources granted ∧
      (created ++ managed.map Prod.snd).map (fun p => p.resource.map Resource.id) =
        ((owned.take limit).map Resource.id ++ ids).map some := by
  refine ⟨LinkedMap.keys managed, hmap.nodup, fun id hid =>
    List.mem_toFinset.mp (hsubset (List.mem_toFinset.mpr hid)), ?_⟩
  have hids : (managed.map Prod.snd).map (fun p => p.resource.map Resource.id) =
      (LinkedMap.keys managed).map some := by
    rw [LinkedMap.keys, List.map_map, List.map_map]
    exact List.map_congr_left fun e he => hmap.resource e he
  have howners : created.map (fun p => p.resource.map Resource.id) =
      ((owned.take limit).map Resource.id).map some := by
    have hmapped := congrArg (List.map (Option.map Resource.id)) hcreated
    rw [List.map_map, List.map_map] at hmapped
    rw [List.map_map]
    exact hmapped
  rw [List.map_append, List.map_append, hids, howners]

/-- All resources of the tickets are reached when there are as many permissions as resources. -/
theorem complete_iff {granted : List GrantedTicket} {managed : List (String × ResourcePermission)}
    (hmap : Managed managed)
    (hsubset : (LinkedMap.keys managed).toFinset ⊆ (ticketResources granted).toFinset) :
    (ticketResources granted).toFinset ⊆ (LinkedMap.keys managed).toFinset ↔
      managed.length = (ticketResources granted).toFinset.card := by
  rw [← keys_length hmap]
  refine ⟨fun h => Finset.card_le_card hsubset |>.antisymm (Finset.card_le_card h), fun h => ?_⟩
  exact (Finset.eq_of_subset_of_card_le hsubset (Nat.le_of_eq h.symm)).symm.subset

theorem reaches_behind {owned limit : Nat} {granted : List GrantedTicket} :
    Reaches (limit - owned) ∅ granted ↔
      ∀ earlier ticket later, granted = earlier ++ ticket :: later →
        ticket.resource.id ∉ ticketResources earlier →
          owned + (earlier.length + (ticketResources earlier).dedup.length) < limit := by
  refine forall₃_congr fun earlier ticket later => forall_congr' fun _ => ?_
  rw [Finset.sdiff_empty, forall_prop_of_true (Finset.notMem_empty _), List.card_toFinset]
  refine forall_congr' fun _ => ?_
  omega

end

/-- The limit is taken exactly when there are no tickets, when it leaves room for one permission
behind the owners' resources, or when the tickets in front of every new resource leave it room. -/
theorem all_takesLimit_iff (store : Store) (server : ResourceServer)
    (findByOwner : String → List Resource) (identityId : String) (granted : List GrantedTicket)
    (limit : Nat) :
    TakesLimit limit (findByOwner server.id ++ findByOwner identityId) granted
        (all store server findByOwner identityId granted (some limit)) ↔
      granted = [] ∨
      limit = (findByOwner server.id ++ findByOwner identityId).length + 1 ∨
      ∀ earlier ticket later, granted = earlier ++ ticket :: later →
        ticket.resource.id ∉ ticketResources earlier →
          (findByOwner server.id ++ findByOwner identityId).length +
            (earlier.length + (ticketResources earlier).dedup.length) < limit := by
  obtain ⟨created, managed, hall, hcreated, hmanaged⟩ := exists_all store server
    findByOwner identityId granted limit
  generalize findByOwner server.id ++ findByOwner identityId = owned at hcreated hmanaged ⊢
  have hlength := congrArg List.length hcreated
  rw [List.length_map, List.length_map, List.length_take] at hlength
  have hdistinct : (ticketResources granted).dedup.length =
      (ticketResources granted).toFinset.card :=
    (List.card_toFinset _).symm
  have htotal : (created ++ managed.map Prod.snd).length = created.length + managed.length := by
    rw [List.length_append, List.length_map]
  -- the order of the permissions does not depend on the limit
  have horder : Managed managed →
      (LinkedMap.keys managed).toFinset ⊆ (ticketResources granted).toFinset → _ :=
    ids_of_created hcreated
  rw [hall, TakesLimit, htotal, hlength, hdistinct]
  rcases hmanaged with ⟨hgranted, hnil⟩ | ⟨hgranted, hvisits⟩
  · have hnone : ticketResources granted = [] := by rw [hgranted]; rfl
    refine iff_of_true ⟨?_, horder ?_ ?_⟩ (.inl hgranted)
    · rw [hnil, hnone, List.toFinset_nil, Finset.card_empty, List.length_nil, Nat.add_zero,
        Nat.add_zero]
    · rw [hnil]
      exact ⟨List.nodup_nil, fun e he => absurd he List.not_mem_nil⟩
    · rw [hnil]
      exact Finset.empty_subset _
  · have hsubset := hvisits.subset
    rw [LinkedMap.keys_nil, List.toFinset_nil, Finset.empty_union] at hsubset
    have hbound := hvisits.bound
    have hfirst := hvisits.first hgranted
    rw [List.length_nil] at hbound
    have hcard := Finset.card_le_card hsubset
    rw [keys_length hvisits.managed] at hcard
    have hcomplete := complete_iff hvisits.managed hsubset
    rw [and_iff_left (horder hvisits.managed hsubset), or_iff_right hgranted]
    by_cases hroom : limit ≤ owned.length
    · refine iff_of_false (by omega) ?_
      rintro (h | h)
      · omega
      · obtain ⟨ticket, rest, heq⟩ := List.exists_cons_of_ne_nil hgranted
        have hlt := h [] ticket rest heq List.not_mem_nil
        omega
    · have hreaches := hvisits.complete (by omega)
      rw [hcomplete, LinkedMap.keys_nil, List.toFinset_nil] at hreaches
      rw [← reaches_behind, ← hreaches]
      omega

/-- With a limit of two, the second of two tickets is not reached. -/
theorem two_tickets_not_taken :
    ¬ TakesLimit 2 []
      [⟨⟨"a", "a", none, "owner", true, []⟩⟩, ⟨⟨"b", "b", none, "owner", true, []⟩⟩]
      (all ⟨fun _ => [], fun _ => [], fun _ => [], fun _ => [], fun _ => []⟩ ⟨"server", .enforcing⟩
        (fun _ => []) "user"
        [⟨⟨"a", "a", none, "owner", true, []⟩⟩, ⟨⟨"b", "b", none, "owner", true, []⟩⟩]
        (some 2)) := by
  rintro ⟨hlength, -⟩
  exact absurd hlength (by decide)

end Permissions

end Keycloak.Authz
