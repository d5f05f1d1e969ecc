import Keycloak.Cache.PolicyLookups

/-!
# Transparency of the cached lookups of policies

A change keeps what holds inside a transaction if every lookup that it alters is named by
its registrations or was invalidated before.  A run of such changes and of careful lookups
delivers what the delegate returns.
-/

namespace Keycloak.Cache.PolicyQueries

/-! ## Changes -/

/-- The registrations of a change of `p` through a policy that was handed out. -/
def Session.registrations (tx : Session) (change : Change) (p : PolicyEntity) :
    Policy → List Registration
  | .delegate _ => []
  | .adapter index =>
      match tx.adapters[index]? with
      | none => []
      | some a =>
          (if a.updated then [] else [a.delegateRegistration p]) ++ a.registrations change

/-- Every lookup whose result a change alters has been invalidated before, or is named by
a registration of the change. -/
def Session.CarefulChange (tx : Session) (cat : Catalogue) (change : Change)
    (policy : Policy) : Prop :=
  ∀ p, (tx.getId policy).bind tx.entities.lookup = some p → ∀ query : Query,
    query.request.selects cat (change.apply p) ≠ query.request.selects cat p →
    query.cacheKey ∈ tx.invalidations ∨
      ∃ r ∈ tx.registrations change p policy, r.Names cat query

/-- The same for the removal of a policy. -/
def Session.CarefulDelete (tx : Session) (cat : Catalogue) (id : String) : Prop :=
  ∀ p, tx.entities.lookup id = some p → ∀ query : Query,
    query.request.selects cat p = true →
    query.cacheKey ∈ tx.invalidations ∨ (Session.removalRegistration id p).Names cat query

section

variable {cat : Catalogue} {committed : Database} {c c' : StoreFactoryCacheManager}
  {tx tx' : Session} {inv inv' : List String}

theorem mem_modify {α : Type} {f : α → α} {l : List α} {i : Nat} {x : α}
    (h : x ∈ l.modify i f) : x ∈ l ∨ ∃ a, l[i]? = some a ∧ x = f a := by
  obtain ⟨j, hj⟩ := List.mem_iff_getElem?.mp h
  rw [List.getElem?_modify, Option.map_eq_map, Option.map_eq_some_iff] at hj
  obtain ⟨a, ha, rfl⟩ := hj
  split
  · rename_i hij
    exact .inr ⟨a, hij ▸ ha, rfl⟩
  · exact .inl (List.mem_of_getElem? ha)

theorem map_modify_eq {α β : Type} {f : α → α} {g : α → β} (h : ∀ a, g (f a) = g a)
    (l : List α) (i : Nat) : (l.modify i f).map g = l.map g := by
  refine List.ext_getElem? fun j => ?_
  rw [List.getElem?_map, List.getElem?_map, List.getElem?_modify]
  cases l[j]? with
  | none => rfl
  | some a =>
      simp only [Option.map_eq_map, Option.map_some, Option.some.injEq]
      split
      · exact h a
      · rfl

theorem registered_modify {index : Nat} {a : PolicyAdapter} {f : PolicyAdapter → PolicyAdapter}
    {invalidations : List String} (ha : tx.adapters[index]? = some a)
    (hf : ∀ a, (f a).id = a.id ∧ (f a).cached = a.cached) (hid : a.id ∈ invalidations)
    (hsub : tx.invalidations ⊆ invalidations) :
    Registered tx { tx with invalidations, adapters := tx.adapters.modify index f } where
  entities := rfl
  flushed := rfl
  subset := hsub
  adapters := map_modify_eq (fun a => Prod.ext (hf a).1 (hf a).2) _ _
  flagged hsub' hflagged b hb hflag := by
    rcases mem_modify hb with hmem | ⟨a', ha', rfl⟩
    · exact hflagged b hmem hflag
    · rw [ha, Option.some.injEq] at ha'
      subst ha'
      exact hsub' ((hf a).1 ▸ hid)
  managed := rfl

theorem registerPolicyInvalidation_spec (tx : Session) {r : Registration}
    (hknown : Known cat r.resources)
    (hmanaged : ∀ index, tx.managedPolicies r.id = some index →
      ∃ a, tx.adapters[index]? = some a ∧ a.id = r.id) :
    ∃ tx', tx.registerPolicyInvalidation cat r = some tx' ∧ Registered tx tx' ∧
      r.id ∈ tx'.invalidations ∧
      ∀ query, r.Names cat query → query.cacheKey ∈ tx'.invalidations := by
  obtain ⟨keys, hkeys, hid, hnames⟩ := keys_of_known hknown
  refine ⟨_, by rw [Session.registerPolicyInvalidation, hkeys]; rfl, ?_,
    List.mem_append_left _ hid, fun query hquery => List.mem_append_left _ (hnames query hquery)⟩
  have hsub : tx.invalidations ⊆ keys ++ tx.invalidations := List.subset_append_right ..
  split
  · rename_i index hindex
    obtain ⟨a, ha, haid⟩ := hmanaged index hindex
    exact registered_modify ha (fun _ => ⟨rfl, rfl⟩) (haid ▸ List.mem_append_left _ hid) hsub
  · exact ⟨rfl, rfl, hsub, rfl, fun _ hflagged => hflagged, rfl⟩

theorem managed_of_registered (hreg : Registered tx tx') {id : String}
    (hmanaged : ∀ index, tx.managedPolicies id = some index →
      ∃ a, tx.adapters[index]? = some a ∧ a.id = id) (index : Nat)
    (hindex : tx'.managedPolicies id = some index) :
    ∃ a, tx'.adapters[index]? = some a ∧ a.id = id := by
  rw [hreg.managed] at hindex
  obtain ⟨a, ha, hid⟩ := hmanaged index hindex
  obtain ⟨b, hb, hid', -⟩ := hreg.getElem? ha
  exact ⟨b, hb, hid'.trans hid⟩

theorem registerAll_spec {id : String} {registrations : List Registration}
    (hregs : ∀ r ∈ registrations, r.id = id ∧ Known cat r.resources)
    (hmanaged : ∀ index, tx.managedPolicies id = some index →
      ∃ a, tx.adapters[index]? = some a ∧ a.id = id) :
    ∃ tx', tx.registerAll cat registrations = some tx' ∧ Registered tx tx' ∧
      ∀ r ∈ registrations, ∀ query, r.Names cat query →
        query.cacheKey ∈ tx'.invalidations := by
  induction registrations generalizing tx with
  | nil => exact ⟨tx, rfl, .refl tx, fun r hr => absurd hr List.not_mem_nil⟩
  | cons r rest ih =>
      obtain ⟨rfl, hknown⟩ := hregs r (.head _)
      obtain ⟨tx₁, hfirst, hreg, -, hnames⟩ :=
        registerPolicyInvalidation_spec tx hknown hmanaged
      obtain ⟨tx₂, hall, hreg', hnames'⟩ := ih (fun r hr => hregs r (.tail _ hr))
        (managed_of_registered hreg hmanaged)
      refine ⟨tx₂, ?_, hreg.trans hreg', ?_⟩
      · rw [Session.registerAll, hfirst, Option.bind_some, hall]
      · intro r' hr' query hquery
        rcases List.mem_cons.mp hr' with rfl | hrest
        · exact hreg'.subset (hnames query hquery)
        · exact hnames' r' hrest query hquery

theorem registrations_known {a : PolicyAdapter} {change : Change}
    (ha : Known cat a.cached.resources) (hchange : change.resourcesExist cat = true) :
    ∀ r ∈ a.registrations change, r.id = a.id ∧ Known cat r.resources := by
  intro r hr
  have hsingle : ∀ resource, (cat.resources resource).isSome = true → Known cat [resource] :=
    fun resource hsome r hr => List.mem_singleton.mp hr ▸ hsome
  cases change with
  | setName name =>
      rw [List.mem_singleton.mp hr]
      exact ⟨rfl, ha⟩
  | setConfig config =>
      rw [PolicyAdapter.registrations] at hr
      split at hr
      · rcases List.mem_cons.mp hr with rfl | hr
        · exact ⟨rfl, ha⟩
        · rw [List.mem_singleton.mp hr]
          exact ⟨rfl, ha⟩
      · cases hr
  | addResource resource =>
      rw [List.mem_singleton.mp hr]
      exact ⟨rfl, hsingle resource hchange⟩
  | removeResource resource =>
      rw [List.mem_singleton.mp hr]
      exact ⟨rfl, hsingle resource hchange⟩
  | addScope scope =>
      rw [List.mem_singleton.mp hr]
      exact ⟨rfl, ha⟩
  | removeScope scope =>
      rw [List.mem_singleton.mp hr]
      exact ⟨rfl, ha⟩

theorem apply_known {p : PolicyEntity} {change : Change} (hp : Known cat p.resources)
    (hchange : change.resourcesExist cat = true) : Known cat (change.apply p).resources := by
  cases change with
  | addResource resource =>
      intro r hr
      rcases List.mem_insert_iff.mp hr with rfl | hold
      · exact hchange
      · exact hp r hold
  | removeResource resource =>
      intro r hr
      exact hp r (List.mem_of_mem_filter hr)
  | setName name => exact hp
  | setConfig config => exact hp
  | addScope scope => exact hp
  | removeScope scope => exact hp

theorem SessionInv.write (h : SessionInv cat committed c tx inv) {id : String}
    (entities : Database) (hid : id ∈ inv)
    (hother : ∀ id', id' ≠ id → entities.lookup id' = tx.entities.lookup id')
    (hselected : ∀ query : Query, query.cacheKey ∉ inv →
      entities.selected cat query id = tx.entities.selected cat query id)
    (hknown : ∀ p, entities.lookup id = some p → Known cat p.resources) :
    SessionInv cat committed c { tx with entities } inv where
  unchanged {id'} hid' := by
    have hne : id' ≠ id := fun heq => hid' (heq ▸ hid)
    rw [hother id' hne]
    exact h.unchanged hid'
  lookups {query} hkey id' := by
    obtain ⟨hentities, hflushed⟩ := h.lookups hkey id'
    refine ⟨Eq.trans ?_ hentities, hflushed⟩
    rcases eq_or_ne id' id with rfl | hne
    · exact hselected query hkey
    · exact congrArg (fun row => Option.any _ row) (hother id' hne)
  policies := h.policies
  lists := h.lists
  adapters := h.adapters
  flagged := h.flagged
  managed := h.managed
  known {id' p} hlookup := by
    rcases eq_or_ne id' id with rfl | hne
    · exact hknown p hlookup
    · exact h.known (hother id' hne ▸ hlookup)
  committedKnown := h.committedKnown

theorem SessionInv.flush (h : SessionInv cat committed c tx inv) :
    SessionInv cat committed c { tx with flushed := tx.entities } inv where
  unchanged hid := ⟨(h.unchanged hid).1, (h.unchanged hid).1⟩
  lookups hkey id := ⟨(h.lookups hkey id).1, (h.lookups hkey id).1⟩
  policies := h.policies
  lists := h.lists
  adapters := h.adapters
  flagged := h.flagged
  managed := h.managed
  known := h.known
  committedKnown := h.committedKnown

theorem update_inv (h : SessionInv cat committed c tx inv) {id : String} {p : PolicyEntity}
    {change : Change} (hp : tx.entities.lookup id = some p) (hid : id ∈ inv)
    (hchange : change.resourcesExist cat = true)
    (haltered : ∀ query : Query, query.request.selects cat (change.apply p) ≠
      query.request.selects cat p → query.cacheKey ∈ inv) :
    SessionInv cat committed c (tx.update id change) inv := by
  rw [Session.update, hp]
  refine h.write _ hid (fun id' hne => AList.lookup_insert_ne hne) ?_ ?_
  · intro query hkey
    rw [Database.selected, Database.selected, AList.lookup_insert, hp]
    by_contra hne
    exact hkey (haltered query hne)
  · intro p' hlookup
    rw [AList.lookup_insert, Option.some.injEq] at hlookup
    exact hlookup ▸ apply_known (h.known hp) hchange

theorem getDelegateForUpdate_spec (h : SessionInv cat committed c tx tx.invalidations)
    {index : Nat} {a : PolicyAdapter} {p : PolicyEntity} (ha : tx.adapters[index]? = some a)
    (hp : tx.entities.lookup a.id = some p) :
    ∃ tx', tx.getDelegateForUpdate cat index = some tx' ∧ Registered tx tx' ∧
      a.id ∈ tx'.invalidations ∧ (a.updated = false →
        ∀ query, (a.delegateRegistration p).Names cat query →
          query.cacheKey ∈ tx'.invalidations) := by
  have hmem := List.mem_of_getElem? ha
  rw [Session.getDelegateForUpdate, ha]
  dsimp only
  split
  · rename_i hupdated
    refine ⟨tx, rfl, .refl tx, h.flagged a hmem (.inl hupdated), fun hnot => ?_⟩
    rw [hupdated] at hnot
    cases hnot
  · rw [hp]
    dsimp only
    have hmanaged : ∀ index', tx.managedPolicies a.id = some index' →
        ∃ b, (tx.adapters.modify index fun a => { a with updated := true })[index']? = some b ∧
          b.id = a.id := by
      intro index' hindex'
      obtain ⟨b, hb, hid⟩ := h.managed hindex'
      rw [List.getElem?_modify, hb]
      refine ⟨_, rfl, ?_⟩
      split <;> exact hid
    obtain ⟨tx', htx', hreg, hid, hnames⟩ := registerPolicyInvalidation_spec { tx with
      adapters := tx.adapters.modify index fun a => { a with updated := true } }
      (r := a.delegateRegistration p) (h.adapters a hmem).1 hmanaged
    refine ⟨tx', htx', ?_, hid, fun _ => hnames⟩
    -- the adapter is flagged before the id of its policy is registered
    have hmodify := registered_modify (f := fun a => { a with updated := true }) ha
      (fun _ => ⟨rfl, rfl⟩) hid hreg.subset
    exact ⟨hreg.entities, hreg.flushed, hreg.subset, hreg.adapters.trans hmodify.adapters,
      fun hsub hflagged => hreg.flagged hsub (hmodify.flagged hsub hflagged), hreg.managed⟩

theorem adapter_of_usable {index : Nat} (h : tx.Usable (.adapter index)) :
    ∃ a p, tx.adapters[index]? = some a ∧ tx.getId (.adapter index) = some a.id ∧
      tx.entities.lookup a.id = some p := by
  obtain ⟨hhanded, hsome⟩ := h
  obtain ⟨p, hp⟩ := Option.isSome_iff_exists.mp hsome
  have ha : tx.adapters[index]? = some tx.adapters[index] := List.getElem?_eq_getElem hhanded
  have hid : tx.getId (.adapter index) = some tx.adapters[index].id := by
    rw [Session.getId, ha]
    rfl
  rw [hid, Option.bind_some] at hp
  exact ⟨_, p, ha, hid, hp⟩

/-- A careful change goes through and keeps the invariant. -/
theorem change_spec (h : SessionInv cat committed c tx tx.invalidations) {change : Change}
    {policy : Policy} (husable : tx.Usable policy) (hchange : change.resourcesExist cat = true)
    (hcareful : tx.CarefulChange cat change policy) :
    ∃ tx', tx.change cat change policy = some tx' ∧
      SessionInv cat committed c tx' tx'.invalidations := by
  cases policy with
  | delegate id =>
      obtain ⟨hhanded, hsome⟩ := husable
      obtain ⟨p, hp⟩ := Option.isSome_iff_exists.mp hsome
      change tx.entities.lookup id = some p at hp
      refine ⟨tx.update id change, rfl, ?_⟩
      have hinv : SessionInv cat committed c (tx.update id change) tx.invalidations := by
        refine update_inv h hp hhanded hchange fun query haltered => ?_
        rcases hcareful p hp query haltered with hkey | ⟨r, hr, -⟩
        · exact hkey
        · cases hr
      have hsame : (tx.update id change).invalidations = tx.invalidations := by
        rw [Session.update, hp]
      rwa [hsame]
  | adapter index =>
      obtain ⟨a, p, ha, hid, hp⟩ := adapter_of_usable husable
      have hadapter := h.adapters a (List.mem_of_getElem? ha)
      obtain ⟨tx₁, hdelegate, hreg, haid, hnames⟩ := getDelegateForUpdate_spec h ha hp
      obtain ⟨tx₂, hall, hreg', hnames'⟩ := registerAll_spec
        (registrations_known hadapter.1 hchange)
        (managed_of_registered hreg fun index => h.managed)
      have hregs := hreg.trans hreg'
      have hinv : SessionInv cat committed c tx₂ tx₂.invalidations :=
        (h.mono hregs.subset).registered hregs fun _ hmem => hmem
      have hp₂ : tx₂.entities.lookup a.id = some p := by rw [hregs.entities, hp]
      refine ⟨tx₂.update a.id change, ?_, ?_⟩
      · rw [Session.change, ha]
        simp [hdelegate, hall]
      · have hsame : (tx₂.update a.id change).invalidations = tx₂.invalidations := by
          rw [Session.update, hp₂]
        rw [hsame]
        refine update_inv hinv hp₂ (hreg'.subset haid) hchange fun query haltered => ?_
        have hp' : (tx.getId (.adapter index)).bind tx.entities.lookup = some p := by
          rw [hid, Option.bind_some, hp]
        rcases hcareful p hp' query haltered with hkey | ⟨r, hr, hquery⟩
        · exact hregs.subset hkey
        · simp only [Session.registrations, ha, List.mem_append] at hr
          rcases hr with hfirst | hrest
          · split at hfirst
            · cases hfirst
            · rename_i hupdated
              rw [List.mem_singleton.mp hfirst] at hquery
              exact hreg'.subset (hnames (by simpa using hupdated) query hquery)
          · exact hnames' r hrest query hquery

theorem read_findById (h : SessionInv cat committed c tx tx.invalidations) {id : String}
    {policy : Policy} (hfound : (tx.findById c id).1 = some policy) :
    ∃ p, tx.entities.lookup id = some p ∧
      (tx.findById c id).2.2.read policy = some (p, (tx.findById c id).2.2) := by
  have hmanage : ∀ p, (tx.manage id p).2.read (tx.manage id p).1 =
      some (p, (tx.manage id p).2) := by
    intro p
    simp [Session.manage, Session.read]
  unfold Session.findById at hfound ⊢
  split at hfound
  · rename_i hmiss
    dsimp only at hfound
    split at hfound
    · cases hfound
    · rename_i model hmodel
      refine ⟨model, hmodel, ?_⟩
      dsimp only
      split at hfound
      · rename_i hinvalid
        cases hfound
        rw [if_pos hinvalid]
        simp [Session.read, hmodel]
      · rename_i hvalid
        cases hfound
        rw [if_neg hvalid]
        exact hmanage model
  · rename_i cached hcached
    dsimp only
    split at hfound
    · rename_i hinvalid
      rw [Option.map_eq_some_iff] at hfound
      obtain ⟨p, hp, rfl⟩ := hfound
      refine ⟨p, hp, ?_⟩
      rw [if_pos hinvalid]
      simp [Session.read, hp]
    · rename_i hvalid
      have hcommitted := (h.policies (object_of_getPolicy hcached)).2 hvalid
      have hrow := (h.unchanged hvalid).1.trans hcommitted
      refine ⟨cached, hrow, ?_⟩
      rw [if_neg hvalid]
      split at hfound
      · rename_i index hindex
        cases hfound
        dsimp only
        obtain ⟨a, ha, rfl⟩ := h.managed hindex
        have hmem := List.mem_of_getElem? ha
        have hnot : ¬ (a.updated ∨ a.invalidated) := fun hflag => hvalid (h.flagged a hmem hflag)
        rw [(h.adapters a hmem).2 hvalid, Option.some.injEq] at hcommitted
        rw [Session.read, ha]
        dsimp only
        rw [if_neg hnot, hcommitted]
      · rename_i hindex
        cases hfound
        dsimp only
        exact hmanage cached

theorem read_spec (h : SessionInv cat committed c tx tx.invalidations) {policy : Policy}
    (husable : tx.Usable policy) :
    ∃ p tx', tx.read policy = some (p, tx') ∧
      SessionInv cat committed c tx' tx'.invalidations := by
  cases policy with
  | delegate id =>
      obtain ⟨p, hp⟩ := Option.isSome_iff_exists.mp husable.2
      change tx.entities.lookup id = some p at hp
      exact ⟨p, tx, by rw [Session.read, hp]; rfl, h⟩
  | adapter index =>
      obtain ⟨a, p, ha, hid, hp⟩ := adapter_of_usable husable
      rw [Session.read, ha]
      dsimp only
      split
      · rename_i hflag
        refine ⟨p, _, by rw [hp]; rfl, ?_⟩
        have haid := h.flagged a (List.mem_of_getElem? ha) hflag
        exact h.registered (registered_modify ha (fun _ => ⟨rfl, rfl⟩) haid fun _ hmem => hmem)
          fun _ hmem => hmem
      · exact ⟨a.cached, tx, rfl, h⟩

/-- `create` goes through and keeps the invariant: no lookup selects the new policy. -/
theorem create_spec (h : SessionInv cat committed c tx tx.invalidations)
    {representation : Session.PolicyRepresentation} {server : String}
    (hnew : tx.entities.lookup representation.id = none)
    (hresources : Known cat representation.resources) :
    ∃ c' tx', tx.create cat c representation server = some (c', tx') ∧
      SessionInv cat committed c' tx' tx'.invalidations := by
  let entity : PolicyEntity := ⟨representation.name, representation.type, server, [], [], []⟩
  let entities := tx.entities.insert representation.id entity
  have hsub : tx.invalidations ⊆ representation.id :: tx.invalidations :=
    List.subset_cons_self ..
  have hwrite : SessionInv cat committed c { tx with entities, flushed := entities }
      (representation.id :: tx.invalidations) := by
    refine SessionInv.flush ((h.mono hsub).write entities (.head _)
      (fun id' hne => AList.lookup_insert_ne hne) ?_ ?_)
    · intro query _
      rw [Database.selected, Database.selected, hnew, AList.lookup_insert]
      cases query with
      | byResource resource server => simp [Query.request, Request.selects, entity]
      | byResourceType type server =>
          simp [Query.request, Request.selects, PolicyEntity.defaultResourceType, entity]
      | byResourceScope scope resource server =>
          cases resource <;> simp [Query.request, Request.selects, entity]
    · intro p hp
      rw [AList.lookup_insert, Option.some.injEq] at hp
      rw [← hp]
      exact fun r hr => absurd hr List.not_mem_nil
  have hlooked := findById_looked { tx with entities, flushed := entities } c representation.id
  have hfound := hwrite.looked hlooked
  obtain ⟨tx', htx', hreg, hid, -⟩ := registerPolicyInvalidation_spec _
    (r := ⟨representation.id, representation.name, representation.resources,
      representation.scopes, none, server⟩) hresources fun index => hfound.managed
  refine ⟨_, tx', ?_, (hfound.mono ?_).registered hreg fun _ hmem => hmem⟩
  · rw [Session.create]
    simp only [bind, Option.bind]
    rw [htx']
    rfl
  · intro id hmem
    rcases List.mem_cons.mp hmem with rfl | hold
    · exact hid
    · refine hreg.subset ?_
      rw [hlooked.invalidations]
      exact hold

/-- A careful removal goes through and keeps the invariant. -/
theorem delete_spec (h : SessionInv cat committed c tx tx.invalidations) {id : String}
    (hcareful : tx.CarefulDelete cat id) :
    ∃ c' tx', tx.delete cat c id = some (c', tx') ∧
      SessionInv cat committed c' tx' tx'.invalidations := by
  have hlooked := findById_looked tx c id
  have hnext := h.looked hlooked
  rw [← hlooked.invalidations] at hnext
  unfold Session.delete
  split
  · rename_i c' tx' heq
    rw [heq] at hnext
    exact ⟨c', tx', rfl, hnext⟩
  · rename_i policy c' tx' heq
    have hfound : (tx.findById c id).1 = some policy := by rw [heq]
    obtain ⟨p, hp, hread⟩ := read_findById h hfound
    rw [heq] at hread hnext hlooked
    dsimp only at hread hnext hlooked
    obtain ⟨keys, hkeys, hid, hnames⟩ := keys_of_known
      (r := Session.removalRegistration id p) (h.known hp)
    change id ∈ keys at hid
    refine ⟨c'.invalidateObject id, { tx' with
      invalidations := keys ++ tx'.invalidations, entities := tx'.entities.erase id }, ?_, ?_⟩
    · simp [hread, hkeys]
    · have hreg : Registered tx' { tx' with invalidations := keys ++ tx'.invalidations } :=
        ⟨rfl, rfl, List.subset_append_right .., rfl, fun _ hflagged => hflagged, rfl⟩
      have hinv : SessionInv cat committed (c'.invalidateObject id) _ _ :=
        ((hnext.mono hreg.subset).registered hreg fun _ hmem => hmem).of_cache
          fun hobject => (ObjectCache.object_invalidateObject hobject).2
      refine hinv.write _ (List.mem_append_left _ hid) (fun id' hne => AList.lookup_erase_ne hne)
        ?_ ?_
      · intro query hkey
        have hrow : tx'.entities.lookup id = some p := by rw [hlooked.entities, hp]
        rw [Database.selected, Database.selected, AList.lookup_erase, hrow]
        symm
        rw [Option.any_some, Option.any_none, Bool.eq_false_iff]
        intro hselects
        refine hkey (List.mem_append.mpr ?_)
        rcases hcareful p hp query hselects with hmem | hquery
        · exact .inr (hlooked.invalidations ▸ hmem)
        · exact .inl (hnames query hquery)
      · intro p' hp'
        rw [AList.lookup_erase] at hp'
        cases hp'

end

/-! ## Runs -/

def Careful (cat : Catalogue) (s : State) : Label → Prop
  | .change change policy => ∀ tx, s.session = some tx → tx.CarefulChange cat change policy
  | .delete id => ∀ tx, s.session = some tx → tx.CarefulDelete cat id
  | .find request consumer => ∀ tx, s.session = some tx →
      ∀ query ∈ request.queries, tx.CarefulQuery cat s.cache consumer query
  | _ => True

def State.current (s : State) : Session :=
  s.session.getD (Session.start s.committed s.cache.counter)

/-- Every lookup has delivered what the delegate returned, and no call has thrown. -/
def State.Transparent (s : State) : Prop :=
  (∀ read ∈ s.log, Delivers read.delivered read.expected) ∧ s.threw = false

structure Inv (cat : Catalogue) (s : State) : Prop where
  session : SessionInv cat s.committed s.cache s.current s.current.invalidations
  transparent : ∀ read ∈ s.log, Delivers read.delivered read.expected
  quiet : s.threw = false

section

variable {cat : Catalogue} {committed : Database} {c : StoreFactoryCacheManager}
  {s s' : State} {tx : Session}

theorem start_inv {startup : Nat}
    (hpolicies : ∀ {id p}, c.object id = some (.policy p) →
      Known cat p.resources ∧ committed.lookup id = some p)
    (hlists : ∀ {key query policies}, c.object key = some (.list query policies) →
      query.cacheKey = key ∧ ∀ id, id ∈ policies ↔ committed.selected cat query id = true)
    (hknown : ∀ {id p}, committed.lookup id = some p → Known cat p.resources) :
    SessionInv cat committed c (Session.start committed startup) [] where
  unchanged _ := ⟨rfl, rfl⟩
  lookups _ _ := ⟨rfl, rfl⟩
  policies hobject := ⟨(hpolicies hobject).1, fun _ => (hpolicies hobject).2⟩
  lists hobject := ⟨(hlists hobject).1, fun _ => (hlists hobject).2⟩
  adapters _ ha := absurd ha List.not_mem_nil
  flagged _ ha := absurd ha List.not_mem_nil
  managed hindex := by cases hindex
  known := hknown
  committedKnown := hknown

theorem initial_inv (hdb : ∀ {id p}, committed.lookup id = some p → Known cat p.resources) :
    Inv cat (initial committed) where
  session := start_inv (fun hobject => by cases hobject) (fun hobject => by cases hobject) hdb
  transparent _ h := absurd h List.not_mem_nil
  quiet := rfl

theorem after_inv (h : Inv cat s) {c' : StoreFactoryCacheManager} {tx' : Session}
    (hnext : SessionInv cat s.committed c' tx' tx'.invalidations) :
    Inv cat (s.after (some (c', tx'))) :=
  ⟨hnext, h.transparent, h.quiet⟩

/-- What a commit leaves in the cache is as the transaction sees it. -/
theorem commit_inv (h : Inv cat s) (hsession : s.session = some tx) : Inv cat { s with
    committed := tx.entities, cache := runInvalidations s.cache tx, session := none } := by
  have hinv := h.session
  rw [State.current, hsession, Option.getD_some] at hinv
  refine ⟨start_inv ?_ ?_ hinv.known, h.transparent, h.quiet⟩
  · intro id p hobject
    obtain ⟨hvalid, hobject⟩ := ObjectCache.object_foldl_invalidateObject hobject
    obtain ⟨hknown, hrow⟩ := hinv.policies hobject
    exact ⟨hknown, (hinv.unchanged hvalid).1.trans (hrow hvalid)⟩
  · intro key query policies hobject
    obtain ⟨hvalid, hobject⟩ := ObjectCache.object_foldl_invalidateObject hobject
    obtain ⟨rfl, hlist⟩ := hinv.lists hobject
    refine ⟨rfl, fun id => (hlist hvalid id).trans ?_⟩
    rw [(hinv.lookups hvalid id).1]

/-- What a rollback leaves in the cache was committed before. -/
theorem rollback_inv (h : Inv cat s) (hsession : s.session = some tx) : Inv cat { s with
    cache := runInvalidations s.cache tx, session := none } := by
  have hinv := h.session
  rw [State.current, hsession, Option.getD_some] at hinv
  refine ⟨start_inv ?_ ?_ hinv.committedKnown, h.transparent, h.quiet⟩
  · intro id p hobject
    obtain ⟨hvalid, hobject⟩ := ObjectCache.object_foldl_invalidateObject hobject
    obtain ⟨hknown, hrow⟩ := hinv.policies hobject
    exact ⟨hknown, hrow hvalid⟩
  · intro key query policies hobject
    obtain ⟨hvalid, hobject⟩ := ObjectCache.object_foldl_invalidateObject hobject
    obtain ⟨rfl, hlist⟩ := hinv.lists hobject
    exact ⟨rfl, hlist hvalid⟩

theorem evict_inv (h : Inv cat s) {c' : StoreFactoryCacheManager}
    (hcounter : c'.counter = s.cache.counter)
    (hcache : ∀ {key o}, c'.object key = some o → s.cache.object key = some o) :
    Inv cat { s with cache := c' } := by
  have hcurrent : State.current { s with cache := c' } = s.current := by
    rw [State.current, State.current, hcounter]
  refine ⟨?_, h.transparent, h.quiet⟩
  rw [hcurrent]
  exact h.session.of_cache hcache

theorem step_evictRevision (key : String) : step cat s (.evictRevision key) =
    some { s with cache := s.cache.evictRevision key } := by
  obtain ⟨committed, cache, _ | tx, log, threw⟩ := s <;> rfl

theorem step_evictEntry (key : String) : step cat s (.evictEntry key) =
    some { s with cache := s.cache.evictEntry key } := by
  obtain ⟨committed, cache, _ | tx, log, threw⟩ := s <;> rfl

theorem step_inv (h : Inv cat s) {label : Label} (hok : Careful cat s label)
    (hstep : step cat s label = some s') : Inv cat s' := by
  cases hsession : s.session with
  | none =>
      cases label with
      | begin =>
          simp only [step, hsession, Option.some.injEq] at hstep
          have hinv := h.session
          rw [State.current, hsession, Option.getD_none] at hinv
          exact hstep ▸ ⟨hinv, h.transparent, h.quiet⟩
      | evictRevision key =>
          rw [step_evictRevision, Option.some.injEq] at hstep
          exact hstep ▸ evict_inv h rfl fun hobject => hobject
      | evictEntry key =>
          rw [step_evictEntry, Option.some.injEq] at hstep
          exact hstep ▸ evict_inv h rfl ObjectCache.object_evictEntry
      | _ => simp [step, hsession] at hstep
  | some tx =>
      have hinv := h.session
      rw [State.current, hsession, Option.getD_some] at hinv
      cases label with
      | begin => simp [step, hsession] at hstep
      | create representation server =>
          simp only [step, hsession] at hstep
          split at hstep
          · rename_i henabled
            obtain ⟨hnew, -, hresources⟩ := henabled
            rw [Option.isNone_iff_eq_none] at hnew
            obtain ⟨c', tx', hcreate, hnext⟩ := create_spec hinv hnew hresources
            rw [hcreate, Option.some.injEq] at hstep
            exact hstep ▸ after_inv h hnext
          · cases hstep
      | findById id =>
          simp only [step, hsession, Option.some.injEq] at hstep
          have hlooked := findById_looked tx s.cache id
          have hnext := hinv.looked hlooked
          rw [← hlooked.invalidations] at hnext
          exact hstep ▸ after_inv h hnext
      | read policy =>
          simp only [step, hsession] at hstep
          split at hstep
          · rename_i husable
            obtain ⟨p, tx', hread, hnext⟩ := read_spec hinv husable
            rw [hread, Option.some.injEq] at hstep
            exact hstep ▸ after_inv h hnext
          · cases hstep
      | change change policy =>
          simp only [step, hsession] at hstep
          split at hstep
          · rename_i henabled
            obtain ⟨tx', hchange, hnext⟩ :=
              change_spec hinv henabled.1 henabled.2 (hok tx hsession)
            rw [hchange, Option.some.injEq] at hstep
            exact hstep ▸ after_inv h hnext
          · cases hstep
      | delete id =>
          simp only [step, hsession, Option.some.injEq] at hstep
          obtain ⟨c', tx', hdelete, hnext⟩ := delete_spec hinv (hok tx hsession)
          rw [hdelete] at hstep
          exact hstep ▸ after_inv h hnext
      | find request consumer =>
          simp only [step, hsession, Option.some.injEq] at hstep
          obtain ⟨hdelivers, hserved⟩ := find_spec hinv (hok tx hsession)
          subst hstep
          refine ⟨hserved.inv, ?_, h.quiet⟩
          intro read hread
          rcases List.mem_cons.mp hread with rfl | hold
          · exact hdelivers
          · exact h.transparent read hold
      | flush =>
          simp only [step, hsession, Option.some.injEq] at hstep
          exact hstep ▸ ⟨hinv.flush, h.transparent, h.quiet⟩
      | commit =>
          simp only [step, hsession, Option.some.injEq] at hstep
          exact hstep ▸ commit_inv h hsession
      | rollback =>
          simp only [step, hsession, Option.some.injEq] at hstep
          exact hstep ▸ rollback_inv h hsession
      | evictRevision key =>
          rw [step_evictRevision, Option.some.injEq] at hstep
          exact hstep ▸ evict_inv h rfl fun hobject => hobject
      | evictEntry key =>
          rw [step_evictEntry, Option.some.injEq] at hstep
          exact hstep ▸ evict_inv h rfl ObjectCache.object_evictEntry

/-- The cache is transparent in every run of careful steps, from every database whose
policies have resources that exist. -/
theorem transparent_of_careful {db : Database} {labels : List Label} {t : State}
    (hdb : ∀ {id p}, db.lookup id = some p → Known cat p.resources)
    (hok : Machine.Meets (step cat) (Careful cat) (initial db) labels)
    (hrun : Machine.run (step cat) (initial db) labels = some t) : t.Transparent := by
  have hinv : Inv cat t :=
    Machine.run_invariant (fun _ _ _ hinv hok hstep => step_inv hinv hok hstep)
      (initial_inv hdb) hok hrun
  exact ⟨hinv.transparent, hinv.quiet⟩

end

/-! ## The first change of a policy -/

section

variable {cat : Catalogue} {tx : Session}

theorem resourceServerId_of_selects {query : Query} {p : PolicyEntity}
    (h : query.request.selects cat p = true) : query.resourceServerId = p.resourceServer := by
  cases query with
  | byResource resource server =>
      simp only [Query.request, Request.selects, Bool.and_eq_true, decide_eq_true_eq] at h
      exact h.1.1.symm
  | byResourceType type server =>
      simp only [Query.request, Request.selects, Bool.and_eq_true, decide_eq_true_eq] at h
      exact h.1.symm
  | byResourceScope scope resource server =>
      cases resource <;>
        simp only [Query.request, Request.selects, Bool.and_eq_true, decide_eq_true_eq] at h
      · exact h.1.1.1.symm
      · exact h.1.1.1.1.symm

theorem selects_byResource {resource server : String} {p : PolicyEntity} :
    (Query.byResource resource server).request.selects cat p = true ↔
      p.resourceServer = server ∧ resource ∈ p.resources ∧
        cat.resourceOn resource server = true := by
  simp [Query.request, Request.selects, and_assoc]

theorem selects_byResourceScope {scope resource server : String} {p : PolicyEntity} :
    (Query.byResourceScope scope (some resource) server).request.selects cat p = true ↔
      p.resourceServer = server ∧ p.type = "scope" ∧ scope ∈ p.scopes ∧
        cat.scopes scope = some server ∧ resource ∈ p.resources ∧
        cat.resourceOn resource server = true := by
  simp only [Query.request, Request.selects, Bool.and_eq_true, scopes_any_iff]
  simp only [decide_eq_true_eq, List.mem_singleton, exists_eq_left, List.contains_eq_mem,
    and_assoc]

theorem selects_byNullResourceScope {scope server : String} {p : PolicyEntity} :
    (Query.byResourceScope scope none server).request.selects cat p = true ↔
      p.resourceServer = server ∧ p.type = "scope" ∧ scope ∈ p.scopes ∧
        cat.scopes scope = some server ∧ p.resources = [] := by
  simp only [Query.request, Request.selects, Bool.and_eq_true, scopes_any_iff]
  simp only [decide_eq_true_eq, List.mem_singleton, exists_eq_left, List.isEmpty_iff, and_assoc]

theorem selects_byResourceType {type server : String} {p : PolicyEntity}
    (hlike : ∀ value pattern, cat.like value pattern = true ↔ value = pattern) :
    (Query.byResourceType type server).request.selects cat p = true ↔
      p.resourceServer = server ∧ p.defaultResourceType = some type := by
  simp [Query.request, Request.selects, Option.any_eq_true, hlike]

@[simp] theorem apply_resourceServer (change : Change) (p : PolicyEntity) :
    (change.apply p).resourceServer = p.resourceServer := by
  cases change <;> rfl

@[simp] theorem apply_type (change : Change) (p : PolicyEntity) :
    (change.apply p).type = p.type := by
  cases change <;> rfl

theorem mem_apply_resources {change : Change} {p : PolicyEntity} {resource : String}
    (hadd : change ≠ .addResource resource) (hremove : change ≠ .removeResource resource) :
    resource ∈ (change.apply p).resources ↔ resource ∈ p.resources := by
  cases change with
  | addResource r =>
      have hne : resource ≠ r := fun heq => hadd (heq ▸ rfl)
      simp [Change.apply, List.mem_insert_iff, hne]
  | removeResource r =>
      have hne : resource ≠ r := fun heq => hremove (heq ▸ rfl)
      simp [Change.apply, hne]
  | _ => rfl

theorem mem_apply_scopes {change : Change} {p : PolicyEntity} {scope : String}
    (hadd : change ≠ .addScope scope) (hremove : change ≠ .removeScope scope) :
    scope ∈ (change.apply p).scopes ↔ scope ∈ p.scopes := by
  cases change with
  | addScope x =>
      have hne : scope ≠ x := fun heq => hadd (heq ▸ rfl)
      simp [Change.apply, List.mem_insert_iff, hne]
  | removeScope x =>
      have hne : scope ≠ x := fun heq => hremove (heq ▸ rfl)
      simp [Change.apply, hne]
  | _ => rfl

theorem apply_defaultResourceType {change : Change} {p : PolicyEntity}
    (h : ∀ config, change ≠ .setConfig config) :
    (change.apply p).defaultResourceType = p.defaultResourceType := by
  cases change with
  | setConfig config => exact absurd rfl (h config)
  | _ => rfl

/-- The snapshot of an adapter that has not fetched the policy of the delegate names every
lookup that its first change alters, where `like` is equality. -/
theorem carefulChange_first {index : Nat} {a : PolicyAdapter} {change : Change}
    (hlike : ∀ value pattern, cat.like value pattern = true ↔ value = pattern)
    (ha : tx.adapters[index]? = some a) (hupdated : a.updated = false)
    (hp : tx.entities.lookup a.id = some a.cached) :
    tx.CarefulChange cat change (.adapter index) := by
  intro p hlookup query haltered
  rw [Session.getId, ha, Option.map_some, Option.bind_some, hp, Option.some.injEq] at hlookup
  subst hlookup
  have hregistrations : tx.registrations change a.cached (.adapter index) =
      a.delegateRegistration a.cached :: a.registrations change := by
    simp [Session.registrations, ha, hupdated]
  have hserver : query.resourceServerId = a.cached.resourceServer := by
    by_contra hne
    have hnot : ∀ p : PolicyEntity, p.resourceServer = a.cached.resourceServer →
        query.request.selects cat p = false := fun p hp =>
      Bool.eq_false_iff.mpr fun h => hne ((resourceServerId_of_selects h).trans hp)
    exact haltered (by rw [hnot _ (apply_resourceServer ..), hnot _ rfl])
  right
  rw [hregistrations]
  rw [ne_eq, Bool.eq_iff_iff] at haltered
  cases query with
  | byResource resource server =>
      obtain rfl : server = a.cached.resourceServer := hserver
      rw [selects_byResource, selects_byResource, apply_resourceServer] at haltered
      by_cases hadd : change = .addResource resource
      · subst hadd
        exact ⟨_, .tail _ (.head _), rfl, .head _⟩
      · by_cases hremove : change = .removeResource resource
        · subst hremove
          exact ⟨_, .tail _ (.head _), rfl, .head _⟩
        · exact absurd (by rw [mem_apply_resources hadd hremove]) haltered
  | byResourceType type server =>
      obtain rfl : server = a.cached.resourceServer := hserver
      rw [selects_byResourceType hlike, selects_byResourceType hlike,
        apply_resourceServer] at haltered
      by_cases hold : a.cached.defaultResourceType = some type
      · exact ⟨_, .head _, rfl, .inl hold⟩
      · by_cases hconfig : ∃ config, change = .setConfig config
        · obtain ⟨config, rfl⟩ := hconfig
          have hnew : config.lookup "defaultResourceType" = some type := by
            by_contra hnew
            exact haltered ⟨fun h => absurd h.2 hnew, fun h => absurd h.2 hold⟩
          refine ⟨⟨a.id, a.cached.name, a.cached.resources, a.cached.scopes,
            config.lookup "defaultResourceType", a.cached.resourceServer⟩, .tail _ ?_, rfl,
            .inl hnew⟩
          rw [PolicyAdapter.registrations, if_pos (.inl (by rw [hnew]; rfl))]
          exact .tail _ (.head _)
        · rw [apply_defaultResourceType fun config heq => hconfig ⟨config, heq⟩] at haltered
          exact absurd Iff.rfl haltered
  | byResourceScope scope resource server =>
      obtain rfl : server = a.cached.resourceServer := hserver
      cases resource with
      | none =>
          rw [selects_byNullResourceScope, selects_byNullResourceScope, apply_resourceServer,
            apply_type] at haltered
          by_cases hold : scope ∈ a.cached.scopes
          · exact ⟨_, .head _, rfl, hold⟩
          · by_cases hadd : change = .addScope scope
            · subst hadd
              exact ⟨_, .tail _ (.head _), rfl, .head _⟩
            · have hnew : scope ∉ (change.apply a.cached).scopes := by
                intro hmem
                by_cases hremove : change = .removeScope scope
                · subst hremove
                  simp [Change.apply] at hmem
                · exact hold ((mem_apply_scopes hadd hremove).mp hmem)
              exact absurd ⟨fun h => absurd h.2.2.1 hnew, fun h => absurd h.2.2.1 hold⟩ haltered
      | some resource =>
          rw [selects_byResourceScope, selects_byResourceScope, apply_resourceServer,
            apply_type] at haltered
          by_cases hresource : change = .addResource resource ∨ change = .removeResource resource
          · have hscope : scope ∈ a.cached.scopes := by
              by_contra hold
              have hnew : scope ∉ (change.apply a.cached).scopes := by
                rcases hresource with rfl | rfl <;> exact hold
              exact haltered ⟨fun h => absurd h.2.2.1 hnew, fun h => absurd h.2.2.1 hold⟩
            rcases hresource with rfl | rfl <;>
              exact ⟨_, .tail _ (.head _), rfl, hscope, .head _⟩
          · have hresources := mem_apply_resources (p := a.cached)
              (fun heq => hresource (.inl heq)) fun heq => hresource (.inr heq)
            rw [hresources] at haltered
            by_cases hscope : change = .addScope scope ∨ change = .removeScope scope
            · have hold : resource ∈ a.cached.resources := by
                by_contra hold
                exact haltered ⟨fun h => absurd h.2.2.2.2.1 hold,
                  fun h => absurd h.2.2.2.2.1 hold⟩
              rcases hscope with rfl | rfl <;>
                exact ⟨_, .tail _ (.head _), rfl, .head _, hold⟩
            · rw [mem_apply_scopes (fun heq => hscope (.inl heq))
                fun heq => hscope (.inr heq)] at haltered
              exact absurd Iff.rfl haltered

end

/-! ## Runs that are not transparent, and one that is -/

/-- One resource, one scope, and a `like` without wildcards. -/
def documents : Catalogue where
  resources id := if id = "document" then some ⟨"server", none⟩ else none
  scopes id := if id = "edit" then some "server" else none
  like value pattern := value = pattern

def permission (resources scopes : List String) : Database :=
  (∅ : Database).insert "permission" ⟨"Editors", "scope", "server", resources, scopes, []⟩

def editDocument : Request := .findByScopeIds ["edit"] (some "document") "server"

def attachBoth : List Label :=
  [.begin, .find editDocument false, .findById "permission",
    .change (.addResource "document") (.adapter 0), .change (.addScope "edit") (.adapter 0),
    .commit, .begin, .find editDocument false]

/-- The list of the scope on the resource is not invalidated, and later transactions still
read it without the permission. -/
theorem attachBoth_not_transparent :
    ∃ t, Machine.run (step documents) (initial (permission [] [])) attachBoth = some t ∧
      ¬ t.Transparent := by
  refine ⟨_, rfl, fun h => ?_⟩
  have hdelivers := h.1 ⟨editDocument, [], ["permission"]⟩ (.head _)
  exact absurd ((hdelivers (some "permission")).mpr ⟨_, .head _, rfl⟩) List.not_mem_nil

/-- After a change of the permission a consumer receives nothing, and the list form returns
the permission. -/
example : (Machine.run (step documents) (initial (permission ["document"] []))
    [.begin, .findById "permission", .change (.setName "Authors") (.adapter 0),
      .find (.findByResource "document" "server") true,
      .find (.findByResource "document" "server") false]).map (·.log) =
    some [⟨.findByResource "document" "server", [some "permission"], ["permission"]⟩,
      ⟨.findByResource "document" "server", [], ["permission"]⟩] := rfl

/-- The scope alone is added, and looked up before the transaction ends. -/
def attachScope : List Label :=
  [.begin, .findById "permission", .change (.addScope "edit") (.adapter 0), .flush,
    .find editDocument false]

theorem documents_like (value pattern : String) :
    documents.like value pattern = true ↔ value = pattern :=
  decide_eq_true_iff

theorem permission_known {resources scopes : List String} (h : Known documents resources)
    {id : String} {p : PolicyEntity}
    (hp : (permission resources scopes).lookup id = some p) : Known documents p.resources := by
  rcases eq_or_ne id "permission" with rfl | hne
  · rw [permission, AList.lookup_insert, Option.some.injEq] at hp
    exact hp ▸ h
  · rw [permission, AList.lookup_insert_ne hne] at hp
    cases hp

theorem attachScope_careful : Machine.Meets (step documents) (Careful documents)
    (initial (permission ["document"] [])) attachScope := by
  refine .cons trivial rfl (.cons trivial rfl (.cons ?_ rfl (.cons trivial rfl
    (.cons ?_ rfl trivial))))
  · intro tx htx
    cases htx
    exact carefulChange_first documents_like rfl rfl rfl
  · intro tx htx query hquery
    cases htx
    obtain rfl := List.mem_singleton.mp hquery
    refine ⟨fun _ hconsumer => absurd hconsumer Bool.false_ne_true, ?_⟩
    intro _ cached policies hlist
    cases hlist

theorem attachScope_transparent : ∃ t,
    Machine.run (step documents) (initial (permission ["document"] [])) attachScope = some t ∧
      t.Transparent := by
  obtain ⟨t, hrun⟩ : ∃ t, Machine.run (step documents)
      (initial (permission ["document"] [])) attachScope = some t := ⟨_, rfl⟩
  have hknown : Known documents ["document"] := fun r hr => List.mem_singleton.mp hr ▸ rfl
  exact ⟨t, hrun, transparent_of_careful (permission_known hknown) attachScope_careful hrun⟩

end Keycloak.Cache.PolicyQueries
