import Keycloak.Authentication.RequiredActions
import Keycloak.Lib.Fallible

/-!
# The requests between authentication and login

What one request leaves behind: what the loops over the required actions have settled, which
session code is active, and whether the session waits for the consent of the user.  The outcome
of each function is a small inductive type with one case for each kind of response.
-/

namespace Keycloak.Authentication.RequiredActions

variable {δ φ : Type} {factories : String → Option (RequiredActionFactory δ φ)}
  {c c' c'' : Context δ} {model : RequiredActionProviderModel}
  {models : List RequiredActionProviderModel} {response : Response}
  {session : AuthenticationSession}
  {action execution : String} {code : Nat}

/-! ## What is pending -/

def Pending (factories : String → Option (RequiredActionFactory δ φ)) (realm : Realm) (now : Nat)
    (data : δ) (action : String) : Prop :=
  ∃ model factory, realm.getRequiredActionProviderByAlias action = some model ∧
    model.enabled = true ∧ factories model.providerId = some factory ∧
    (factory.requiredActionChallenge now data = some .challenge ∨
      factory.requiredActionChallenge now data = some .failure)

def Resolved (factories : String → Option (RequiredActionFactory δ φ)) (realm : Realm) (now : Nat)
    (user : User δ) (session : AuthenticationSession) : Prop :=
  ∀ action ∈ user.requiredActions ++ session.requiredActions,
    ¬ Pending factories realm now user.data action

def Consented (realm : Realm) (user : User δ) (session : AuthenticationSession) : Prop :=
  ∀ client, realm.getClientById session.client = some client → client.consentRequired = true →
    ∀ id ∈ session.clientScopes, ∀ clientScope, realm.findClientScopeById id = some clientScope →
      clientScope.displayOnConsentScreen = true →
        isClientScopeGranted (user.getConsentByClient realm client.id) clientScope = true

structure Plain (factories : String → Option (RequiredActionFactory δ φ)) : Prop where
  unregistered : factories Action.oauthGrant.name = none
  evaluateTriggers : ∀ id factory, factories id = some factory → ∀ now user,
    Action.oauthGrant.name ∉ user.requiredActions →
      Action.oauthGrant.name ∉ (factory.evaluateTriggers now user).requiredActions
  processAction : ∀ id factory, factories id = some factory → ∀ now form user,
    Action.oauthGrant.name ∉ user.requiredActions →
      Action.oauthGrant.name ∉ (factory.processAction now form user).2.requiredActions

/-! ## One request -/

structure Requested (c c' : Context δ) : Prop where
  realm : c'.realm = c.realm
  now : c'.now = c.now
  root : c'.session.root = c.session.root
  client : c'.session.client = c.session.client
  timestamp : c'.timestamp = c.timestamp ∨ c'.timestamp = c.now
  nextCode : c.nextCode ≤ c'.nextCode
  activeCode : ∀ code, c'.session.activeCode = some code →
    c.session.activeCode = some code ∨ c.nextCode ≤ code ∧ code < c'.nextCode

theorem Requested.refl (c : Context δ) : Requested c c where
  realm := rfl
  now := rfl
  root := rfl
  client := rfl
  timestamp := .inl rfl
  nextCode := le_rfl
  activeCode _ h := .inl h

theorem Requested.trans (h : Requested c c') (h' : Requested c' c'') : Requested c c'' where
  realm := h'.realm.trans h.realm
  now := h'.now.trans h.now
  root := h'.root.trans h.root
  client := h'.client.trans h.client
  timestamp := by
    rcases h'.timestamp with heq | heq
    · exact heq ▸ h.timestamp
    · exact .inr (heq.trans h.now)
  nextCode := h.nextCode.trans h'.nextCode
  activeCode code hcode := by
    rcases h'.activeCode code hcode with hold | ⟨hle, hlt⟩
    · exact (h.activeCode code hold).imp id fun hnew => ⟨hnew.1, hnew.2.trans_le h'.nextCode⟩
    · exact .inr ⟨h.nextCode.trans hle, hlt⟩

theorem Requested.of_session {user : User δ} {timestamp : Nat} {removed : Bool}
    (hroot : session.root = c.session.root) (hclient : session.client = c.session.client)
    (hcode : session.activeCode = c.session.activeCode ∨ session.activeCode = none)
    (htimestamp : timestamp = c.timestamp ∨ timestamp = c.now) :
    Requested c { c with user, session, timestamp, removed } where
  realm := rfl
  now := rfl
  root := hroot
  client := hclient
  timestamp := htimestamp
  nextCode := le_rfl
  activeCode code hactive := by
    rcases hcode with heq | heq
    · exact .inl (heq ▸ hactive)
    · cases heq.symm.trans hactive

theorem getOrGenerateCode_requested (c : Context δ) : Requested c c.getOrGenerateCode.2 := by
  rw [Context.getOrGenerateCode]
  split
  · exact Requested.refl c
  · refine ⟨rfl, rfl, rfl, rfl, .inl rfl, Nat.le_succ _, fun code hcode => .inr ?_⟩
    cases hcode
    exact ⟨le_rfl, Nat.lt_succ_self _⟩

theorem getOrGenerateCode_activeCode (c : Context δ) :
    c.getOrGenerateCode.2.session.activeCode = some c.getOrGenerateCode.1 := by
  rw [Context.getOrGenerateCode]
  split
  · assumption
  · rfl

theorem getOrGenerateCode_session (c : Context δ) : c.getOrGenerateCode.2 = { c with
    session := { c.session with activeCode := some c.getOrGenerateCode.1 }
    nextCode := c.getOrGenerateCode.2.nextCode } := by
  rw [Context.getOrGenerateCode]
  split
  · rename_i hcode
    rw [← hcode]
  · rfl

theorem generateCode_requested (c : Context δ) : Requested c c.generateCode.2 :=
  Requested.trans (.of_session rfl rfl (.inl rfl) (.inr rfl)) (getOrGenerateCode_requested _)

/-! ## The loops over the required actions -/

structure Reduced (c c' : Context δ) : Prop extends Requested c c' where
  data : c'.user.data = c.user.data
  consents : c'.user.consents = c.user.consents
  user : c'.user.requiredActions ⊆ c.user.requiredActions
  session : c'.session.requiredActions ⊆ c.session.requiredActions
  clientScopes : c'.session.clientScopes = c.session.clientScopes
  action : c'.session.action = c.session.action

theorem Reduced.refl (c : Context δ) : Reduced c c where
  toRequested := Requested.refl c
  data := rfl
  consents := rfl
  user := List.Subset.refl _
  session := List.Subset.refl _
  clientScopes := rfl
  action := rfl

theorem Reduced.trans (h : Reduced c c') (h' : Reduced c' c'') : Reduced c c'' where
  toRequested := h.toRequested.trans h'.toRequested
  data := h'.data.trans h.data
  consents := h'.consents.trans h.consents
  user := List.Subset.trans h'.user h.user
  session := List.Subset.trans h'.session h.session
  clientScopes := h'.clientScopes.trans h.clientScopes
  action := h'.action.trans h.action

theorem removeRequiredAction_reduced (c : Context δ) (action : String) :
    Reduced c (c.removeRequiredAction action) where
  toRequested := .of_session rfl rfl (.inl rfl) (.inl rfl)
  data := rfl
  consents := rfl
  user := List.filter_subset_self _
  session := List.filter_subset_self _
  clientScopes := rfl
  action := rfl

theorem generateCode_session (c : Context δ) : c.generateCode.2 = { c with
    timestamp := c.now
    session := { c.session with activeCode := some c.generateCode.1 }
    nextCode := c.generateCode.2.nextCode } :=
  getOrGenerateCode_session _

theorem challenged_reduced (c : Context δ) (execution : String) :
    Reduced c (c.generateCode.2.setCurrentExecution execution) where
  toRequested := (generateCode_requested c).trans (.of_session rfl rfl (.inl rfl) (.inl rfl))
  data := by
    rw [generateCode_session]
    rfl
  consents := by
    rw [generateCode_session]
    rfl
  user := by
    rw [generateCode_session]
    exact List.Subset.refl _
  session := by
    rw [generateCode_session]
    exact List.Subset.refl _
  clientScopes := by
    rw [generateCode_session]
    rfl
  action := by
    rw [generateCode_session]
    rfl

structure Shown (c c' : Context δ) (execution : String) (code : Nat) : Prop where
  currentExecution : c'.session.currentExecution = some execution
  activeCode : c'.session.activeCode = some code
  timestamp : c'.timestamp = c.now
  removed : c'.removed = c.removed

def Passes (factories : String → Option (RequiredActionFactory δ φ)) (c : Context δ)
    (model : RequiredActionProviderModel) : Prop :=
  ∀ factory, factories model.providerId = some factory →
    factory.requiredActionChallenge c.now c.user.data ≠ some .challenge ∧
      factory.requiredActionChallenge c.now c.user.data ≠ some .failure

inductive Executed (factories : String → Option (RequiredActionFactory δ φ))
    (models : List RequiredActionProviderModel) (c c' : Context δ) : Option Response → Prop where
  | passed (hmodels : ∀ model ∈ models, Passes factories c model)
      (hexecution : c'.session.currentExecution = c.session.currentExecution)
      (hremoved : c'.removed = c.removed) : Executed factories models c c' none
  | denied (hexecution : c'.session.currentExecution = c.session.currentExecution) :
      Executed factories models c c' (some .denied)
  | shown (execution : String) (code : Nat) (hfactory : (factories execution).isSome)
      (hshown : Shown c c' execution code) :
      Executed factories models c c' (some (.form execution code))

theorem executionActions_cases {action : Option Response}
    (h : executionActions factories models c = .ok (action, c')) :
    Reduced c c' ∧ Executed factories models c c' action := by
  induction models generalizing c with
  | nil =>
      cases h
      exact ⟨Reduced.refl _, .passed (fun _ hmem => by cases hmem) rfl rfl⟩
  | cons model rest ih =>
      rw [executionActions] at h
      cases hfactory : factories model.providerId with
      | none =>
          rw [hfactory] at h
          cases h
      | some factory =>
          rw [hfactory] at h
          dsimp only at h
          -- the rest of the loop does not change what this provider would say
          have hpass : ∀ d : Context δ, Reduced c d → d.removed = c.removed →
              d.session.currentExecution = c.session.currentExecution →
              factory.requiredActionChallenge c.now c.user.data ≠ some .challenge →
              factory.requiredActionChallenge c.now c.user.data ≠ some .failure →
              executionActions factories rest d = .ok (action, c') →
              Reduced c c' ∧ Executed factories (model :: rest) c c' action := by
            intro d hd hremoved hexecution hchallenge hfailure hrest
            obtain ⟨hreduced, hexecuted⟩ := ih hrest
            refine ⟨hd.trans hreduced, ?_⟩
            cases hexecuted with
            | passed hmodels hexecution' hremoved' =>
                refine .passed (List.forall_mem_cons.mpr ⟨fun factory' hfactory' => ?_, ?_⟩)
                  (hexecution'.trans hexecution) (hremoved'.trans hremoved)
                · cases hfactory.symm.trans hfactory'
                  exact ⟨hchallenge, hfailure⟩
                · intro model hmodel factory hfactory
                  have hpassed := hmodels model hmodel factory hfactory
                  rwa [hd.now, hd.data] at hpassed
            | denied hexecution' => exact .denied (hexecution'.trans hexecution)
            | shown execution code hfactory hshown =>
                exact .shown execution code hfactory ⟨hshown.currentExecution, hshown.activeCode,
                  hshown.timestamp.trans hd.now, hshown.removed.trans hremoved⟩
          split at h
          · cases h
            exact ⟨⟨.of_session rfl rfl (.inl rfl) (.inl rfl), rfl, rfl, List.Subset.refl _,
              List.Subset.refl _, rfl, rfl⟩, .denied rfl⟩
          · cases h
            refine ⟨challenged_reduced c model.providerId, .shown _ _ ?_ ⟨rfl, ?_, ?_, ?_⟩⟩
            · rw [hfactory]
              rfl
            · exact getOrGenerateCode_activeCode _
            · rw [generateCode_session]
              rfl
            · rw [generateCode_session]
              rfl
          · rename_i hstatus
            refine hpass _ (removeRequiredAction_reduced c _) rfl rfl ?_ ?_ h <;>
              rw [hstatus] <;> exact fun heq => by cases heq
          · rename_i hfailure hchallenge _
            exact hpass c (Reduced.refl c) rfl rfl hchallenge hfailure h

theorem mem_sortRequiredActionsByPriority {realm : Realm} {actions : List String} :
    model ∈ sortRequiredActionsByPriority realm actions ↔ ∃ action ∈ actions,
      realm.getRequiredActionProviderByAlias action = some model ∧ model.enabled = true := by
  simp [sortRequiredActionsByPriority, List.mem_insertionSort, Option.filter_eq_some_iff]

theorem not_pending_of_passes {actions : List String}
    (hmodels : ∀ model ∈ sortRequiredActionsByPriority c.realm actions, Passes factories c model)
    (haction : action ∈ actions) : ¬ Pending factories c.realm c.now c.user.data action := by
  rintro ⟨model, factory, hmodel, henabled, hfactory, hstatus⟩
  have hmem := mem_sortRequiredActionsByPriority.mpr ⟨action, haction, hmodel, henabled⟩
  obtain ⟨hchallenge, hfailure⟩ := hmodels model hmem factory hfactory
  exact hstatus.elim hchallenge hfailure

theorem evaluateRequiredActionTriggers_names (hplain : Plain factories) {now : Nat}
    {user user' : User δ} (h : evaluateRequiredActionTriggers factories now models user = .ok user')
    (hnames : Action.oauthGrant.name ∉ user.requiredActions) :
    Action.oauthGrant.name ∉ user'.requiredActions := by
  induction models generalizing user with
  | nil =>
      cases h
      exact hnames
  | cons model rest ih =>
      rw [evaluateRequiredActionTriggers] at h
      split at h
      · exact ih h hnames
      · split at h
        · cases h
        · rename_i factory hfactory
          exact ih h (hplain.evaluateTriggers _ _ hfactory _ _ hnames)

/-! ## Consent -/

theorem findClientScopeById_id {realm : Realm} {id : String} {clientScope : ClientScope}
    (h : realm.findClientScopeById id = some clientScope) : clientScope.id = id := by
  rw [Realm.findClientScopeById] at h
  split at h
  · rename_i hfind
    cases h
    simpa using List.find?_some hfind
  · obtain ⟨client, hclient, rfl⟩ := Option.map_eq_some_iff.mp h
    simpa using List.find?_some hclient

theorem getClientById_id {realm : Realm} {id : String} {client : Client}
    (h : realm.getClientById id = some client) : client.id = id := by
  simpa using List.find?_some h

theorem consented_of_nothing_to_approve {client : Client}
    (hclient : c.realm.getClientById c.session.client = some client)
    (h : clientScopesToApprove c client = []) : Consented c.realm c.user c.session := by
  intro client' hclient' hrequired id hid clientScope hscope hdisplay
  cases hclient.symm.trans hclient'
  rw [clientScopesToApprove, if_pos hrequired, getClientScopesToApproveOnConsentScreen,
    List.filter_eq_nil_iff] at h
  have hgranted := h clientScope (List.mem_filterMap.mpr ⟨id, hid, hscope⟩)
  simpa [hdisplay] using hgranted

theorem updateConsent_consented (c : Context δ) (granted : List String) :
    Consented c.realm (c.user.updateConsent c.session.client (granted ++
      c.session.clientScopes.filterMap fun id => (c.realm.findClientScopeById id).map (·.id)))
      c.session := by
  intro client hclient _ id hid clientScope hscope _
  have hid' := findClientScopeById_id hscope
  rw [getClientById_id hclient, User.getConsentByClient, User.updateConsent,
    List.find?_cons_of_pos (by simp)]
  refine List.contains_iff_mem.mpr (List.mem_filter.mpr ⟨List.mem_append_right _ ?_, ?_⟩)
  · exact List.mem_filterMap.mpr ⟨id, hid, by rw [hscope]; rfl⟩
  · rw [hid', hscope]
    rfl

/-! ## The next action -/

def Awaiting (session : AuthenticationSession) : Prop :=
  session.action = some .requiredActions ∧
    session.currentExecution = some Action.oauthGrant.name

def Asks : Response → Prop
  | .oauthGrant _ _ => True
  | .redirect _ execution => execution = some Action.oauthGrant.name
  | _ => False

structure Named (c : Context δ) : Prop where
  user : Action.oauthGrant.name ∉ c.user.requiredActions
  session : Action.oauthGrant.name ∉ c.session.requiredActions

theorem Named.reduced (h : Named c) (hreduced : Reduced c c') : Named c' where
  user hmem := h.user (hreduced.user hmem)
  session hmem := h.session (hreduced.session hmem)

inductive Required (factories : String → Option (RequiredActionFactory δ φ)) (c c' : Context δ) :
    Option Response → Prop where
  | nothing (hresolved : Resolved factories c'.realm c'.now c'.user c'.session)
      (hconsented : Consented c'.realm c'.user c'.session)
      (hexecution : c'.session.currentExecution = c.session.currentExecution)
      (haction : c'.session.action = c.session.action)
      (hremoved : c'.removed = c.removed) : Required factories c c' none
  | denied (haction : c'.session.action = c.session.action)
      (hexecution : c'.session.currentExecution = c.session.currentExecution) :
      Required factories c c' (some .denied)
  | form (execution : String) (code : Nat) (hfactory : (factories execution).isSome)
      (haction : c'.session.action = c.session.action) (hshown : Shown c c' execution code) :
      Required factories c c' (some (.form execution code))
  | oauthGrant (code : Nat) (clientScopes : List ClientScope)
      (hresolved : Resolved factories c'.realm c'.now c'.user c'.session)
      (haction : c'.session.action = some .requiredActions)
      (hshown : Shown c c' Action.oauthGrant.name code) :
      Required factories c c' (some (.oauthGrant code clientScopes))

theorem actionRequired_cases {requiredAction : Option Response}
    (h : actionRequired factories c = .ok (requiredAction, c')) :
    Requested c c' ∧ Required factories c c' requiredAction ∧
      (Plain factories → Named c → Named c') := by
  rw [actionRequired] at h
  split at h
  swap
  · cases h
  rename_i client hclient _
  obtain ⟨user, huser, h⟩ := Except.bind_eq_ok.mp h
  obtain ⟨⟨first, c₁⟩, hfirst, h⟩ := Except.bind_eq_ok.mp h
  have hstart : Requested c { c with user := user } := .of_session rfl rfl (.inl rfl) (.inl rfl)
  obtain ⟨hreduced, hexecuted⟩ := executionActions_cases hfirst
  have hnames : Plain factories → Named c → Named { c with user := user } := fun hplain hnamed =>
    ⟨evaluateRequiredActionTriggers_names hplain huser hnamed.user, hnamed.session⟩
  cases hexecuted with
  | denied hexecution =>
      cases h
      exact ⟨hstart.trans hreduced.toRequested, .denied hreduced.action hexecution,
        fun hplain hnamed => (hnames hplain hnamed).reduced hreduced⟩
  | shown execution code hfactory hshown =>
      cases h
      exact ⟨hstart.trans hreduced.toRequested,
        .form execution code hfactory hreduced.action
          ⟨hshown.currentExecution, hshown.activeCode, hshown.timestamp, hshown.removed⟩,
        fun hplain hnamed => (hnames hplain hnamed).reduced hreduced⟩
  | passed hmodels hexecution hremoved =>
      obtain ⟨⟨second, c₂⟩, hsecond, h⟩ := Except.bind_eq_ok.mp h
      obtain ⟨hreduced', hexecuted'⟩ := executionActions_cases hsecond
      have hboth := hreduced.trans hreduced'
      have hrequested := hstart.trans hboth.toRequested
      have hnamed₂ : Plain factories → Named c → Named c₂ := fun hplain hnamed =>
        (hnames hplain hnamed).reduced hboth
      cases hexecuted' with
      | denied hexecution' =>
          cases h
          exact ⟨hrequested, .denied hboth.action (hexecution'.trans hexecution), hnamed₂⟩
      | shown execution code hfactory hshown =>
          cases h
          exact ⟨hrequested, .form execution code hfactory hboth.action ⟨hshown.currentExecution,
            hshown.activeCode, hshown.timestamp.trans hreduced.now,
            hshown.removed.trans hremoved⟩, hnamed₂⟩
      | passed hmodels' hexecution' hremoved' =>
          have hresolved : Resolved factories c₂.realm c₂.now c₂.user c₂.session := by
            intro action haction
            rw [hboth.realm, hboth.now, hboth.data]
            rcases List.mem_append.mp haction with hin | hin
            · exact not_pending_of_passes (c := { c with user := user }) hmodels (hboth.user hin)
            · rw [← hreduced.realm, ← hreduced.now, ← hreduced.data]
              exact not_pending_of_passes hmodels' (hreduced'.session hin)
          have hclient₂ : c₂.realm.getClientById c₂.session.client = some client := by
            rw [hboth.realm, hboth.client]
            exact hclient
          simp only [Option.isSome_none, Bool.false_eq_true, if_false] at h
          split at h
          · rename_i happrove
            cases h
            have hconsented := consented_of_nothing_to_approve hclient₂ happrove
            exact ⟨hrequested, .nothing hresolved hconsented (hexecution'.trans hexecution)
              hboth.action (hremoved'.trans hremoved), hnamed₂⟩
          · cases h
            have hasked := getOrGenerateCode_session
              ((c₂.setAction .requiredActions).setCurrentExecution Action.oauthGrant.name)
            have hset : Requested c₂ ((c₂.setAction .requiredActions).setCurrentExecution
                Action.oauthGrant.name) := .of_session rfl rfl (.inl rfl) (.inr rfl)
            have hmade := hset.trans (getOrGenerateCode_requested _)
            refine ⟨hrequested.trans hmade, .oauthGrant _ _ ?_ ?_ ⟨?_, ?_, ?_, ?_⟩, fun hp hn => ?_⟩
            · rw [hasked]
              exact hresolved
            · rw [hasked]
              rfl
            · rw [hasked]
              rfl
            · exact getOrGenerateCode_activeCode _
            · rw [hasked]
              exact hrequested.now
            · rw [hasked]
              exact hremoved'.trans hremoved
            · rw [hasked]
              exact ⟨(hnamed₂ hp hn).user, (hnamed₂ hp hn).session⟩

/-! ## The checks of a request -/

def Back : Response → Prop
  | .redirect _ _ | .expired _ _ => True
  | _ => False

inductive Verified (c c' : Context δ) (code : Option Nat) (executedAction : Option String) :
    Checked → Prop where
  | back (response : Response) (hback : Back response) :
      Verified c c' code executedAction (.response response)
  | refresh (hcode : code = none) (hsession : c'.session = c.session)
      (haction : c.session.action = some .requiredActions) :
      Verified c c' code executedAction (.passed false)
  | answer (hcode : code = c.session.activeCode) (hisSome : code.isSome)
      (hexecution : executedAction = c.session.currentExecution) (hexecuted : executedAction.isSome)
      (hsession : c'.session = { c.session with activeCode := none })
      (haction : c.session.action = some .requiredActions) :
      Verified c c' code executedAction (.passed true)

structure Checking (c c' : Context δ) : Prop extends Requested c c' where
  user : c'.user = c.user
  requiredActions : c'.session.requiredActions = c.session.requiredActions
  removed : c'.removed = c.removed
  awaiting : Awaiting c'.session → Awaiting c.session

theorem Checking.refl (c : Context δ) : Checking c c :=
  ⟨Requested.refl c, rfl, rfl, rfl, id⟩

theorem Checking.trans (h : Checking c c') (h' : Checking c' c'') : Checking c c'' where
  toRequested := h.toRequested.trans h'.toRequested
  user := h'.user.trans h.user
  requiredActions := h'.requiredActions.trans h.requiredActions
  removed := h'.removed.trans h.removed
  awaiting haw := h.awaiting (h'.awaiting haw)

theorem transition_checking (c : Context δ) (execution : Option String) (flowPath : String) :
    Checking c (transition c execution flowPath) := by
  rw [transition]
  split
  · rename_i hmove
    refine ⟨.of_session rfl rfl (.inl rfl) (.inl rfl), rfl, rfl, rfl, fun haw => ?_⟩
    cases hmove.2.2.symm.trans haw.1
  · exact Checking.refl c

theorem transition_of_requiredActions {execution : Option String} {flowPath : String}
    (h : c.session.action = some .requiredActions) : transition c execution flowPath = c := by
  rw [transition, if_neg]
  rintro ⟨-, -, haction⟩
  cases h.symm.trans haction

theorem usedCode_checking (c : Context δ) :
    Checking c { c with session := { c.session with activeCode := none } } :=
  ⟨.of_session rfl rfl (.inr rfl) (.inl rfl), rfl, rfl, rfl, id⟩

theorem resetFlow_checking (c : Context δ) (flowPath : String) :
    Checking c (c.resetFlow flowPath) :=
  ⟨.of_session rfl rfl (.inr rfl) (.inr rfl), rfl, rfl, rfl, fun haw => by cases haw.1⟩

inductive Initial (c c' : Context δ) (code : Option Nat) : Checked → Prop where
  | back (response : Response) (hback : Back response) : Initial c c' code (.response response)
  | refresh (hcode : code = none)
      (hsession : c.session.action = some .requiredActions → c'.session = c.session)
      (haction : c'.session.action = c.session.action) : Initial c c' code (.passed false)
  | answer (hcode : code = c.session.activeCode) (hisSome : code.isSome)
      (hsession : c'.session = { c.session with activeCode := none }) :
      Initial c c' code (.passed true)

theorem initialVerify_cases {execution : Option String} {code : Option Nat} {flowPath : String}
    {checked : Checked} (h : initialVerify c code execution flowPath = .ok (checked, c')) :
    Checking c c' ∧ Initial c c' code checked := by
  unfold initialVerify at h
  split at h
  · cases h
  split at h
  · cases h
  split at h
  · have hchecking := transition_checking c execution flowPath
    dsimp only at h
    split at h
    · cases h
      refine ⟨hchecking, .refresh rfl (fun haction => ?_) ?_⟩
      · rw [transition_of_requiredActions haction]
      · rw [transition]
        split <;> rfl
    · cases h
      exact ⟨hchecking, .back _ trivial⟩
  · rename_i code
    have hchecking := usedCode_checking c
    dsimp only at h
    split at h
    · rename_i hcode
      cases h
      exact ⟨hchecking, .answer hcode.symm rfl rfl⟩
    · split at h
      · split at h
        · cases h
        · cases h
          exact ⟨hchecking, .back _ trivial⟩
      · cases h
        exact ⟨hchecking, .back _ trivial⟩

theorem checks_cases {execution executedAction : Option String} {code : Option Nat}
    {flowPath : String} {checked result : Checked} {c₁ : Context δ}
    (hinitial : initialVerify c code execution flowPath = .ok (checked, c₁))
    (hverify : verifyRequiredAction c₁ checked executedAction = (result, c')) :
    Checking c c' ∧ Verified c c' code executedAction result := by
  obtain ⟨hchecking, hcases⟩ := initialVerify_cases hinitial
  unfold verifyRequiredAction at hverify
  cases hcases with
  | back response hback =>
      cases hverify
      exact ⟨hchecking, .back response hback⟩
  | refresh hcode hsession haction =>
      dsimp only at hverify
      split at hverify
      · cases hverify
        exact ⟨hchecking, .back _ trivial⟩
      · rename_i hrequired
        have hrequired' := haction.symm.trans (not_not.mp hrequired)
        split at hverify
        · cases hverify
          exact ⟨hchecking.trans (resetFlow_checking _ _), .back _ trivial⟩
        · rw [if_neg (fun h => by cases h.1)] at hverify
          cases hverify
          exact ⟨hchecking, .refresh hcode (hsession hrequired') hrequired'⟩
  | answer hcode hisSome hsession =>
      dsimp only at hverify
      split at hverify
      · cases hverify
        exact ⟨hchecking, .back _ trivial⟩
      · rename_i hrequired
        split at hverify
        · cases hverify
          exact ⟨hchecking.trans (resetFlow_checking _ _), .back _ trivial⟩
        · split at hverify
          · cases hverify
            exact ⟨hchecking, .back _ trivial⟩
          · rename_i hexecuted
            cases hverify
            rw [hsession] at hrequired hexecuted
            have hsome : executedAction ≠ none := fun heq => hexecuted ⟨rfl, .inl heq⟩
            have heq : executedAction = c.session.currentExecution := by
              by_contra hne
              exact hexecuted ⟨rfl, .inr hne⟩
            exact ⟨hchecking, .answer hcode hisSome heq (Option.isSome_iff_ne_none.mpr hsome)
              hsession (not_not.mp hrequired)⟩

/-! ## The requests -/

structure Processed (factories : String → Option (RequiredActionFactory δ φ)) (c c' : Context δ)
    (response : Response) : Prop extends Requested c c' where
  named : Plain factories → Named c → Named c'
  awaiting : Plain factories → Named c → Awaiting c'.session → Awaiting c.session ∨
    Asks response ∧ Resolved factories c'.realm c'.now c'.user c'.session

structure Completed (factories : String → Option (RequiredActionFactory δ φ)) (c' : Context δ)
    (response : Response) : Prop where
  login : ∀ session, response = .login session → session = c'.session ∧
    Resolved factories c'.realm c'.now c'.user session ∧ Consented c'.realm c'.user session

def Opens : Response → String → Nat → Prop
  | .form execution code, execution', code' => execution' = execution ∧ code' = code
  | .oauthGrant code _, execution', code' => execution' = Action.oauthGrant.name ∧ code' = code
  | _, _, _ => False

structure Answerable (c : Context δ) (execution : String) (code : Nat) : Prop where
  action : c.session.action = some .requiredActions
  currentExecution : c.session.currentExecution = some execution
  activeCode : c.session.activeCode = some code
  timestamp : c.timestamp = c.now
  removed : c.removed = false

def Paged (c c' : Context δ) (response : Response) : Prop :=
  c.removed = false → ∀ execution code, Opens response execution code →
    Answerable c' execution code

theorem Checking.processed (h : Checking c c') (response : Response) :
    Processed factories c c' response where
  toRequested := h.toRequested
  named _ hnamed := ⟨h.user ▸ hnamed.user, h.requiredActions ▸ hnamed.session⟩
  awaiting _ _ haw := .inl (h.awaiting haw)

/-- The session is given up, and the user's required actions are as they were. -/
theorem Checking.ended (h : Checking c c') {user : User δ}
    (huser : user.requiredActions = c'.user.requiredActions) (response : Response) :
    Processed factories c { c' with user := user, removed := true } response where
  toRequested := h.toRequested.trans (.of_session rfl rfl (.inl rfl) (.inl rfl))
  named _ hnamed := ⟨huser ▸ h.user ▸ hnamed.user, h.requiredActions ▸ hnamed.session⟩
  awaiting _ _ haw := .inl (h.awaiting haw)

/-- A request begins with the checks, or with a change that does not touch what is awaited. -/
theorem Processed.after (h : Processed factories c' c'' response) (hrequested : Requested c c')
    (hnamed : Plain factories → Named c → Named c')
    (hawaiting : Awaiting c'.session → Awaiting c.session) :
    Processed factories c c'' response where
  toRequested := hrequested.trans h.toRequested
  named hplain hc := h.named hplain (hnamed hplain hc)
  awaiting hplain hc haw := (h.awaiting hplain (hnamed hplain hc) haw).imp hawaiting id

theorem nextActionAfterAuthentication_cases
    (h : nextActionAfterAuthentication factories c = .ok (response, c')) :
    Processed factories c c' response ∧ Completed factories c' response ∧
      (c.session.action = some .requiredActions → Paged c c' response) := by
  obtain ⟨⟨requiredAction, c₁⟩, hrequired, h⟩ := Except.bind_eq_ok.mp h
  obtain ⟨hrequested, houtcome, hnamed⟩ := actionRequired_cases hrequired
  have hkept : c₁.session.action = c.session.action →
      c₁.session.currentExecution = c.session.currentExecution →
      Awaiting c₁.session → Awaiting c.session :=
    fun haction hexecution haw => ⟨haction ▸ haw.1, hexecution ▸ haw.2⟩
  cases houtcome with
  | nothing hresolved hconsented hexecution haction hremoved =>
      have hfinished : Processed factories c { c₁ with removed := true } response :=
        ⟨hrequested.trans (.of_session rfl rfl (.inl rfl) (.inl rfl)),
          fun hplain hc => ⟨(hnamed hplain hc).user, (hnamed hplain hc).session⟩,
          fun _ _ haw => .inl (hkept haction hexecution haw)⟩
      replace h : Except.ok (finishedRequiredActions c₁) = Except.ok (response, c') := h
      rw [finishedRequiredActions] at h
      split at h <;> cases h
      · exact ⟨hfinished, ⟨fun _ heq => by cases heq⟩, fun _ _ _ _ hopens => hopens.elim⟩
      · refine ⟨hfinished, ⟨fun session heq => ?_⟩, fun _ _ _ _ hopens => hopens.elim⟩
        cases heq
        exact ⟨rfl, hresolved, hconsented⟩
  | denied haction hexecution =>
      cases h
      exact ⟨⟨hrequested, hnamed, fun _ _ haw => .inl (hkept haction hexecution haw)⟩,
        ⟨fun _ heq => by cases heq⟩, fun _ _ _ _ hopens => hopens.elim⟩
  | form execution code hfactory haction hshown =>
      cases h
      refine ⟨⟨hrequested, hnamed, fun hplain _ haw => ?_⟩, ⟨fun _ heq => by cases heq⟩, ?_⟩
      · -- a provider has another name than the consent page
        cases hshown.currentExecution.symm.trans haw.2
        rw [hplain.unregistered] at hfactory
        cases hfactory
      · rintro hstate hremoved _ _ ⟨rfl, rfl⟩
        exact ⟨haction.trans hstate, hshown.currentExecution, hshown.activeCode,
          hshown.timestamp.trans hrequested.now.symm, hshown.removed.trans hremoved⟩
  | oauthGrant code clientScopes hresolved haction hshown =>
      cases h
      refine ⟨⟨hrequested, hnamed, fun _ _ _ => .inr ⟨trivial, hresolved⟩⟩,
        ⟨fun _ heq => by cases heq⟩, ?_⟩
      rintro - hremoved _ _ ⟨rfl, rfl⟩
      exact ⟨haction, hshown.currentExecution, hshown.activeCode,
        hshown.timestamp.trans hrequested.now.symm, hshown.removed.trans hremoved⟩

theorem Back.completed (hback : Back response) : Completed factories c' response where
  login session heq := by
    subst heq
    exact hback.elim

theorem Back.paged (hback : Back response) : Paged c c' response := by
  intro _ _ _ hopens
  cases response <;> first | exact hback.elim | exact hopens.elim

theorem processAction_cases {factory : RequiredActionFactory δ φ} {form : φ}
    (hregistered : factories execution = some factory)
    (haction : c.session.action = some .requiredActions)
    (hexecution : c.session.currentExecution = some execution)
    (h : processAction factories execution factory form c = .ok (response, c')) :
    Processed factories c c' response ∧ Completed factories c' response ∧ Paged c c' response := by
  rw [processAction] at h
  -- the provider works on the user only
  have hacted : Requested c { c with user := (factory.processAction c.now form c.user).2 } :=
    .of_session rfl rfl (.inl rfl) (.inl rfl)
  have hnamed : Plain factories → Named c →
      Named { c with user := (factory.processAction c.now form c.user).2 } :=
    fun hplain hc => ⟨hplain.processAction _ _ hregistered _ _ _ hc.user, hc.session⟩
  dsimp only at h
  split at h
  · obtain ⟨hprocessed, hcompleted, hpaged⟩ := nextActionAfterAuthentication_cases h
    have hreduced := removeRequiredAction_reduced { c with
      user := (factory.processAction c.now form c.user).2 } execution
    refine ⟨hprocessed.after ((hacted.trans hreduced.toRequested).trans
      (.of_session rfl rfl (.inl rfl) (.inl rfl))) (fun hplain hc => ?_)
      (fun haw => by cases haw.2), hcompleted, hpaged haction⟩
    have hnamed' := (hnamed hplain hc).reduced hreduced
    exact ⟨hnamed'.user, hnamed'.session⟩
  · cases h
    have hmade := generateCode_session { c with
      user := (factory.processAction c.now form c.user).2 }
    refine ⟨⟨hacted.trans (generateCode_requested _), fun hplain hc => ?_,
      fun _ _ haw => .inl ?_⟩, ⟨fun _ heq => by cases heq⟩, ?_⟩
    · rw [hmade]
      exact ⟨(hnamed hplain hc).user, (hnamed hplain hc).session⟩
    · rw [hmade] at haw
      exact haw
    · rintro hremoved _ _ ⟨rfl, rfl⟩
      refine ⟨?_, ?_, getOrGenerateCode_activeCode _, ?_, ?_⟩
      · rw [hmade]
        exact haction
      · rw [hmade]
        exact hexecution
      · rw [hmade]
      · rw [hmade]
        exact hremoved
  · cases h
    exact ⟨⟨hacted.trans (.of_session rfl rfl (.inl rfl) (.inl rfl)),
      fun hplain hc => ⟨(hnamed hplain hc).user, (hnamed hplain hc).session⟩,
      fun _ _ haw => .inl haw⟩, ⟨fun _ heq => by cases heq⟩, fun _ _ _ hopens => hopens.elim⟩
  · cases h

theorem processRequireAction_cases {code : Option Nat} {action : Option String} {form : φ}
    (h : processRequireAction factories code action form c = .ok (response, c')) :
    Processed factories c c' response ∧ Completed factories c' response ∧ Paged c c' response := by
  obtain ⟨⟨checked, c₁⟩, hinitial, hrest⟩ := Except.bind_eq_ok.mp h
  dsimp only at hrest
  split at hrest
  · rename_i _ c₂ hverify
    cases hrest
    obtain ⟨hchecking, hverified⟩ := checks_cases hinitial hverify
    cases hverified with
    | back _ hback => exact ⟨hchecking.processed response, hback.completed, hback.paged⟩
  · rename_i c₂ hverify
    obtain ⟨hchecking, hverified⟩ := checks_cases hinitial hverify
    cases hverified with
    | refresh hcode hsession haction =>
        obtain ⟨hprocessed, hcompleted, hpaged⟩ := nextActionAfterAuthentication_cases hrest
        exact ⟨hprocessed.after hchecking.toRequested (hchecking.processed response).named
          hchecking.awaiting, hcompleted,
          fun hremoved => hpaged (hsession ▸ haction) (hchecking.removed.trans hremoved)⟩
  · rename_i c₂ hverify
    obtain ⟨hchecking, hverified⟩ := checks_cases hinitial hverify
    cases hverified with
    | answer hcode hisSome hexecution hexecuted hsession haction =>
        split at hrest
        · cases hrest
          exact ⟨hchecking.processed _, ⟨fun _ heq => by cases heq⟩,
            fun _ _ _ hopens => hopens.elim⟩
        · rename_i execution factory hfactory
          obtain ⟨_, rfl, hfactory⟩ := Option.bind_eq_some_iff.mp hfactory
          obtain ⟨factory', hregistered, heq⟩ := Option.map_eq_some_iff.mp hfactory
          cases heq
          obtain ⟨hprocessed, hcompleted, hpaged⟩ := processAction_cases hregistered
            (by rw [hsession]; exact haction) (by rw [hsession]; exact hexecution.symm) hrest
          exact ⟨hprocessed.after hchecking.toRequested (hchecking.processed response).named
            hchecking.awaiting, hcompleted, fun hremoved =>
            hpaged (hchecking.removed.trans hremoved)⟩

theorem processConsent_cases {code : Option Nat} {cancel : Bool}
    (h : processConsent code cancel c = .ok (response, c')) :
    Processed factories c c' response ∧ (∀ execution code, ¬ Opens response execution code) ∧
      ∀ session, response = .login session → cancel = false ∧ session = c'.session ∧
        Consented c'.realm c'.user session ∧ (code = none ∨ Awaiting c.session) := by
  obtain ⟨⟨checked, c₁⟩, hinitial, hrest⟩ := Except.bind_eq_ok.mp h
  dsimp only at hrest
  split at hrest
  · rename_i _ c₂ hverify
    cases hrest
    obtain ⟨hchecking, hverified⟩ := checks_cases hinitial hverify
    cases hverified with
    | back _ hback =>
        refine ⟨hchecking.processed response, fun _ _ hopens => ?_, fun _ heq => ?_⟩
        · cases response <;> first | exact hback.elim | exact hopens.elim
        · subst heq
          exact hback.elim
  · rename_i passed c₂ hverify
    obtain ⟨hchecking, hverified⟩ := checks_cases hinitial hverify
    split at hrest
    · cases hrest
    split at hrest
    · cases hrest
      exact ⟨hchecking.ended rfl _, fun _ _ hopens => hopens.elim, fun _ heq => by cases heq⟩
    · rename_i hcancel
      cases hrest
      have huser : ∀ scopes, (c₂.user.updateConsent c₂.session.client scopes).requiredActions =
          c₂.user.requiredActions := fun _ => rfl
      refine ⟨hchecking.ended (huser _) _, fun _ _ hopens => hopens.elim, fun session heq => ?_⟩
      cases heq
      refine ⟨Bool.eq_false_of_not_eq_true hcancel, rfl, updateConsent_consented c₂ _, ?_⟩
      cases hverified with
      | refresh hcode hsession haction => exact .inl hcode
      | answer hcode hisSome hexecution hexecuted hsession haction =>
          exact .inr ⟨haction, hexecution.symm⟩

theorem authenticationForm_cases (h : authenticationForm execution c = .ok (response, c')) :
    Processed factories c c' response ∧ ∃ code, response = .form execution code := by
  rw [authenticationForm] at h
  split at h
  · rename_i hactive
    cases h
    have hreduced := challenged_reduced c execution
    refine ⟨⟨hreduced.toRequested, fun _ hc => hc.reduced hreduced, fun _ _ haw => ?_⟩, _, rfl⟩
    -- the session is still in the flow
    cases (hreduced.action.trans hactive.1).symm.trans haw.1
  · cases h

inductive NextRequired (c' : Context δ) : Option String → Prop where
  | nothing (huser : c'.user.requiredActions = []) (hsession : c'.session.requiredActions = [])
      (hconsented : Consented c'.realm c'.user c'.session) : NextRequired c' none
  | action (action : String)
      (hmem : action ∈ c'.user.requiredActions ∨ action ∈ c'.session.requiredActions) :
      NextRequired c' (some action)
  | consent (huser : c'.user.requiredActions = []) (hsession : c'.session.requiredActions = []) :
      NextRequired c' (some Action.oauthGrant.name)

theorem nextRequiredAction_cases {requiredAction : Option String}
    (h : nextRequiredAction factories c = .ok (requiredAction, c')) :
    NextRequired c' requiredAction ∧ ∃ user, c' = { c with user := user } ∧
      (Plain factories → Named c → Action.oauthGrant.name ∉ user.requiredActions) := by
  rw [nextRequiredAction] at h
  split at h
  swap
  · cases h
  rename_i client hclient _
  obtain ⟨user, huser, hrest⟩ := Except.bind_eq_ok.mp h
  have hnames : Plain factories → Named c → Action.oauthGrant.name ∉ user.requiredActions :=
    fun hplain hc => evaluateRequiredActionTriggers_names hplain huser hc.user
  dsimp only at hrest
  split at hrest
  · rename_i hlist
    cases hrest
    exact ⟨.action _ (.inl (by rw [hlist]; exact List.mem_cons_self)), user, rfl, hnames⟩
  · rename_i hempty hlist
    cases hrest
    exact ⟨.action _ (.inr (by rw [hlist]; exact List.mem_cons_self)), user, rfl, hnames⟩
  · rename_i hempty hempty'
    split at hrest
    · rename_i happrove
      cases hrest
      exact ⟨.nothing hempty hempty'
        (consented_of_nothing_to_approve (c := { c with user := user }) hclient happrove),
        user, rfl, hnames⟩
    · cases hrest
      exact ⟨.consent hempty hempty', user, rfl, hnames⟩

theorem resolved_of_nil {realm : Realm} {now : Nat} {user : User δ}
    (huser : user.requiredActions = []) (hsession : session.requiredActions = []) :
    Resolved factories realm now user session := by
  intro action haction
  rw [huser, hsession] at haction
  cases haction

theorem authenticationComplete_cases (haction : c.session.action = some .authenticate)
    (h : authenticationComplete factories c = .ok (response, c')) :
    Processed factories c c' response ∧ Completed factories c' response ∧
      ∀ execution code, ¬ Opens response execution code := by
  rw [authenticationComplete] at h
  split at h
  · cases h
  obtain ⟨⟨requiredAction, c₁⟩, hnext, hrest⟩ := Except.bind_eq_ok.mp h
  obtain ⟨hrequired, user, rfl, hnames⟩ := nextRequiredAction_cases hnext
  have hnamed : Plain factories → Named c → Action.oauthGrant.name ∉ user.requiredActions :=
    fun hplain hc => hnames hplain ⟨hc.user, hc.session⟩
  cases hrequired with
  | nothing huser hsession hconsented =>
      replace hrest : Except.ok (finishedRequiredActions _) = Except.ok (response, c') := hrest
      rw [finishedRequiredActions] at hrest
      split at hrest <;> cases hrest
      · refine ⟨⟨.of_session rfl rfl (.inl rfl) (.inl rfl),
          fun hplain hc => ⟨hnamed hplain hc, hc.session⟩, fun _ _ haw => ?_⟩,
          ⟨fun _ heq => by cases heq⟩, fun _ _ hopens => hopens.elim⟩
        cases haction.symm.trans haw.1
      · refine ⟨⟨.of_session rfl rfl (.inl rfl) (.inl rfl),
          fun hplain hc => ⟨hnamed hplain hc, hc.session⟩, fun _ _ haw => ?_⟩,
          ⟨fun session heq => ?_⟩, fun _ _ hopens => hopens.elim⟩
        · cases haction.symm.trans haw.1
        · cases heq
          exact ⟨rfl, resolved_of_nil huser hsession, hconsented⟩
  | action action hmem =>
      cases hrest
      refine ⟨⟨.of_session rfl rfl (.inl rfl) (.inr rfl),
        fun hplain hc => ⟨hnamed hplain hc, hc.session⟩, fun hplain hc haw => ?_⟩,
        ⟨fun _ heq => by cases heq⟩, fun _ _ hopens => hopens.elim⟩
      -- a required action is not the consent page
      have heq : action = Action.oauthGrant.name := Option.some.inj haw.2
      rcases hmem with hmem | hmem
      · exact absurd (heq ▸ hmem) (hnamed hplain hc)
      · exact absurd (heq ▸ hmem) hc.session
  | consent huser hsession =>
      cases hrest
      exact ⟨⟨.of_session rfl rfl (.inl rfl) (.inr rfl),
        fun hplain hc => ⟨hnamed hplain hc, hc.session⟩,
        fun _ _ _ => .inr ⟨rfl, resolved_of_nil huser hsession⟩⟩,
        ⟨fun _ heq => by cases heq⟩, fun _ _ hopens => hopens.elim⟩

/-! ## A code that is given is used up -/

theorem checks_used {execution executedAction : Option String} {flowPath : String}
    {checked result : Checked} {c₁ : Context δ}
    (hinitial : initialVerify c (some code) execution flowPath = .ok (checked, c₁))
    (hverify : verifyRequiredAction c₁ checked executedAction = (result, c')) :
    c'.session.activeCode = none ∧ c'.nextCode = c.nextCode := by
  have hused : c₁.session.activeCode = none ∧ c₁.nextCode = c.nextCode := by
    unfold initialVerify at hinitial
    split at hinitial
    · cases hinitial
    split at hinitial
    · cases hinitial
    dsimp only at hinitial
    split at hinitial
    · cases hinitial
      exact ⟨rfl, rfl⟩
    · split at hinitial
      · split at hinitial <;> cases hinitial
        exact ⟨rfl, rfl⟩
      · cases hinitial
        exact ⟨rfl, rfl⟩
  unfold verifyRequiredAction at hverify
  split at hverify
  · cases hverify
    exact hused
  split at hverify
  · cases hverify
    exact hused
  split at hverify
  · cases hverify
    exact ⟨rfl, hused.2⟩
  split at hverify <;> cases hverify <;> exact hused

theorem processRequireAction_used {action : Option String} {form : φ}
    (h : processRequireAction factories (some code) action form c = .ok (response, c')) :
    ∀ code', c'.session.activeCode = some code' → c.nextCode ≤ code' := by
  obtain ⟨⟨checked, c₁⟩, hinitial, hrest⟩ := Except.bind_eq_ok.mp h
  intro code' hcode'
  dsimp only at hrest
  have hnew : ∀ c₂ : Context δ, c₂.session.activeCode = none ∧ c₂.nextCode = c.nextCode →
      Requested c₂ c' → c.nextCode ≤ code' := by
    intro c₂ hused hrequested
    rcases hrequested.activeCode code' hcode' with hold | ⟨hle, -⟩
    · cases hused.1.symm.trans hold
    · exact hused.2 ▸ hle
  split at hrest
  · rename_i c₂ hverify
    cases hrest
    exact hnew _ (checks_used hinitial hverify) (Requested.refl _)
  · rename_i c₂ hverify
    cases (checks_cases hinitial hverify).2 with
    | refresh hcode => cases hcode
  · rename_i c₂ hverify
    have hused := checks_used hinitial hverify
    cases (checks_cases hinitial hverify).2 with
    | answer hcode hisSome hexecution hexecuted hsession haction =>
        split at hrest
        · cases hrest
          exact hnew _ hused (Requested.refl _)
        · rename_i execution factory hfactory
          obtain ⟨_, rfl, hfactory⟩ := Option.bind_eq_some_iff.mp hfactory
          obtain ⟨factory', hregistered, heq⟩ := Option.map_eq_some_iff.mp hfactory
          cases heq
          exact hnew _ hused (processAction_cases hregistered (by rw [hsession]; exact haction)
            (by rw [hsession]; exact hexecution.symm) hrest).1.toRequested

theorem processConsent_used {cancel : Bool}
    (h : processConsent (some code) cancel c = .ok (response, c')) :
    c'.session.activeCode = none := by
  obtain ⟨⟨checked, c₁⟩, hinitial, hrest⟩ := Except.bind_eq_ok.mp h
  dsimp only at hrest
  split at hrest
  · rename_i c₂ hverify
    cases hrest
    exact (checks_used hinitial hverify).1
  · rename_i c₂ hverify
    have hused := checks_used hinitial hverify
    split at hrest
    · cases hrest
    split at hrest <;> cases hrest <;> exact hused.1

/-! ## One step of the server -/

section

variable {s s' t t' : Server δ} {label : Label δ φ} {labels : List (Label δ φ)} {tab tab' : Nat}

def Allowed : Label δ φ → Prop
  | .authenticationComplete _ _ _ requiredActions =>
      Action.oauthGrant.name ∉ requiredActions
  | .updateUser user => Action.oauthGrant.name ∉ user.requiredActions
  | _ => True

theorem request_eq_ok {process : Context δ → Except Failure (Response × Context δ)}
    {response : Option Response} (h : s.request tab process = .ok (response, s')) :
    ∃ session r c', s.sessions tab = some session ∧ process (s.context session) = .ok (r, c') ∧
      response = some r ∧ s' = s.commit tab c' := by
  rw [Server.request] at h
  split at h
  · cases h
  · rename_i session hsession
    obtain ⟨⟨r, c'⟩, hprocess, heq⟩ := Except.map_eq_ok.mp h
    cases heq
    exact ⟨session, r, c', hsession, hprocess, rfl, rfl⟩

theorem endOfFlow_requested (posted ended : Bool) (requiredActions : List String)
    (c : Context δ) : Requested c (endOfFlow posted ended requiredActions c) := by
  refine .of_session rfl rfl ?_ (.inr rfl)
  cases posted
  · exact .inl rfl
  · exact .inr rfl

inductive Handled (factories : String → Option (RequiredActionFactory δ φ)) (s s' : Server δ)
    (label : Label δ φ) : Option Response → Prop where
  | request (tab : Nat) (session : AuthenticationSession) (response : Response) (c' : Context δ)
      (htab : label.tab = some tab) (hsession : s.sessions tab = some session)
      (hrequested : Requested (s.context session) c')
      (hprocessed : Allowed label → Processed factories (s.context session) c' response)
      (hs' : s' = s.commit tab c') : Handled factories s s' label (some response)
  | created (tab root : Nat) (session : AuthenticationSession) (htab : label.tab = some tab)
      (hfree : s.sessions tab = none) (hcode : session.activeCode = none)
      (hactions : session.requiredActions = []) (haction : session.action = some .authenticate)
      (hs' : s' = { s with
        timestamps := Function.update s.timestamps root s.now
        sessions := Function.update s.sessions tab (some session) }) :
      Handled factories s s' label none
  | removed (root : Nat) (hs' : s' = { s with
      sessions := fun tab => (s.sessions tab).filter (·.root ≠ root) }) :
      Handled factories s s' label none
  | environment (realm : Realm) (user : User δ) (now : Nat) (hnow : s.now ≤ now)
      (huser : Allowed label → Action.oauthGrant.name ∉ s.user.requiredActions →
        Action.oauthGrant.name ∉ user.requiredActions)
      (hs' : s' = { s with realm := realm, user := user, now := now }) :
      Handled factories s s' label none

theorem handle_cases {response : Option Response}
    (h : handle factories s label = .ok (response, s')) :
    Handled factories s s' label response := by
  cases label with
  | createAuthenticationSession tab root client scopeParam =>
      rw [handle] at h
      split at h
      · cases h
      · rename_i hfree
        cases h
        exact .created tab root _ rfl (Option.not_isSome_iff_eq_none.mp hfree) rfl rfl rfl rfl
  | authenticationForm tab execution =>
      obtain ⟨session, r, c', hsession, hprocess, rfl, rfl⟩ := request_eq_ok h
      have hprocessed : Processed factories (s.context session) c' r :=
        (authenticationForm_cases hprocess).1
      exact .request tab session r c' rfl hsession hprocessed.toRequested (fun _ => hprocessed) rfl
  | authenticationComplete tab posted ended requiredActions =>
      rw [handle] at h
      obtain ⟨session, r, c', hsession, hprocess, rfl, rfl⟩ := request_eq_ok h
      split at hprocess
      · rename_i hactive
        have hstart := endOfFlow_requested posted ended requiredActions (s.context session)
        have haction : (endOfFlow posted ended requiredActions
            (s.context session)).session.action = some .authenticate := hactive.1
        have hprocessed := (authenticationComplete_cases haction hprocess).1
        refine .request tab session r c' rfl hsession (hstart.trans hprocessed.toRequested)
          (fun hallowed => hprocessed.after hstart (fun _ hc => ⟨hc.user, fun hmem => ?_⟩) id) rfl
        exact (List.mem_append.mp hmem).elim hc.session hallowed
      · cases hprocess
  | requiredAction tab code action form =>
      obtain ⟨session, r, c', hsession, hprocess, rfl, rfl⟩ := request_eq_ok h
      have hprocessed := (processRequireAction_cases hprocess).1
      exact .request tab session r c' rfl hsession hprocessed.toRequested (fun _ => hprocessed) rfl
  | consent tab code cancel =>
      obtain ⟨session, r, c', hsession, hprocess, rfl, rfl⟩ := request_eq_ok h
      have hprocessed : Processed factories (s.context session) c' r :=
        (processConsent_cases hprocess).1
      exact .request tab session r c' rfl hsession hprocessed.toRequested (fun _ => hprocessed) rfl
  | restart tab flowPath =>
      rw [handle] at h
      obtain ⟨session, r, c', hsession, hprocess, rfl, rfl⟩ := request_eq_ok h
      cases hprocess
      have hchecking := resetFlow_checking (s.context session) flowPath
      exact .request tab session _ _ rfl hsession hchecking.toRequested
        (fun _ => hchecking.processed _) rfl
  | removeRootAuthenticationSession root =>
      cases h
      exact .removed root rfl
  | tick =>
      cases h
      exact .environment s.realm s.user (s.now + 1) (Nat.le_succ _) (fun _ => id) rfl
  | updateUser user =>
      cases h
      exact .environment s.realm user s.now le_rfl (fun hallowed _ => hallowed) rfl
  | updateRealm realm =>
      cases h
      exact .environment realm s.user s.now le_rfl (fun _ => id) rfl

theorem step_cases (h : step factories s label = some s') : s' = s ∨
    ∃ response, handle factories s label = .ok (response, s') ∧
      respond factories s label = response := by
  rw [step] at h
  split at h
  · rename_i response _ hhandle
    cases h
    refine .inr ⟨response, hhandle, ?_⟩
    rw [respond, hhandle]
  · cases h
    exact .inl rfl

end

end Keycloak.Authentication.RequiredActions
