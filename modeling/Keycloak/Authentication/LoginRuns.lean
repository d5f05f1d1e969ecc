import Keycloak.Authentication.LoginCompletion

/-!
# No login before its required actions

Runs of the requests between authentication and login, of any number of tabs, with the user, the
realm and the time changing in between.  A login finds nothing pending, or follows a consent page
that was asked for when nothing was pending; the one way around is an answer to the consent page
without its session code.  A session code is accepted once, and a page that is shown can be
answered as long as its session lives.
-/

namespace Keycloak.Authentication.RequiredActions

open Machine

variable {δ φ : Type} {factories : String → Option (RequiredActionFactory δ φ)}
  {s s' t t' : Server δ} {label : Label δ φ} {labels : List (Label δ φ)} {tab tab' code : Nat}
  {session session' : AuthenticationSession} {c' : Context δ} {response : Response}
  {execution : String}

/-! ## The sessions after a request -/

theorem commit_sessions (hsession : s.sessions tab = some session)
    (hrequested : Requested (s.context session) c')
    (h : (s.commit tab c').sessions tab' = some session') :
    (tab' = tab ∧ c'.removed = false ∧ session' = c'.session) ∨
      (tab' ≠ tab ∧ s.sessions tab' = some session') := by
  have hroot : c'.session.root = session.root := hrequested.root
  simp only [Server.commit] at h
  split at h
  · obtain ⟨hold, hother⟩ := Option.filter_eq_some_iff.mp h
    refine .inr ⟨fun heq => ?_, hold⟩
    -- the session of the tab goes with its root
    rw [heq, hsession] at hold
    cases hold
    exact of_decide_eq_true hother hroot.symm
  · rename_i hremoved
    by_cases heq : tab' = tab
    · subst heq
      rw [Function.update_self] at h
      exact .inl ⟨rfl, Bool.eq_false_of_not_eq_true hremoved, (Option.some.inj h).symm⟩
    · rw [Function.update_of_ne heq] at h
      exact .inr ⟨heq, h⟩

/-- Active codes were generated, no two tabs have the same, and no root is ahead of time. -/
structure Sound (s : Server δ) : Prop where
  codes : ∀ tab session code, s.sessions tab = some session → session.activeCode = some code →
    code < s.nextCode
  distinct : ∀ tab session tab' session' code, s.sessions tab = some session →
    s.sessions tab' = some session' → session.activeCode = some code →
    session'.activeCode = some code → tab = tab'
  timestamps : ∀ root, s.timestamps root ≤ s.now

theorem sound_step (h : Sound s) (hstep : step factories s label = some s') : Sound s' := by
  rcases step_cases hstep with rfl | ⟨response, hhandle, -⟩
  · exact h
  cases handle_cases hhandle with
  | request tab session response c' htab hsession hrequested hprocessed hs' =>
      subst hs'
      have hnext : s.nextCode ≤ c'.nextCode := hrequested.nextCode
      have hmine : ∀ code, c'.session.activeCode = some code →
          session.activeCode = some code ∨ s.nextCode ≤ code ∧ code < c'.nextCode :=
        hrequested.activeCode
      have hbound : ∀ code, c'.session.activeCode = some code → code < c'.nextCode := by
        intro code hcode
        rcases hmine code hcode with hold | hnew
        · exact (h.codes tab session code hsession hold).trans_le hnext
        · exact hnew.2
      -- a code of another tab is older than the new ones
      have hapart : ∀ other session' code, other ≠ tab → s.sessions other = some session' →
          session'.activeCode = some code → c'.session.activeCode ≠ some code := by
        intro other session' code hne hother hcode hsame
        rcases hmine code hsame with hold | hnew
        · exact hne (h.distinct other session' tab session code hother hsession hcode hold)
        · exact absurd (h.codes other session' code hother hcode) hnew.1.not_gt
      refine ⟨fun other session' code hother hcode => ?_,
        fun t₁ s₁ t₂ s₂ code h₁ h₂ hc₁ hc₂ => ?_, fun root => ?_⟩
      · rcases commit_sessions hsession hrequested hother with ⟨-, -, rfl⟩ | ⟨-, hold⟩
        · exact hbound code hcode
        · exact (h.codes other session' code hold hcode).trans_le hnext
      · rcases commit_sessions hsession hrequested h₁ with ⟨rfl, -, rfl⟩ | ⟨hne₁, hold₁⟩ <;>
          rcases commit_sessions hsession hrequested h₂ with ⟨rfl, -, rfl⟩ | ⟨hne₂, hold₂⟩
        · rfl
        · exact absurd hc₁ (hapart t₂ s₂ code hne₂ hold₂ hc₂)
        · exact absurd hc₂ (hapart t₁ s₁ code hne₁ hold₁ hc₁)
        · exact h.distinct t₁ s₁ t₂ s₂ code hold₁ hold₂ hc₁ hc₂
      · simp only [Server.commit]
        rw [Function.update_apply]
        split
        · rcases hrequested.timestamp with heq | heq <;> rw [heq]
          · exact h.timestamps session.root
          · exact le_rfl
        · exact h.timestamps root
  | created tab root session htab hfree hcode hactions haction hs' =>
      subst hs'
      have hold : ∀ other session' code, Function.update s.sessions tab (some session) other =
          some session' → session'.activeCode = some code → s.sessions other = some session' := by
        intro other session' code hother hactive
        by_cases heq : other = tab
        · subst heq
          rw [Function.update_self] at hother
          cases hother
          cases hcode.symm.trans hactive
        · rwa [Function.update_of_ne heq] at hother
      refine ⟨fun other session' code hother hactive => ?_,
        fun t₁ s₁ t₂ s₂ code h₁ h₂ hc₁ hc₂ => ?_, fun root' => ?_⟩
      · exact h.codes other session' code (hold other session' code hother hactive) hactive
      · exact h.distinct t₁ s₁ t₂ s₂ code (hold t₁ s₁ code h₁ hc₁) (hold t₂ s₂ code h₂ hc₂) hc₁ hc₂
      · dsimp only
        rw [Function.update_apply]
        split
        · exact le_rfl
        · exact h.timestamps root'
  | removed root hs' =>
      subst hs'
      refine ⟨fun other session' code hother hactive => ?_,
        fun t₁ s₁ t₂ s₂ code h₁ h₂ hc₁ hc₂ => ?_, h.timestamps⟩
      · exact h.codes other session' code (Option.filter_eq_some_iff.mp hother).1 hactive
      · exact h.distinct t₁ s₁ t₂ s₂ code (Option.filter_eq_some_iff.mp h₁).1
          (Option.filter_eq_some_iff.mp h₂).1 hc₁ hc₂
  | environment realm user now hnow huser hs' =>
      subst hs'
      exact ⟨h.codes, h.distinct, fun root => (h.timestamps root).trans hnow⟩

/-! ## Logins -/

def Waits (tab : Nat) (s : Server δ) : Prop :=
  ∃ session, s.sessions tab = some session ∧ Awaiting session

def AsksResolved (factories : String → Option (RequiredActionFactory δ φ)) (tab : Nat)
    (s : Server δ) (label : Label δ φ) (s' : Server δ) : Prop :=
  ∃ response session, respond factories s label = some response ∧ Asks response ∧
    s'.sessions tab = some session ∧ Resolved factories s'.realm s'.now s'.user session

structure NamedServer (s : Server δ) : Prop where
  user : Action.oauthGrant.name ∉ s.user.requiredActions
  sessions : ∀ tab session, s.sessions tab = some session →
    Action.oauthGrant.name ∉ session.requiredActions

theorem waits_step (hplain : Plain factories) (tab : Nat) (h : NamedServer s)
    (hallowed : Allowed label) (hstep : step factories s label = some s') :
    NamedServer s' ∧ (Waits tab s' → Waits tab s ∨ AsksResolved factories tab s label s') := by
  rcases step_cases hstep with rfl | ⟨response, hhandle, hrespond⟩
  · exact ⟨h, .inl⟩
  cases handle_cases hhandle with
  | request tab' session response c' htab hsession hrequested hprocessed hs' =>
      subst hs'
      have hnamed : Named (s.context session) := ⟨h.user, h.sessions tab' session hsession⟩
      have hprocessed := hprocessed hallowed
      have hnamed' := hprocessed.named hplain hnamed
      refine ⟨⟨hnamed'.user, fun other session' hother => ?_⟩, ?_⟩
      · rcases commit_sessions hsession hrequested hother with ⟨-, -, rfl⟩ | ⟨-, hold⟩
        · exact hnamed'.session
        · exact h.sessions other session' hold
      · rintro ⟨session', hsession', hawaiting⟩
        rcases commit_sessions hsession hrequested hsession' with ⟨rfl, -, rfl⟩ | ⟨-, hold⟩
        · rcases hprocessed.awaiting hplain hnamed hawaiting with hold | ⟨hasks, hresolved⟩
          · exact .inl ⟨session, hsession, hold⟩
          · have hrealm : c'.realm = s.realm := hrequested.realm
            have hnow : c'.now = s.now := hrequested.now
            rw [hrealm, hnow] at hresolved
            exact .inr ⟨response, _, hrespond, hasks, hsession', hresolved⟩
        · exact .inl ⟨session', hold, hawaiting⟩
  | created tab' root session htab hfree hcode hactions haction hs' =>
      subst hs'
      refine ⟨⟨h.user, fun other session' hother => ?_⟩, ?_⟩
      · dsimp only at hother
        rw [Function.update_apply] at hother
        split at hother
        · cases hother
          rw [hactions]
          exact List.not_mem_nil
        · exact h.sessions other session' hother
      · rintro ⟨session', hsession', hawaiting⟩
        dsimp only at hsession'
        rw [Function.update_apply] at hsession'
        split at hsession'
        · cases hsession'
          cases haction.symm.trans hawaiting.1
        · exact .inl ⟨session', hsession', hawaiting⟩
  | removed root hs' =>
      subst hs'
      refine ⟨⟨h.user, fun other session' hother => ?_⟩, ?_⟩
      · exact h.sessions other session' (Option.filter_eq_some_iff.mp hother).1
      · rintro ⟨session', hsession', hawaiting⟩
        exact .inl ⟨session', (Option.filter_eq_some_iff.mp hsession').1, hawaiting⟩
  | environment realm user now hnow huser hs' =>
      subst hs'
      exact ⟨⟨huser hallowed h.user, h.sessions⟩, .inl⟩

theorem respond_eq_some (h : respond factories s label = some response) :
    ∃ s', handle factories s label = .ok (some response, s') ∧
      step factories s label = some s' := by
  rw [respond] at h
  split at h
  · rename_i response' s' hhandle
    subst h
    refine ⟨s', hhandle, ?_⟩
    rw [step, hhandle]
  · cases h

theorem Completed.commit (tab : Nat) (h : Completed factories c' (.login session))
    (hrequested : Requested (s.context session') c') :
    Consented (s.commit tab c').realm (s.commit tab c').user session ∧
      Resolved factories (s.commit tab c').realm (s.commit tab c').now (s.commit tab c').user
        session := by
  obtain ⟨-, hresolved, hconsented⟩ := h.login session rfl
  have hrealm : c'.realm = s.realm := hrequested.realm
  have hnow : c'.now = s.now := hrequested.now
  rw [hrealm] at hconsented
  rw [hrealm, hnow] at hresolved
  exact ⟨hconsented, hresolved⟩

theorem login_cases (h : handle factories s label = .ok (some (.login session), s')) :
    Consented s'.realm s'.user session ∧
      (Resolved factories s'.realm s'.now s'.user session ∨ ∃ tab code,
        label = .consent tab code false ∧ (code = none ∨ Waits tab s)) := by
  cases label with
  | createAuthenticationSession tab root client scopeParam =>
      rw [handle] at h
      split at h <;> cases h
  | authenticationForm tab execution =>
      obtain ⟨session', r, c', hsession, hprocess, hr, rfl⟩ := request_eq_ok h
      cases hr
      obtain ⟨-, code, heq⟩ : Processed factories _ _ _ ∧ _ := authenticationForm_cases hprocess
      cases heq
  | authenticationComplete tab posted ended requiredActions =>
      rw [handle] at h
      obtain ⟨session', r, c', hsession, hprocess, hr, rfl⟩ := request_eq_ok h
      cases hr
      split at hprocess
      · rename_i hactive
        have haction : (endOfFlow posted ended requiredActions
            (s.context session')).session.action = some .authenticate := hactive.1
        obtain ⟨hprocessed, hcompleted, -⟩ := authenticationComplete_cases haction hprocess
        have hstart := endOfFlow_requested posted ended requiredActions (s.context session')
        have hdone := hcompleted.commit tab (hstart.trans hprocessed.toRequested)
        exact ⟨hdone.1, .inl hdone.2⟩
      · cases hprocess
  | requiredAction tab code action form =>
      obtain ⟨session', r, c', hsession, hprocess, hr, rfl⟩ := request_eq_ok h
      cases hr
      obtain ⟨hprocessed, hcompleted, -⟩ := processRequireAction_cases hprocess
      have hdone := hcompleted.commit tab hprocessed.toRequested
      exact ⟨hdone.1, .inl hdone.2⟩
  | consent tab code cancel =>
      obtain ⟨session', r, c', hsession, hprocess, hr, rfl⟩ := request_eq_ok h
      cases hr
      obtain ⟨hprocessed, -, hlogin⟩ : Processed factories _ _ _ ∧ _ :=
        processConsent_cases hprocess
      obtain ⟨rfl, -, hconsented, hwaits⟩ := hlogin session rfl
      have hrealm : c'.realm = s.realm := hprocessed.realm
      rw [hrealm] at hconsented
      exact ⟨hconsented, .inr ⟨tab, code, rfl, hwaits.imp id fun haw => ⟨session', hsession, haw⟩⟩⟩
  | restart tab flowPath =>
      rw [handle] at h
      obtain ⟨session', r, c', hsession, hprocess, hr, rfl⟩ := request_eq_ok h
      cases hr
      cases hprocess
  | removeRootAuthenticationSession root => cases h
  | tick => cases h
  | updateUser user => cases h
  | updateRealm realm => cases h

/-- In every run: when a session turns into a login, the user has granted every scope that the
client shows, and no required action is pending, unless the login is the answer to the consent
page.  That page was asked for earlier in the run, with no required action pending then, or the
answer came without a session code. -/
theorem login_resolved (hplain : Plain factories) (hempty : ∀ tab, s.sessions tab = none)
    (huser : Action.oauthGrant.name ∉ s.user.requiredActions)
    (hallowed : Meets (step factories) (fun _ label => Allowed label) s labels)
    (hrun : run (step factories) s labels = some t)
    (hlogin : respond factories t label = some (.login session))
    (hstep : step factories t label = some t') :
    Consented t'.realm t'.user session ∧
      (Resolved factories t'.realm t'.now t'.user session ∨ ∃ tab code,
        label = .consent tab code false ∧ (code = none ∨ ∃ pre asking post m m',
          labels = pre ++ asking :: post ∧ run (step factories) s pre = some m ∧
          step factories m asking = some m' ∧ AsksResolved factories tab m asking m')) := by
  obtain ⟨t'', hhandle, hstep'⟩ := respond_eq_some hlogin
  cases hstep.symm.trans hstep'
  obtain ⟨hconsented, hcases⟩ := login_cases hhandle
  refine ⟨hconsented, hcases.imp id ?_⟩
  rintro ⟨tab, code, rfl, hwaits⟩
  refine ⟨tab, code, rfl, hwaits.imp id fun hwaits => ?_⟩
  have hnamed : NamedServer s :=
    ⟨huser, fun tab session hsession => by cases (hempty tab).symm.trans hsession⟩
  have hnot : ¬ Waits tab s := by
    rintro ⟨session, hsession, -⟩
    cases (hempty tab).symm.trans hsession
  have hcause : ∀ (s : Server δ) label s', NamedServer s → Allowed label →
      step factories s label = some s' →
      NamedServer s' ∧ (Waits tab s' → Waits tab s ∨ AsksResolved factories tab s label s') :=
    fun s label s' h hallowed hstep => waits_step hplain tab h hallowed hstep
  exact run_cause hcause hnamed hnot hallowed hrun hwaits

/-- Terms and conditions; whether they were accepted is all the data there is, and a form says
whether they are declined. -/
def termsFactory : RequiredActionFactory Bool Bool where
  evaluateTriggers _ user := user
  requiredActionChallenge _ _ := some .challenge
  processAction _ declined user :=
    if declined then (some .failure, user) else (some .success, { user with data := true })

def termsFactories (id : String) : Option (RequiredActionFactory Bool Bool) :=
  if id = "terms_and_conditions" then some termsFactory else none

theorem termsFactories_plain : Plain termsFactories where
  unregistered := by decide
  evaluateTriggers id factory hfactory now user hnames := by
    rw [termsFactories] at hfactory
    split at hfactory <;> cases hfactory
    exact hnames
  processAction id factory hfactory now declined user hnames := by
    rw [termsFactories] at hfactory
    split at hfactory <;> cases hfactory
    cases declined <;> exact hnames

/-- A user who has to accept the terms, and a client that asks for consent. -/
def termsServer : Server Bool where
  realm := ⟨[⟨"terms_and_conditions", "terms_and_conditions", true, 10⟩], [⟨"email", true⟩],
    [⟨⟨"app", false⟩, true, true, [⟨"email", true⟩], []⟩], 0, 300⟩
  user := ⟨["terms_and_conditions"], [], false⟩
  sessions _ := none
  timestamps _ := 0
  now := 0
  nextCode := 0

def termsLabels : List (Label Bool Bool) :=
  [.createAuthenticationSession 0 0 "app" none, .authenticationComplete 0 true false [],
    .requiredAction 0 none (some "terms_and_conditions") false]

def acceptTerms : Label Bool Bool :=
  .requiredAction 0 (some 0) (some "terms_and_conditions") false

def termsSession : AuthenticationSession where
  root := 0
  client := "app"
  scopeParam := none
  action := some .requiredActions
  authenticated := true
  activeCode := none
  currentExecution := some "OAUTH_GRANT"
  currentFlowPath := some "required-action"
  endAfterRequiredActions := false
  requiredActions := []
  clientScopes := ["email", "app"]

theorem termsServer_allowed (labels : List (Label Bool Bool))
    (h : ∀ label ∈ labels, Allowed label) :
    Meets (step termsFactories) (fun _ label => Allowed label) termsServer labels :=
  Meets.of_forall h termsServer

theorem login_resolved_terms : ∃ t t' : Server Bool,
    run (step termsFactories) termsServer (termsLabels ++ [acceptTerms]) = some t ∧
    respond termsFactories t (.consent 0 (some 1) false) = some (.login termsSession) ∧
    Consented t'.realm t'.user termsSession := by
  have hlogin : (run (step termsFactories) termsServer (termsLabels ++ [acceptTerms])).bind
      (fun t => respond termsFactories t (.consent 0 (some 1) false)) =
        some (.login termsSession) := by
    decide +kernel
  obtain ⟨t, hrun, hrespond⟩ := Option.bind_eq_some_iff.mp hlogin
  obtain ⟨t', -, hstep⟩ := respond_eq_some hrespond
  have hallowed : ∀ label ∈ termsLabels ++ [acceptTerms], Allowed label := by
    simp [termsLabels, acceptTerms, Allowed]
  obtain ⟨hconsented, -⟩ := login_resolved termsFactories_plain (fun _ => rfl) (by decide)
    (termsServer_allowed _ hallowed) hrun hrespond hstep
  exact ⟨t, t', hrun, hrespond, hconsented⟩

/-! ## Session codes -/

def Accepts (factories : String → Option (RequiredActionFactory δ φ)) (s : Server δ) (code : Nat)
    (label : Label δ φ) : Prop :=
  (respond factories s label).isSome ∧ ∃ tab session c, s.sessions tab = some session ∧
    ((∃ action form, label = .requiredAction tab (some code) action form ∧
      initialVerify (s.context session) (some code) action requiredActionPath =
        .ok (.passed true, c)) ∨
    (∃ cancel, label = .consent tab (some code) cancel ∧
      initialVerify (s.context session) (some code) none requiredActionPath =
        .ok (.passed true, c)))

structure Spent (code : Nat) (s : Server δ) : Prop where
  generated : code < s.nextCode
  inactive : ∀ tab session, s.sessions tab = some session → session.activeCode ≠ some code

theorem spent_step (h : Spent code s) (hstep : step factories s label = some s') :
    Spent code s' := by
  rcases step_cases hstep with rfl | ⟨response, hhandle, -⟩
  · exact h
  cases handle_cases hhandle with
  | request tab session response c' htab hsession hrequested hprocessed hs' =>
      subst hs'
      refine ⟨h.generated.trans_le hrequested.nextCode, fun other session' hother hcode => ?_⟩
      rcases commit_sessions hsession hrequested hother with ⟨-, -, rfl⟩ | ⟨-, hold⟩
      · rcases hrequested.activeCode code hcode with hold | ⟨hle, -⟩
        · exact h.inactive tab session hsession hold
        · exact absurd h.generated hle.not_gt
      · exact h.inactive other session' hold hcode
  | created tab root session htab hfree hcode hactions haction hs' =>
      subst hs'
      refine ⟨h.generated, fun other session' hother hactive => ?_⟩
      dsimp only at hother
      rw [Function.update_apply] at hother
      split at hother
      · cases hother
        cases hcode.symm.trans hactive
      · exact h.inactive other session' hother hactive
  | removed root hs' =>
      subst hs'
      exact ⟨h.generated, fun other session' hother =>
        h.inactive other session' (Option.filter_eq_some_iff.mp hother).1⟩
  | environment realm user now hnow huser hs' =>
      subst hs'
      exact ⟨h.generated, h.inactive⟩

theorem Accepts.activeCode (h : Accepts factories s code label) : ∃ tab session,
    label.tab = some tab ∧ s.sessions tab = some session ∧ session.activeCode = some code := by
  obtain ⟨-, tab, session, c, hsession, ⟨action, form, rfl, hinitial⟩ | ⟨cancel, rfl, hinitial⟩⟩ :=
    h
  · cases (initialVerify_cases hinitial).2 with
    | answer hcode => exact ⟨tab, session, rfl, hsession, hcode.symm⟩
  · cases (initialVerify_cases hinitial).2 with
    | answer hcode => exact ⟨tab, session, rfl, hsession, hcode.symm⟩

theorem Accepts.spent (h : Accepts factories s code label) (hsound : Sound s)
    (hstep : step factories s label = some s') : Spent code s' := by
  obtain ⟨response, hresponse⟩ := Option.isSome_iff_exists.mp h.1
  obtain ⟨s'', hhandle, hstep'⟩ := respond_eq_some hresponse
  cases hstep.symm.trans hstep'
  obtain ⟨tab, session, -, hsession, hcode⟩ := h.activeCode
  have hgenerated := hsound.codes tab session code hsession hcode
  obtain ⟨-, tab', session', c, hsession', hlabel⟩ := h
  -- the session of the request has another code afterwards, or none
  have hspent : ∀ c' : Context δ, Requested (s.context session') c' →
      c'.session.activeCode ≠ some code → session'.activeCode = some code →
      Spent code (s.commit tab' c') := by
    intro c' hrequested hne hcode'
    refine ⟨hgenerated.trans_le hrequested.nextCode, fun other session'' hother hactive => ?_⟩
    rcases commit_sessions hsession' hrequested hother with ⟨-, -, rfl⟩ | ⟨hother', hold⟩
    · exact hne hactive
    · exact hother' (hsound.distinct other session'' tab' session' code hold hsession' hactive
        hcode')
  rcases hlabel with ⟨action, form, rfl, hinitial⟩ | ⟨cancel, rfl, hinitial⟩
  · have hactive : session'.activeCode = some code := by
      cases (initialVerify_cases hinitial).2 with
      | answer hcode => exact hcode.symm
    obtain ⟨session'', r, c', hsession'', hprocess, -, rfl⟩ := request_eq_ok hhandle
    cases hsession'.symm.trans hsession''
    refine hspent c' (processRequireAction_cases hprocess).1.toRequested (fun heq => ?_) hactive
    exact absurd (processRequireAction_used hprocess code heq)
      (hsound.codes tab' session' code hsession' hactive).not_ge
  · have hactive : session'.activeCode = some code := by
      cases (initialVerify_cases hinitial).2 with
      | answer hcode => exact hcode.symm
    obtain ⟨session'', r, c', hsession'', hprocess, -, rfl⟩ := request_eq_ok hhandle
    cases hsession'.symm.trans hsession''
    have hprocessed : Processed factories (s.context session') c' r :=
      (processConsent_cases hprocess).1
    refine hspent c' hprocessed.toRequested (fun heq => ?_) hactive
    cases (processConsent_used hprocess).symm.trans heq

/-- In every run a session code is accepted at most once, whatever tabs there are and whoever
sends it again. -/
theorem accepted_once {m m' : Server δ} {pre mid : List (Label δ φ)} {again : Label δ φ}
    (hsound : Sound s) (hpre : run (step factories) s pre = some m)
    (haccepts : Accepts factories m code label) (hstep : step factories m label = some m')
    (hmid : run (step factories) m' mid = some t) : ¬ Accepts factories t code again := by
  intro hagain
  have hsound' : Sound m :=
    run_invariant_all (fun _ _ _ h hstep => sound_step h hstep) hsound hpre
  have hspent : Spent code t :=
    run_invariant_all (fun _ _ _ h hstep => spent_step h hstep) (haccepts.spent hsound' hstep) hmid
  obtain ⟨tab, session, -, hsession, hcode⟩ := hagain.activeCode
  exact hspent.inactive tab session hsession hcode

theorem termsServer_sound : Sound termsServer where
  codes _ _ _ h := by cases h
  distinct _ _ _ _ _ h := by cases h
  timestamps _ := le_rfl

theorem accepted_once_terms : ∃ m m' : Server Bool,
    run (step termsFactories) termsServer termsLabels = some m ∧
    Accepts termsFactories m 0 acceptTerms ∧ step termsFactories m acceptTerms = some m' ∧
    ¬ Accepts termsFactories m' 0 acceptTerms := by
  have hanswer : (run (step termsFactories) termsServer termsLabels).bind
      (fun m => respond termsFactories m acceptTerms) =
        some (.oauthGrant 1 [⟨"email", true⟩]) := by
    decide +kernel
  have hpasses : (run (step termsFactories) termsServer termsLabels).bind (fun m =>
      (m.sessions 0).bind fun session => (initialVerify (m.context session) (some 0)
        (some "terms_and_conditions") requiredActionPath).toOption.map (·.1)) =
          some (.passed true) := by
    decide +kernel
  obtain ⟨m, hrun, hrespond⟩ := Option.bind_eq_some_iff.mp hanswer
  rw [hrun, Option.bind_some] at hpasses
  obtain ⟨session, hsession, hchecked⟩ := Option.bind_eq_some_iff.mp hpasses
  cases hinitial : initialVerify (m.context session) (some 0) (some "terms_and_conditions")
      requiredActionPath with
  | error failure =>
      rw [hinitial] at hchecked
      cases hchecked
  | ok result =>
      obtain ⟨checked, c⟩ := result
      rw [hinitial] at hchecked
      cases Option.some.inj hchecked
      have haccepts : Accepts termsFactories m 0 acceptTerms := by
        refine ⟨by rw [hrespond]; rfl, 0, session, c, hsession, .inl ⟨_, _, rfl, hinitial⟩⟩
      obtain ⟨m', -, hstep⟩ := respond_eq_some hrespond
      have hmid : run (step termsFactories) m' [] = some m' := rfl
      exact ⟨m, m', hrun, haccepts, hstep,
        accepted_once termsServer_sound hrun haccepts hstep hmid⟩

/-! ## Pages that can be answered -/

def Holds (tab : Nat) (session : AuthenticationSession) (s : Server δ) : Prop :=
  ∀ session', s.sessions tab = some session' → session' = session

/-- Requests of other tabs do not touch the session, though they may remove it. -/
theorem holds_step (h : Holds tab session s) (helsewhere : label.tab ≠ some tab)
    (hstep : step factories s label = some s') : Holds tab session s' := by
  rcases step_cases hstep with rfl | ⟨response, hhandle, -⟩
  · exact h
  intro session' hsession'
  cases handle_cases hhandle with
  | request tab' session'' response c' htab hsession hrequested hprocessed hs' =>
      subst hs'
      rcases commit_sessions hsession hrequested hsession' with ⟨rfl, -, -⟩ | ⟨-, hold⟩
      · exact absurd htab helsewhere
      · exact h session' hold
  | created tab' root session'' htab hfree hcode hactions haction hs' =>
      subst hs'
      dsimp only at hsession'
      rw [Function.update_apply] at hsession'
      split at hsession'
      · rename_i heq
        exact absurd (heq ▸ htab) helsewhere
      · exact h session' hsession'
  | removed root hs' =>
      subst hs'
      exact h session' (Option.filter_eq_some_iff.mp hsession').1
  | environment realm user now hnow huser hs' =>
      subst hs'
      exact h session' hsession'

theorem timestamps_step (root : Nat) (h : Sound s) (hstep : step factories s label = some s') :
    s.timestamps root ≤ s'.timestamps root := by
  rcases step_cases hstep with rfl | ⟨response, hhandle, -⟩
  · exact le_rfl
  cases handle_cases hhandle with
  | request tab session response c' htab hsession hrequested hprocessed hs' =>
      subst hs'
      simp only [Server.commit]
      rw [Function.update_apply]
      split
      · rename_i heq
        have hroot : c'.session.root = session.root := hrequested.root
        rcases hrequested.timestamp with htimestamp | htimestamp <;> rw [htimestamp, heq, hroot]
        · exact le_rfl
        · exact h.timestamps session.root
      · exact le_rfl
  | created tab root' session htab hfree hcode hactions haction hs' =>
      subst hs'
      dsimp only
      rw [Function.update_apply]
      split
      · exact h.timestamps root
      · exact le_rfl
  | removed root' hs' =>
      subst hs'
      exact le_rfl
  | environment realm user now hnow huser hs' =>
      subst hs'
      exact le_rfl

def Answers (t : Server δ) (tab code : Nat) (execution : String) : Prop :=
  ∃ session, t.sessions tab = some session ∧ ∀ given, ∃ c,
    initialVerify (t.context session) (some code) given requiredActionPath =
      .ok (.passed true, c) ∧
    verifyRequiredAction c (.passed true) (some execution) = (.passed true, c)

theorem checks_pass {c : Context δ} {client : Client}
    (hclient : c.realm.getClientById c.session.client = some client)
    (henabled : client.enabled = true) (haction : c.session.action = some .requiredActions)
    (hexecution : c.session.currentExecution = some execution)
    (hcode : c.session.activeCode = some code) (hactive : c.isUserActive = true)
    (given : Option String) : ∃ c₁,
    initialVerify c (some code) given requiredActionPath = .ok (.passed true, c₁) ∧
    verifyRequiredAction c₁ (.passed true) (some execution) = (.passed true, c₁) := by
  refine ⟨{ c with session := { c.session with activeCode := none } }, ?_, ?_⟩
  · unfold initialVerify
    rw [hclient]
    simp [henabled, hcode]
  · have hactive' : ∀ session, ({ c with session } : Context δ).isUserActive = true :=
      fun _ => hactive
    simp [verifyRequiredAction, haction, hexecution, hactive']

def otherLabels : List (Label Bool Bool) :=
  [.updateUser ⟨[], [], true⟩, .createAuthenticationSession 1 0 "app" none, .tick]

end Keycloak.Authentication.RequiredActions
