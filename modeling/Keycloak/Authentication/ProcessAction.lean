import Keycloak.Authentication.ProcessFlow

/-!
# What `processAction` does to the session

`processAction` goes past authenticators without looking at their status. What makes this sound
is the note: it names an execution that the walk of `processFlow` has stood at, so everything
before that execution has been passed (`ActionReady`). A subflow that is not processed is never
gone past.
-/

namespace Keycloak.Authentication

variable (b : Behaviour) {restart : Processor → Outcome × Processor} {e : String}

/-! ## Actions for an execution that is not there -/

mutual

theorem processAction_absent : ∀ (xs : List Execution) (f : FlowState) (s : Processor),
    e ∉ idsOf xs →
    processAction b restart e xs f s = (.raised (.flowException .internalError), s)
  | [], _, _, _ => by rw [processAction]
  | x :: rest, f, s, h => by
      have hrest := processAction_absent rest
      have hx := processActionOn_absent x f s
      rw [idsOf, List.mem_append, not_or] at h
      rw [processAction]
      split
      · exact hrest (f.pass s x) s h.2
      · rcases hx h.1 with ⟨hnone, _⟩ | hraised
        · rw [hnone]
          exact hrest f s h.2
        · rw [hraised]

theorem processActionOn_absent : ∀ (x : Execution) (f : FlowState) (s : Processor),
    e ∉ x.ids →
    (processActionOn b restart e x f s = none ∧ x.isAuthenticatorFlow = false) ∨
      processActionOn b restart e x f s =
        some (.raised (.flowException .internalError), f, s)
  | .authenticator id requirement factory, f, s, h => by
      left
      rw [ids_authenticator, List.mem_singleton] at h
      rw [processActionOn, if_neg (Ne.symm h)]
      exact ⟨rfl, rfl⟩
  | .flow id requirement inner, f, s, h => by
      right
      have hinner := processAction_absent inner .new s
      rw [ids_flow, List.mem_cons, not_or] at h
      rw [processActionOn, hinner h.2]

end

/-! ## The action of the authenticator -/

variable {top L before : List Execution} {f : FlowState} {s : Processor} {id : String}
  {requirement : Requirement} {factory : AuthenticatorFactory}

theorem performAction_spec (hrestart : RestartSpec top restart)
    (h : Position top L before (.authenticator id requirement factory)) (hsound : Sound top s)
    (hcontext : s.trace.caughtRestart = false → Context L before f s)
    (hprocessed : ¬ isProcessed s (.authenticator id requirement factory) = true) :
    StepSpec top L before (.authenticator id requirement factory) s
      (performAction b restart id requirement factory f s) := by
  obtain ⟨hdisabled, hfresh⟩ := not_isProcessed hprocessed
  unfold performAction
  split
  · exact StepSpec.raise (Grows.refl s) hsound (fun _ => .inl (Evolves.refl L s))
  rename_i hregistered
  have hcreated := createAuthenticator_quiet factory s
  split
  · rename_i t hcreate
    rw [hcreate] at hcreated
    exact StepSpec.raise hcreated.grows (hcreated.sound hsound)
      (fun _ => .inl (hcreated.evolves L))
  rename_i t hcreate
  rw [hcreate] at hcreated
  obtain ⟨hcalled, hdisplay⟩ := callAuthenticator_quiet b (t.recordAction id)
  split
  · rename_i e u hcall
    rw [hcall] at hcalled
    have hquiet := (hcreated.trans (Quiet.recordAction t id)).trans hcalled
    exact StepSpec.raise hquiet.grows (hquiet.sound hsound) (fun _ => .inl (hquiet.evolves L))
  rename_i u hcall
  rw [hcall] at hcalled hdisplay
  have hquiet := (hcreated.trans (Quiet.recordAction t id)).trans hcalled
  have hresult : StepSpec top L before (.authenticator id requirement factory) u
      (processResult b restart id requirement (b.report t.clock) f u) := by
    refine processResult_spec b hrestart h (hquiet.sound hsound) ?_
      (of_decide_eq_false hdisabled) ?_ (by simpa using hregistered) ?_ _
    · exact fun hcaught => hquiet.context (hcontext (hquiet.caughtRestart ▸ hcaught))
    · rw [hquiet.status_eq]
      exact hfresh
    · have hconsole := createAuthenticator_display hcreate
      rw [hdisplay]
      exact hconsole
  refine StepSpec.of_quiet hquiet ?_
  split
  · rename_i f' v hnull
    rw [hnull] at hresult
    obtain ⟨hgrows, hsound', hspec⟩ := hresult
    refine ⟨hgrows.trans (Grows.setCurrent v none), hsound'.setCurrent none, fun hcaught => ?_⟩
    obtain ⟨hevolves, hcontext'⟩ := hspec hcaught
    refine ⟨?_, hcontext'.passed, hcontext'.successful, hcontext'.kept⟩
    exact ⟨hevolves.resets, hevolves.outside, hevolves.processed, hevolves.setAside,
      by simp [Processor.setCurrent]⟩
  · exact hresult

/-! ## The walk to the execution of the action -/

section Walk

variable (setting : Setting top restart)

include setting

mutual

theorem processAction_spec : ∀ (xs L before : List Execution) (f : FlowState) (s : Processor),
    Level top L → L = before ++ xs → Sound top s →
    (s.trace.caughtRestart = false → Context L before f s) →
    (s.trace.caughtRestart = false → ActionReady s e xs) →
    FlowSpec top L s (processAction b restart e xs f s)
  | [], L, before, f, s, _, _, hsound, _, _ => by
      rw [processAction]
      exact ⟨Grows.refl s, hsound, fun _ => .inl (Evolves.refl L s)⟩
  | x :: rest, L, before, f, s, hlevel, hsplit, hsound, hcontext, hready => by
      have hposition : Position top L before x := ⟨setting.nodup, hlevel, rest, hsplit⟩
      have hrest := processAction_spec rest L (before ++ [x])
      have hat := processActionOn_spec x L before f s hposition hsound hcontext
      have hsplit' : L = before ++ [x] ++ rest := by rw [hsplit]; simp
      have hraised : FlowSpec top L s (.raised (.flowException .internalError), s) :=
        ⟨Grows.refl s, hsound, fun _ => .inl (Evolves.refl L s)⟩
      by_cases hmem : e ∈ idsOf rest
      · -- The execution comes later, so this one has been passed or the walk goes down in vain.
        have hx : e ∉ x.ids := by
          have hnodup := hlevel.nodup setting.nodup
          rw [hsplit, idsOf_append, idsOf] at hnodup
          exact fun hx => List.disjoint_of_nodup_append hnodup.of_append_right hx hmem
        have hready' : s.trace.caughtRestart = false →
            (x.isAuthenticatorFlow = false → Passed s x) ∧ ActionReady s e rest := by
          intro hcaught
          rcases hready hcaught with ⟨hin, _⟩ | ⟨_, hpassed, hrest⟩
          · exact absurd hin hx
          · exact ⟨hpassed, hrest⟩
        rw [processAction]
        split
        · rename_i hprocessed
          exact hrest (f.pass s x) s hlevel hsplit' hsound
            (fun hc => (hcontext hc).skip hposition.mem hprocessed) (fun hc => (hready' hc).2)
        · rcases processActionOn_absent b x f s hx with ⟨hnone, hleaf⟩ | hraise
          · rw [hnone]
            refine hrest f s hlevel hsplit' hsound (fun hc => ?_) (fun hc => (hready' hc).2)
            exact (hcontext hc).extend ((hready' hc).1 hleaf)
          · rw [hraise]
            exact hraised
      · rw [processAction]
        split
        · rw [processAction_absent b rest _ s hmem]
          exact hraised
        rename_i hprocessed
        by_cases hx : e ∈ x.ids
        · have hat := hat hprocessed hx fun hc => by
            rcases hready hc with ⟨_, hat⟩ | ⟨hnot, _⟩
            · exact hat
            · exact absurd hx hnot
          obtain ⟨outcome, f', t, hresult, hstep⟩ := hat
          rw [hresult]
          cases outcome with
          | null =>
              refine FlowSpec.of_step hstep ?_
              exact processFlow_spec b setting rest L (before ++ [x]) f' t hlevel hsplit'
                hstep.2.1 fun hc => (hstep.2.2 hc).2
          | response r => exact hstep.ended (by simp)
          | raised e' => exact hstep.ended (by simp)
        · rcases processActionOn_absent b x f s hx with ⟨hnone, _⟩ | hraise
          · rw [hnone]
            simp only
            rw [processAction_absent b rest f s hmem]
            exact hraised
          · rw [hraise]
            exact hraised

theorem processActionOn_spec : ∀ (x : Execution) (L before : List Execution) (f : FlowState)
    (s : Processor), Position top L before x → Sound top s →
    (s.trace.caughtRestart = false → Context L before f s) → ¬ isProcessed s x = true →
    e ∈ x.ids → (s.trace.caughtRestart = false → ActionReadyAt s e x) →
    ∃ outcome f' t, processActionOn b restart e x f s = some (outcome, f', t) ∧
      StepSpec top L before x s (outcome, f', t)
  | .authenticator id requirement factory, L, before, f, s, h, hsound, hcontext, hprocessed,
      hmem, _ => by
      rw [ids_authenticator, List.mem_singleton] at hmem
      rw [processActionOn, if_pos hmem.symm]
      exact ⟨_, _, _, rfl, performAction_spec b setting.restart h hsound hcontext hprocessed⟩
  | .flow id requirement inner, L, before, f, s, h, hsound, hcontext, hprocessed, hmem,
      hready => by
      have hinner := processAction_spec inner inner [] .new s (h.level.subflow h.mem) rfl hsound
        (fun _ => Context.start inner s) hready
      rw [processActionOn]
      obtain ⟨hdisabled, hfresh⟩ := not_isProcessed hprocessed
      cases hresult : processAction b restart e inner .new s with
      | mk outcome t =>
          rw [hresult] at hinner
          cases outcome with
          | null => exact ⟨_, _, _, rfl, StepSpec.finishSubflow h hcontext hfresh hinner⟩
          | response r =>
              exact ⟨_, _, _, rfl, StepSpec.returnSubflow h hcontext
                (Bool.not_eq_true _ ▸ hprocessed) hinner⟩
          | raised e' => exact ⟨_, _, _, rfl, StepSpec.raiseSubflow h hcontext hinner⟩

end

end Walk

/-! ## Answers to a challenge -/

theorem createAuthenticator_none (hdisplay : s.session.display = some .console →
    factory.supportsConsole = true) : createAuthenticator factory s = (none, s) := by
  unfold createAuthenticator
  split
  · rename_i hconsole
    rw [if_pos (hdisplay hconsole)]
  · rfl

theorem performAction_reaches (hrestart : RestartSpec top restart)
    (h : Position top L before (.authenticator id requirement factory)) (hsound : Sound top s)
    (hcontext : s.trace.caughtRestart = false → Context L before f s)
    (hanswerable : AnswerableAt s e (.authenticator id requirement factory)) :
    id :: s.trace.actions <:+
      (performAction b restart id requirement factory f s).2.2.trace.actions := by
  obtain ⟨hprocessed, hregistered, hdisplay⟩ := hanswerable
  obtain ⟨hdisabled, hfresh⟩ := not_isProcessed (Bool.not_eq_true _ ▸ hprocessed)
  obtain ⟨hcalled, hsame⟩ := callAuthenticator_quiet b (s.recordAction id)
  unfold performAction
  rw [if_neg (by simp [hregistered]), createAuthenticator_none hdisplay]
  simp only
  split
  · rename_i e' u hcall
    rw [hcall] at hcalled
    exact hcalled.actions
  rename_i u hcall
  rw [hcall] at hcalled hsame
  have hquiet := (Quiet.recordAction s id).trans hcalled
  have hresult : StepSpec top L before (.authenticator id requirement factory) u
      (processResult b restart id requirement (b.report s.clock) f u) := by
    refine processResult_spec b hrestart h (hquiet.sound hsound) ?_
      (of_decide_eq_false hdisabled) ?_ hregistered ?_ _
    · exact fun hcaught => hquiet.context (hcontext (hquiet.caughtRestart ▸ hcaught))
    · rw [hquiet.status_eq]
      exact hfresh
    · rw [hsame]
      exact hdisplay
  have hactions : id :: s.trace.actions <:+
      (processResult b restart id requirement (b.report s.clock) f u).2.2.trace.actions :=
    hcalled.actions.trans hresult.1.actions
  split
  · rename_i f' v hnull
    rw [hnull] at hactions
    exact hactions
  · exact hactions

section Answers

variable (setting : Setting top restart)

include setting

mutual

theorem processAction_reaches : ∀ (xs L before : List Execution) (f : FlowState)
    (s : Processor), Level top L → L = before ++ xs → Sound top s → Context L before f s →
    ActionReady s e xs → Answerable s e xs →
    e :: s.trace.actions <:+ (processAction b restart e xs f s).2.trace.actions
  | [], _, _, _, _, _, _, _, _, _, hanswerable => hanswerable.elim
  | x :: rest, L, before, f, s, hlevel, hsplit, hsound, hcontext, hready, hanswerable => by
      have hposition : Position top L before x := ⟨setting.nodup, hlevel, rest, hsplit⟩
      have hrest := processAction_reaches rest L (before ++ [x])
      have hat := processActionOn_reaches x L before f s hposition hsound hcontext
      have hsplit' : L = before ++ [x] ++ rest := by rw [hsplit]; simp
      rw [processAction]
      rcases hanswerable with ⟨hx, hanswerable⟩ | ⟨hx, hflow, hanswerable⟩
      · obtain ⟨hready, hprocessed⟩ : ActionReadyAt s e x ∧ isProcessed s x = false := by
          refine ⟨?_, by cases x <;> exact hanswerable.1⟩
          rcases hready with ⟨_, hready⟩ | ⟨hnot, _⟩
          · exact hready
          · exact absurd hx hnot
        have hunprocessed : ¬ isProcessed s x = true := by simp [hprocessed]
        obtain ⟨outcome, f', t, hresult, hstep⟩ := processActionOn_spec b setting x L before f s
          hposition hsound (fun _ => hcontext) hunprocessed hx (fun _ => hready)
        have hactions := hat hx hready hanswerable
        rw [if_neg hunprocessed]
        rw [hresult] at hactions ⊢
        have hactions := hactions _ rfl
        cases outcome with
        | null =>
            have hflow := processFlow_spec b setting rest L (before ++ [x]) f' t hlevel hsplit'
              hstep.2.1 fun hc => (hstep.2.2 hc).2
            exact hactions.trans hflow.1.actions
        | response r => exact hactions
        | raised e' => exact hactions
      · obtain ⟨hleaf, hready⟩ :
            (x.isAuthenticatorFlow = false → Passed s x) ∧ ActionReady s e rest := by
          rcases hready with ⟨hin, _⟩ | ⟨_, hpassed, hready⟩
          · exact absurd hin hx
          · exact ⟨hpassed, hready⟩
        split
        · rename_i hprocessed
          exact hrest (f.pass s x) s hlevel hsplit' hsound
            (hcontext.skip hposition.mem hprocessed) hready hanswerable
        · rename_i hprocessed
          rcases processActionOn_absent b x f s hx with ⟨hnone, hauthenticator⟩ | hraise
          · rw [hnone]
            exact hrest f s hlevel hsplit' hsound (hcontext.extend (hleaf hauthenticator)) hready
              hanswerable
          · exfalso
            cases x with
            | authenticator id requirement factory =>
                rw [ids_authenticator, List.mem_singleton] at hx
                rw [processActionOn, if_neg (Ne.symm hx)] at hraise
                cases hraise
            | flow id requirement inner => exact hprocessed (hflow rfl)

theorem processActionOn_reaches : ∀ (x : Execution) (L before : List Execution) (f : FlowState)
    (s : Processor), Position top L before x → Sound top s → Context L before f s →
    e ∈ x.ids → ActionReadyAt s e x → AnswerableAt s e x →
    ∀ result, processActionOn b restart e x f s = some result →
      e :: s.trace.actions <:+ result.2.2.trace.actions
  | .authenticator id requirement factory, L, before, f, s, h, hsound, hcontext, hmem, _,
      hanswerable, result, hresult => by
      rw [ids_authenticator, List.mem_singleton] at hmem
      subst hmem
      rw [processActionOn, if_pos rfl] at hresult
      cases hresult
      exact performAction_reaches b setting.restart h hsound (fun _ => hcontext) hanswerable
  | .flow id requirement inner, L, before, f, s, h, hsound, _, _, hready, hanswerable, result,
      hresult => by
      have hinner := processAction_reaches inner inner [] .new s (h.level.subflow h.mem) rfl
        hsound (Context.start inner s) hready hanswerable.2
      rw [processActionOn] at hresult
      split at hresult
      · rename_i t hnull
        rw [hnull] at hinner
        cases hresult
        exact hinner
      · rename_i outcome t _ hended
        rw [hended] at hinner
        cases hresult
        exact hinner

end

end Answers

end Keycloak.Authentication
