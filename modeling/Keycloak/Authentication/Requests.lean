import Keycloak.Authentication.ProcessAction

/-!
# What a request does to the session

`authenticate`, its restarts and `authenticationAction` keep the invariant, record sound
completions, and leave the note at an execution that can be acted on. Restarts nest, so the
specification of `authenticate` is proved by induction on the depth of the call stack.
-/

namespace Keycloak.Authentication

def RequestSpec (top : List Execution) (s : Processor) (result : Outcome × Processor) : Prop :=
  Grows s result.2 ∧ Sound top result.2 ∧ result.1 ≠ .null ∧
    (result.2.trace.caughtRestart = false →
      s.trace.resets ≤ result.2.trace.resets ∧ CurrentReady top result.2 ∧
        ∀ r, result.1 = .response r → Answered top result.2 r)

variable {top : List Execution} {s t : Processor}

theorem RequestSpec.of_quiet {result : Outcome × Processor} (h : Quiet s t)
    (hspec : RequestSpec top t result) : RequestSpec top s result := by
  obtain ⟨hgrows, hsound, hnull, hspec⟩ := hspec
  refine ⟨h.grows.trans hgrows, hsound, hnull, fun hcaught => ?_⟩
  rw [← h.resets]
  exact hspec hcaught

theorem Quiet.currentReady (h : Quiet s t) (hready : CurrentReady top s) : CurrentReady top t :=
  (h.evolves top).currentReady hready

theorem RequestSpec.refused {outcome : Outcome} (h : Quiet s t) (hsound : Sound top s)
    (hready : s.trace.caughtRestart = false → CurrentReady top s) (hnull : outcome ≠ .null)
    (hchallenge : ∀ e, outcome ≠ .response (.challenge e)) :
    RequestSpec top s (outcome, t) := by
  refine ⟨h.grows, h.sound hsound, hnull, fun hcaught => ⟨Nat.le_of_eq h.resets.symm, ?_, ?_⟩⟩
  · exact h.currentReady (hready (h.grows.caughtRestart_false hcaught))
  · rintro r hr e rfl
    exact absurd hr (hchallenge e)

/-! ## Completion -/

theorem Sound.alternativesSettled (h : Sound top s) (hcaught : s.trace.caughtRestart = false)
    (hpassed : ∀ x ∈ top, Passed s x) : AlternativesSettled s.status s.trace.setAside top := by
  by_cases hsuccess : ∃ x ∈ top, x.isAlternative = true ∧ s.status x.id = some .success
  · exact .inl hsuccess
  · right
    intro x hx halternative
    have hallowed := h.allowed top (.here top) x hx
    simp only [Execution.isAlternative, decide_eq_true_eq] at halternative
    cases hprocessed : processedStatus (s.status x.id) with
    | false =>
        right
        rcases hpassed x hx with hpassed | ⟨hleaf, _, haside⟩
        · simp [isProcessed, Execution.isDisabled, halternative, hprocessed] at hpassed
        · exact ⟨hleaf, rfl, haside⟩
    | true =>
        left
        have halternative' : x.isAlternative = true := by
          simp [Execution.isAlternative, halternative]
        cases hstatus : s.status x.id with
        | none => simp [hstatus, processedStatus] at hprocessed
        | some st =>
            cases st with
            | attempted => rfl
            | success => exact absurd ⟨x, hx, halternative', hstatus⟩ hsuccess
            | skipped =>
                have hbacked := h.backed hcaught top (.here top) x hx halternative' hstatus
                exact absurd hbacked hsuccess
            | setupRequired =>
                have hrequired := (hallowed.1 hstatus).2
                simp [Execution.isRequired, halternative] at hrequired
            | failed | challenged => simp [hstatus, processedStatus] at hprocessed

mutual

theorem Sound.requiredDone (h : Sound top s) (hcaught : s.trace.caughtRestart = false)
    (hunfinished : s.trace.unfinished = false) : ∀ (xs L : List Execution), Level top L →
    (∀ x ∈ xs, x ∈ L) → (∀ x ∈ xs, x.isRequired = true → Done s.status x) →
    RequiredDone s.status xs
  | [], _, _, _, _ => trivial
  | x :: rest, L, hL, hsub, hdone => by
      refine ⟨?_, ?_⟩
      · exact h.requiredDoneAt hcaught hunfinished x L hL (hsub x List.mem_cons_self)
          (hdone x List.mem_cons_self)
      · exact h.requiredDone hcaught hunfinished rest L hL
          (fun y hy => hsub y (List.mem_cons_of_mem x hy))
          (fun y hy => hdone y (List.mem_cons_of_mem x hy))

theorem Sound.requiredDoneAt (h : Sound top s) (hcaught : s.trace.caughtRestart = false)
    (hunfinished : s.trace.unfinished = false) : ∀ (x : Execution) (L : List Execution),
    Level top L → x ∈ L → (x.isRequired = true → Done s.status x) → RequiredDoneAt s.status x
  | .authenticator id requirement factory, _, _, _, hdone => by
      rintro rfl
      rcases hdone rfl with hsuccess | ⟨_, hsetup⟩
      · exact .inl hsuccess
      · exact .inr hsetup
  | .flow id requirement inner, L, hL, hx, hdone => by
      refine ⟨?_, fun hsuccess => ?_⟩
      · rintro rfl
        rcases hdone rfl with hsuccess | ⟨hleaf, _⟩
        · exact hsuccess
        · cases hleaf
      · exact h.requiredDone hcaught hunfinished inner inner (hL.subflow hx) (fun _ hy => hy)
          (h.closed hcaught hunfinished L hL id requirement inner hx hsuccess)

end

theorem Sound.completedSoundly (h : Sound top s)
    (hpassed : s.trace.caughtRestart = false → ∀ x ∈ top, Passed s x) :
    CompletedSoundly top (s.session, s.trace) := by
  intro hcaught
  refine ⟨h.alternativesSettled hcaught (hpassed hcaught), fun hunfinished => ?_⟩
  refine h.requiredDone hcaught hunfinished top top (.here top) (fun _ hx => hx) ?_
  intro x hx hrequired
  refine (h.allowed top (.here top) x hx).done hrequired ?_
  simp only [Execution.isRequired, decide_eq_true_eq] at hrequired
  rcases hpassed hcaught x hx with hprocessed | ⟨_, halternative, _⟩
  · simpa [isProcessed, Execution.isDisabled, hrequired] using hprocessed
  · simp [Execution.isAlternative, hrequired] at halternative

variable (b : Behaviour)

theorem authenticationComplete_spec (hsound : Sound top s)
    (hpassed : s.trace.caughtRestart = false → ∀ x ∈ top, Passed s x)
    (hready : s.trace.caughtRestart = false → CurrentReady top s) :
    RequestSpec top s (authenticationComplete b s) := by
  have hcompleted : ∀ c ∈ (s.session, s.trace) :: s.completions, CompletedSoundly top c := by
    intro c hc
    rcases List.mem_cons.mp hc with rfl | hc
    · exact hsound.completedSoundly hpassed
    · exact hsound.completed c hc
  unfold authenticationComplete
  simp only
  split
  · refine ⟨⟨fun h => h, fun h => h, fun h => h, List.suffix_rfl⟩,
      ⟨hsound.allowed, hsound.backed, hsound.closed, hcompleted⟩, by simp, fun hcaught => ?_⟩
    refine ⟨Nat.le_refl _, by simp [CurrentReady], ?_⟩
    rintro r hr e rfl
    cases hr
  · refine ⟨⟨fun h => h, fun h => h, fun h => h, List.suffix_rfl⟩,
      ⟨hsound.allowed, hsound.backed, hsound.closed, hcompleted⟩, by simp, fun hcaught => ?_⟩
    refine ⟨Nat.le_refl _, ?_, ?_⟩
    · intro e he
      exact ActionReady.mono (s := s) top (fun _ _ _ _ _ hp => hp) (hready hcaught e he)
    · rintro r hr e rfl
      cases hr

theorem finishFlow_spec {result : Outcome × Processor}
    (hready : s.trace.caughtRestart = false → CurrentReady top s)
    (hspec : FlowSpec top top s result) : RequestSpec top s (finishFlow b result) := by
  obtain ⟨outcome, t⟩ := result
  obtain ⟨hgrows, hsound, hspec⟩ := hspec
  simp only at hgrows hsound hspec
  have hready' : ∀ (_ : t.trace.caughtRestart = false) (_ : Evolves top s t ∨ Restarted top s t),
      s.trace.resets ≤ t.trace.resets ∧ CurrentReady top t := by
    rintro hcaught (hevolves | hrestarted)
    · exact ⟨Nat.le_of_eq hevolves.resets.symm,
        hevolves.currentReady (hready (hgrows.caughtRestart_false hcaught))⟩
    · exact ⟨Nat.le_of_lt hrestarted.resets, hrestarted.current⟩
  cases outcome with
  | null =>
      simp only [finishFlow]
      split
      · refine ⟨hgrows, hsound, by simp, fun hcaught => ?_⟩
        obtain ⟨hresets, hcurrent⟩ := hready' hcaught (.inl (hspec hcaught).1)
        exact ⟨hresets, hcurrent, by simp⟩
      · obtain ⟨hgrows', hsound', hnull, hcomplete⟩ := authenticationComplete_spec b hsound
          (fun hcaught => (hspec hcaught).2)
          (fun hcaught => (hready' hcaught (.inl (hspec hcaught).1)).2)
        refine ⟨hgrows.trans hgrows', hsound', hnull, fun hcaught => ?_⟩
        obtain ⟨hresets, hrest⟩ := hcomplete hcaught
        have hcaught' := hgrows'.caughtRestart_false hcaught
        exact ⟨Nat.le_trans (hready' hcaught' (.inl (hspec hcaught').1)).1 hresets, hrest⟩
  | response r =>
      refine ⟨hgrows, hsound, (by simp [finishFlow]), fun hcaught => ?_⟩
      rcases hspec hcaught with ⟨hevolves, hanswered⟩ | ⟨hrestarted, hanswered⟩
      · obtain ⟨hresets, hcurrent⟩ := hready' hcaught (.inl hevolves)
        refine ⟨hresets, hcurrent, ?_⟩
        rintro r' hr
        cases hr
        exact hanswered
      · obtain ⟨hresets, hcurrent⟩ := hready' hcaught (.inr hrestarted)
        refine ⟨hresets, hcurrent, ?_⟩
        rintro r' hr
        cases hr
        exact hanswered
  | raised e =>
      refine ⟨hgrows, hsound, (by simp [finishFlow]), fun hcaught => ?_⟩
      obtain ⟨hresets, hcurrent⟩ := hready' hcaught (hspec hcaught)
      exact ⟨hresets, hcurrent, by simp [finishFlow]⟩

/-! ## Authentication and its restarts -/

theorem authenticateWith_spec {restart : Processor → Outcome × Processor}
    (setting : Setting top restart) (hsound : Sound top s)
    (hready : s.trace.caughtRestart = false → CurrentReady top s) :
    RequestSpec top s (authenticateWith b top restart s) := by
  have hvalidated := (Quiet.tick s).trans (validateUser_quiet b s.tick)
  unfold authenticateWith
  split
  · exact RequestSpec.refused (Quiet.tick s) hsound hready (by simp) (by simp)
  split
  · rename_i e t hvalidate
    rw [hvalidate] at hvalidated
    exact RequestSpec.refused hvalidated hsound hready (by simp) (by simp)
  · rename_i t hvalidate
    rw [hvalidate] at hvalidated
    refine RequestSpec.of_quiet hvalidated (finishFlow_spec b (fun hcaught => ?_) ?_)
    · exact hvalidated.currentReady (hready (hvalidated.grows.caughtRestart_false hcaught))
    · exact processFlow_spec b setting top top [] .new t (.here top) rfl
        (hvalidated.sound hsound) (fun _ => Context.start top t)

theorem Sound.resetFlow (h : Sound top s) : Sound top (resetFlow s) where
  allowed := fun _ _ _ _ => by simp [AllowedStatus, Processor.status, Authentication.resetFlow]
  backed := by simp [Processor.status, Authentication.resetFlow]
  closed := by simp [Processor.status, Authentication.resetFlow]
  completed := h.completed

theorem RestartSpec.of_request {run : Processor → Outcome × Processor}
    (h : ∀ s, Sound top s → (s.trace.caughtRestart = false → CurrentReady top s) →
      RequestSpec top s (run s)) : RestartSpec top (fun s => run (resetFlow s)) := by
  intro s hsound
  obtain ⟨hgrows, hsound', hnull, hspec⟩ := h (resetFlow s) hsound.resetFlow
    (by simp [CurrentReady, Authentication.resetFlow])
  have hreset : Grows s (resetFlow s) := ⟨fun h => h, fun h => h, fun h => h, List.suffix_rfl⟩
  refine ⟨hreset.trans hgrows, hsound', hnull, fun hcaught => ?_⟩
  obtain ⟨hresets, hcurrent, hanswered⟩ := hspec hcaught
  exact ⟨⟨Nat.lt_of_succ_le hresets, hcurrent⟩, hanswered⟩

theorem authenticate_spec (hwf : WellFormed top) (depth : Nat) (s : Processor)
    (hsound : Sound top s) (hready : s.trace.caughtRestart = false → CurrentReady top s) :
    RequestSpec top s (authenticate b top depth s) := by
  induction depth generalizing s with
  | zero => exact RequestSpec.refused (Quiet.refl s) hsound hready (by simp) (by simp)
  | succ depth ih =>
      have hrestart : RestartSpec top fun t => authenticate b top depth (resetFlow t) :=
        RestartSpec.of_request ih
      exact authenticateWith_spec b ⟨hwf, hrestart⟩ hsound hready

theorem restart_setting (hwf : WellFormed top) (depth : Nat) :
    Setting top (restart b top depth) :=
  ⟨hwf, RestartSpec.of_request (authenticate_spec b hwf depth)⟩

theorem authenticationAction_spec (hwf : WellFormed top) (others : List String) (depth : Nat)
    (e : String) (hsound : Sound top s)
    (hready : s.trace.caughtRestart = false → CurrentReady top s) :
    RequestSpec top s (authenticationAction b top others depth e s) := by
  have hvalidated := (Quiet.tick s).trans (validateUser_quiet b s.tick)
  unfold authenticationAction
  split
  · exact RequestSpec.refused (Quiet.refl s) hsound hready (by simp) (by simp)
  split
  · exact RequestSpec.refused (Quiet.tick s) hsound hready (by simp) (by simp)
  split
  · exact RequestSpec.refused (Quiet.tick s) hsound hready (by simp) (by simp)
  rename_i hcurrent
  have hcurrent : s.session.current = some (.execution e) := not_not.mp hcurrent
  split
  · rename_i e' t hvalidate
    rw [hvalidate] at hvalidated
    exact RequestSpec.refused hvalidated hsound hready (by simp) (by simp)
  rename_i t hvalidate
  rw [hvalidate] at hvalidated
  refine RequestSpec.of_quiet hvalidated ?_
  have hready' : t.trace.caughtRestart = false → CurrentReady top t := fun hcaught =>
    hvalidated.currentReady (hready (hvalidated.grows.caughtRestart_false hcaught))
  split
  · refine finishFlow_spec b hready' ?_
    refine processAction_spec b (restart_setting b hwf depth) top top [] .new t (.here top) rfl
      (hvalidated.sound hsound) (fun _ => Context.start top t) (fun hcaught => ?_)
    exact hready' hcaught e (hvalidated.current.trans hcurrent)
  · obtain ⟨hgrows, hsound', hnull, hspec⟩ :=
      (restart_setting b hwf depth).restart t (hvalidated.sound hsound)
    refine ⟨hgrows, hsound', hnull, fun hcaught => ?_⟩
    obtain ⟨hrestarted, hanswered⟩ := hspec hcaught
    exact ⟨Nat.le_of_lt hrestarted.resets, hrestarted.current, hanswered⟩

end Keycloak.Authentication
