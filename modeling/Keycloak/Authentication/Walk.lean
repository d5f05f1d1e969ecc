import Keycloak.Authentication.Invariant

/-!
# The walk over a level

What a part of a run does to the session. Without a restart it changes the statuses of one level
only, and never one that counts as processed (`Evolves`). With a restart nothing of the session
before is left, and the session is as a run from the start leaves it (`Restarted`). The
specifications of the engine's methods are stated with these two relations.
-/

namespace Keycloak.Authentication

def Passed (s : Processor) (x : Execution) : Prop :=
  isProcessed s x = true ∨
    (x.isAuthenticatorFlow = false ∧ x.isAlternative = true ∧ x.id ∈ s.trace.setAside)

mutual

/-- The authenticators that an action for the execution `e` goes past have been passed. -/
def ActionReady (s : Processor) (e : String) : List Execution → Prop
  | [] => True
  | x :: rest =>
      (e ∈ x.ids ∧ ActionReadyAt s e x) ∨
        (e ∉ x.ids ∧ (x.isAuthenticatorFlow = false → Passed s x) ∧ ActionReady s e rest)

def ActionReadyAt (s : Processor) (e : String) : Execution → Prop
  | .authenticator _ _ _ => True
  | .flow _ _ inner => ActionReady s e inner

end

mutual

def Answerable (s : Processor) (e : String) : List Execution → Prop
  | [] => False
  | x :: rest =>
      (e ∈ x.ids ∧ AnswerableAt s e x) ∨
        (e ∉ x.ids ∧ (x.isAuthenticatorFlow = true → isProcessed s x = true) ∧
          Answerable s e rest)

def AnswerableAt (s : Processor) (e : String) : Execution → Prop
  | .authenticator id requirement factory =>
      isProcessed s (.authenticator id requirement factory) = false ∧
        factory.registered = true ∧
        (s.session.display = some .console → factory.supportsConsole = true)
  | .flow id requirement inner =>
      isProcessed s (.flow id requirement inner) = false ∧ Answerable s e inner

end

structure Grows (s t : Processor) : Prop where
  caughtRestart : s.trace.caughtRestart = true → t.trace.caughtRestart = true
  unfinished : s.trace.unfinished = true → t.trace.unfinished = true
  returnedAlternative : s.trace.returnedAlternative = true → t.trace.returnedAlternative = true
  actions : s.trace.actions <:+ t.trace.actions

structure Evolves (L : List Execution) (s t : Processor) : Prop where
  resets : t.trace.resets = s.trace.resets
  outside : ∀ i, i ∉ idsOf L → t.status i = s.status i
  processed : ∀ i, processedStatus (s.status i) = true → t.status i = s.status i
  setAside : ∀ i ∈ s.trace.setAside, i ∈ t.trace.setAside
  current : ∀ e, t.session.current = some (.execution e) →
    s.session.current = some (.execution e) ∨ (e ∈ idsOf L ∧ ActionReady t e L)

def CurrentReady (top : List Execution) (s : Processor) : Prop :=
  ∀ e, s.session.current = some (.execution e) → ActionReady s e top

structure Restarted (top : List Execution) (s t : Processor) : Prop where
  resets : s.trace.resets < t.trace.resets
  current : CurrentReady top t

/-- A returned challenge can be answered, unless it was kept back or a finished subflow was
marked as challenged. -/
def Answered (L : List Execution) (t : Processor) (r : Response) : Prop :=
  ∀ e, r = .challenge e → t.trace.returnedAlternative = false → t.trace.unfinished = false →
    t.session.current = some (.execution e) ∧ e ∈ idsOf L ∧ Answerable t e L

structure Context (L before : List Execution) (f : FlowState) (s : Processor) : Prop where
  passed : ∀ y ∈ before, Passed s y
  successful : f.alternativeSuccessful = true →
    ∃ y ∈ L, y.isAlternative = true ∧ s.status y.id = some .success
  kept : ∀ r i, f.alternativeChallenge = some (r, i) →
    i ∈ idsOf before ∧ processedStatus (s.status i) = false

def FlowSpec (top L : List Execution) (s : Processor) (result : Outcome × Processor) : Prop :=
  Grows s result.2 ∧ Sound top result.2 ∧ (result.2.trace.caughtRestart = false →
    match result.1 with
    | .null => Evolves L s result.2 ∧ ∀ y ∈ L, Passed result.2 y
    | .response r =>
        (Evolves L s result.2 ∧ Answered L result.2 r) ∨
          (Restarted top s result.2 ∧ Answered top result.2 r)
    | .raised _ => Evolves L s result.2 ∨ Restarted top s result.2)

def StepSpec (top L before : List Execution) (x : Execution) (s : Processor)
    (result : Outcome × FlowState × Processor) : Prop :=
  Grows s result.2.2 ∧ Sound top result.2.2 ∧ (result.2.2.trace.caughtRestart = false →
    match result.1 with
    | .null => Evolves L s result.2.2 ∧ Context L (before ++ [x]) result.2.1 result.2.2
    | .response r =>
        (Evolves L s result.2.2 ∧ Answered L result.2.2 r) ∨
          (Restarted top s result.2.2 ∧ Answered top result.2.2 r)
    | .raised _ => Evolves L s result.2.2 ∨ Restarted top s result.2.2)

def RestartSpec (top : List Execution) (restart : Processor → Outcome × Processor) : Prop :=
  ∀ s, Sound top s → Grows s (restart s).2 ∧ Sound top (restart s).2 ∧ (restart s).1 ≠ .null ∧
    ((restart s).2.trace.caughtRestart = false → Restarted top s (restart s).2 ∧
      ∀ r, (restart s).1 = .response r → Answered top (restart s).2 r)

/-! ## Passing and readiness -/

theorem Grows.refl (s : Processor) : Grows s s :=
  ⟨id, id, id, List.suffix_rfl⟩

theorem Grows.trans {s t u : Processor} (h : Grows s t) (h' : Grows t u) : Grows s u where
  caughtRestart := fun hs => h'.caughtRestart (h.caughtRestart hs)
  unfinished := fun hs => h'.unfinished (h.unfinished hs)
  returnedAlternative := fun hs => h'.returnedAlternative (h.returnedAlternative hs)
  actions := h.actions.trans h'.actions

theorem Grows.caughtRestart_false {s t : Processor} (h : Grows s t)
    (ht : t.trace.caughtRestart = false) : s.trace.caughtRestart = false := by
  cases hs : s.trace.caughtRestart with
  | false => rfl
  | true => rw [h.caughtRestart hs] at ht; cases ht

theorem isProcessed_of_status {s : Processor} {x : Execution}
    (h : processedStatus (s.status x.id) = true) : isProcessed s x = true := by
  simp [isProcessed, h]

theorem not_isProcessed {s : Processor} {x : Execution} (h : ¬ isProcessed s x = true) :
    x.isDisabled = false ∧ processedStatus (s.status x.id) = false := by
  simpa [isProcessed] using h

mutual

theorem ActionReady.mono {s t : Processor} {e : String} : ∀ xs : List Execution,
    (∀ M, Level xs M → ∀ y ∈ M, y.isAuthenticatorFlow = false → Passed s y → Passed t y) →
    ActionReady s e xs → ActionReady t e xs
  | [], _, _ => trivial
  | x :: rest, hpassed, h => by
      have hat := ActionReadyAt.mono (s := s) (t := t) (e := e) x
      have hrest := ActionReady.mono (s := s) (t := t) (e := e) rest
      rcases h with ⟨hx, h⟩ | ⟨hx, hleaf, h⟩
      · refine .inl ⟨hx, hat ?_ h⟩
        intro id requirement inner hflow M hM
        exact hpassed M (.inside (by rw [hflow]; exact List.mem_cons_self) hM)
      · refine .inr ⟨hx, fun hl => hpassed _ (.here _) x List.mem_cons_self hl (hleaf hl), ?_⟩
        refine hrest ?_ h
        intro M hM y hy
        cases hM with
        | here => exact hpassed _ (.here _) y (List.mem_cons_of_mem x hy)
        | inside hflow hM => exact hpassed M (.inside (List.mem_cons_of_mem x hflow) hM) y hy

theorem ActionReadyAt.mono {s t : Processor} {e : String} : ∀ x : Execution,
    (∀ id requirement inner, x = .flow id requirement inner → ∀ M, Level inner M → ∀ y ∈ M,
      y.isAuthenticatorFlow = false → Passed s y → Passed t y) →
    ActionReadyAt s e x → ActionReadyAt t e x
  | .authenticator _ _ _, _, _ => trivial
  | .flow id requirement inner, hpassed, h =>
      ActionReady.mono (s := s) (t := t) (e := e) inner (hpassed id requirement inner rfl) h

end

theorem actionReady_append {s : Processor} {e : String} {before rest : List Execution}
    {x : Execution} (hpassed : ∀ y ∈ before, Passed s y) (hnot : e ∉ idsOf before)
    (hx : e ∈ x.ids) (h : ActionReadyAt s e x) : ActionReady s e (before ++ x :: rest) := by
  induction before with
  | nil => exact .inl ⟨hx, h⟩
  | cons y before ih =>
      rw [idsOf, List.mem_append, not_or] at hnot
      refine .inr ⟨hnot.1, fun _ => hpassed y List.mem_cons_self, ?_⟩
      exact ih (fun z hz => hpassed z (List.mem_cons_of_mem y hz)) hnot.2

theorem answerable_append {s : Processor} {e : String} {before rest : List Execution}
    {x : Execution} (hpassed : ∀ y ∈ before, Passed s y) (hnot : e ∉ idsOf before)
    (hx : e ∈ x.ids) (h : AnswerableAt s e x) : Answerable s e (before ++ x :: rest) := by
  induction before with
  | nil => exact .inl ⟨hx, h⟩
  | cons y before ih =>
      rw [idsOf, List.mem_append, not_or] at hnot
      refine .inr ⟨hnot.1, fun hflow => ?_, ?_⟩
      · rcases hpassed y List.mem_cons_self with hprocessed | ⟨hleaf, _⟩
        · exact hprocessed
        · rw [hflow] at hleaf
          cases hleaf
      · exact ih (fun z hz => hpassed z (List.mem_cons_of_mem y hz)) hnot.2

mutual

theorem Answerable.congr {s t : Processor} {e : String}
    (hdisplay : t.session.display = s.session.display) : ∀ xs : List Execution,
    (∀ i ∈ idsOf xs, processedStatus (t.status i) = processedStatus (s.status i)) →
    Answerable s e xs → Answerable t e xs
  | [], _, h => h
  | x :: rest, hstatus, h => by
      have hat := AnswerableAt.congr (e := e) hdisplay x
      have hrest := Answerable.congr (e := e) hdisplay rest
      rw [idsOf] at hstatus
      have hx : isProcessed t x = isProcessed s x := by
        rw [isProcessed, isProcessed, hstatus x.id (List.mem_append_left _ (id_mem_ids x))]
      rcases h with ⟨he, h⟩ | ⟨he, hflow, h⟩
      · exact .inl ⟨he, hat (fun i hi => hstatus i (List.mem_append_left _ hi)) h⟩
      · refine .inr ⟨he, fun hf => hx.trans (hflow hf), ?_⟩
        exact hrest (fun i hi => hstatus i (List.mem_append_right _ hi)) h

theorem AnswerableAt.congr {s t : Processor} {e : String}
    (hdisplay : t.session.display = s.session.display) : ∀ x : Execution,
    (∀ i ∈ x.ids, processedStatus (t.status i) = processedStatus (s.status i)) →
    AnswerableAt s e x → AnswerableAt t e x
  | .authenticator id requirement factory, hstatus, h => by
      have hx := hstatus id (by simp)
      refine ⟨?_, h.2.1, fun hd => h.2.2 (hdisplay ▸ hd)⟩
      have hold := h.1
      rw [isProcessed] at hold ⊢
      rw [Execution.id] at hold ⊢
      rw [hx]
      exact hold
  | .flow id requirement inner, hstatus, h => by
      have hx := hstatus id (by simp)
      refine ⟨?_, ?_⟩
      · have hold := h.1
        rw [isProcessed] at hold ⊢
        rw [Execution.id] at hold ⊢
        rw [hx]
        exact hold
      · exact Answerable.congr (e := e) hdisplay inner
          (fun i hi => hstatus i (by simp [hi])) h.2

end

/-! ## Runs without a restart -/

namespace Evolves

variable {L : List Execution} {s t u : Processor}

theorem passed (h : Evolves L s t) {x : Execution} (hx : Passed s x) : Passed t x := by
  rcases hx with hprocessed | ⟨hleaf, halternative, haside⟩
  · left
    rw [isProcessed, Bool.or_eq_true] at hprocessed ⊢
    rcases hprocessed with hdisabled | hstatus
    · exact .inl hdisabled
    · right
      rw [h.processed x.id hstatus]
      exact hstatus
  · exact .inr ⟨hleaf, halternative, h.setAside x.id haside⟩

theorem refl (L : List Execution) (s : Processor) : Evolves L s s where
  resets := rfl
  outside := fun _ _ => rfl
  processed := fun _ _ => rfl
  setAside := fun _ hi => hi
  current := fun _ he => .inl he

theorem trans (h : Evolves L s t) (h' : Evolves L t u) : Evolves L s u where
  resets := h'.resets.trans h.resets
  outside := fun i hi => (h'.outside i hi).trans (h.outside i hi)
  processed := by
    intro i hi
    have ht : processedStatus (t.status i) = true := by
      rw [h.processed i hi]
      exact hi
    exact (h'.processed i ht).trans (h.processed i hi)
  setAside := fun i hi => h'.setAside i (h.setAside i hi)
  current := by
    intro e he
    rcases h'.current e he with ht | hready
    · rcases h.current e ht with hs | ⟨hi, hready⟩
      · exact .inl hs
      · exact .inr ⟨hi, ActionReady.mono L (fun _ _ _ _ _ => h'.passed) hready⟩
    · exact .inr hready

theorem currentReady {top : List Execution} (h : Evolves top s t) (hs : CurrentReady top s) :
    CurrentReady top t := by
  intro e he
  rcases h.current e he with hold | ⟨_, hready⟩
  · exact ActionReady.mono top (fun _ _ _ _ _ => h.passed) (hs e hold)
  · exact hready

theorem restarted {top : List Execution} (h : Evolves L s t) (h' : Restarted top t u) :
    Restarted top s u :=
  ⟨h.resets ▸ h'.resets, h'.current⟩

theorem write {i : String} (hi : i ∈ idsOf L) (hfresh : processedStatus (s.status i) = false)
    (st : ExecutionStatus) : Evolves L s (s.setExecutionStatus i st) where
  resets := rfl
  outside := by
    intro j hj
    have hne : j ≠ i := fun heq => hj (heq ▸ hi)
    exact status_set_of_ne s st hne
  processed := by
    intro j hj
    have hne : j ≠ i := by
      intro heq
      rw [heq, hfresh] at hj
      cases hj
    exact status_set_of_ne s st hne
  setAside := fun _ hj => hj
  current := fun _ he => .inl he

theorem point {before rest : List Execution} {x : Execution} {e : String}
    (hL : L = before ++ x :: rest) (hpassed : ∀ y ∈ before, Passed s y)
    (hnot : e ∉ idsOf before) (hx : e ∈ x.ids) (h : ActionReadyAt s e x) :
    Evolves L s (s.setCurrent (some (.execution e))) where
  resets := rfl
  outside := fun _ _ => rfl
  processed := fun _ _ => rfl
  setAside := fun _ hi => hi
  current := by
    intro e' he'
    right
    cases he'
    subst hL
    have hready : ActionReady s e (before ++ x :: rest) := actionReady_append hpassed hnot hx h
    have hmem : e ∈ idsOf (before ++ x :: rest) := mem_idsOf.mpr ⟨x, by simp, hx⟩
    exact ⟨hmem, ActionReady.mono (s := s) _ (fun _ _ _ _ _ hp => hp) hready⟩

end Evolves

/-- A part of a run that leaves the statuses, the note and the marks as they are. -/
structure Quiet (s t : Processor) : Prop where
  status : t.session.executionStatus = s.session.executionStatus
  current : t.session.current = s.session.current
  resets : t.trace.resets = s.trace.resets
  setAside : ∀ i ∈ s.trace.setAside, i ∈ t.trace.setAside
  caughtRestart : t.trace.caughtRestart = s.trace.caughtRestart
  unfinished : t.trace.unfinished = s.trace.unfinished
  returnedAlternative : t.trace.returnedAlternative = s.trace.returnedAlternative
  actions : s.trace.actions <:+ t.trace.actions
  completions : t.completions = s.completions

namespace Quiet

variable {s t u : Processor}

theorem status_eq (h : Quiet s t) (i : String) : t.status i = s.status i := by
  rw [Processor.status, h.status]
  rfl

theorem refl (s : Processor) : Quiet s s :=
  ⟨rfl, rfl, rfl, fun _ hi => hi, rfl, rfl, rfl, List.suffix_rfl, rfl⟩

theorem trans (h : Quiet s t) (h' : Quiet t u) : Quiet s u where
  status := h'.status.trans h.status
  current := h'.current.trans h.current
  resets := h'.resets.trans h.resets
  setAside := fun i hi => h'.setAside i (h.setAside i hi)
  caughtRestart := h'.caughtRestart.trans h.caughtRestart
  unfinished := h'.unfinished.trans h.unfinished
  returnedAlternative := h'.returnedAlternative.trans h.returnedAlternative
  actions := h.actions.trans h'.actions
  completions := h'.completions.trans h.completions

theorem grows (h : Quiet s t) : Grows s t where
  caughtRestart := fun hs => h.caughtRestart.trans hs
  unfinished := fun hs => h.unfinished.trans hs
  returnedAlternative := fun hs => h.returnedAlternative.trans hs
  actions := h.actions

theorem sound {top : List Execution} (h : Quiet s t) (hs : Sound top s) : Sound top t :=
  hs.congr h.status h.caughtRestart h.unfinished h.completions

theorem evolves (h : Quiet s t) (L : List Execution) : Evolves L s t where
  resets := h.resets
  outside := fun i _ => h.status_eq i
  processed := fun i _ => h.status_eq i
  setAside := h.setAside
  current := fun _ he => .inl (h.current ▸ he)

theorem context (h : Quiet s t) {L before : List Execution} {f : FlowState}
    (hs : Context L before f s) : Context L before f t where
  passed := fun y hy => (h.evolves L).passed (hs.passed y hy)
  successful := by
    intro hf
    obtain ⟨y, hy, halternative, hstatus⟩ := hs.successful hf
    exact ⟨y, hy, halternative, (h.status_eq y.id).trans hstatus⟩
  kept := by
    intro r i hi
    rw [h.status_eq i]
    exact hs.kept r i hi

theorem tick (s : Processor) : Quiet s s.tick :=
  ⟨rfl, rfl, rfl, fun _ hi => hi, rfl, rfl, rfl, List.suffix_rfl, rfl⟩

theorem setUser (s : Processor) (user : Option String) : Quiet s (s.setUser user) :=
  ⟨rfl, rfl, rfl, fun _ hi => hi, rfl, rfl, rfl, List.suffix_rfl, rfl⟩

theorem removeDisplay (s : Processor) : Quiet s s.removeDisplay :=
  ⟨rfl, rfl, rfl, fun _ hi => hi, rfl, rfl, rfl, List.suffix_rfl, rfl⟩

theorem setAside' (s : Processor) (id : String) : Quiet s (s.setAside id) :=
  ⟨rfl, rfl, rfl, fun _ hi => List.mem_cons_of_mem id hi, rfl, rfl, rfl, List.suffix_rfl, rfl⟩

theorem recordAction (s : Processor) (id : String) : Quiet s (s.recordAction id) :=
  ⟨rfl, rfl, rfl, fun _ hi => hi, rfl, rfl, rfl, List.suffix_cons id _, rfl⟩

end Quiet

theorem Grows.write (s : Processor) (i : String) (st : ExecutionStatus) :
    Grows s (s.setExecutionStatus i st) :=
  ⟨id, id, id, List.suffix_rfl⟩

theorem Grows.setCurrent (s : Processor) (current : Option Current) :
    Grows s (s.setCurrent current) :=
  ⟨id, id, id, List.suffix_rfl⟩

theorem Sound.setCurrent {top : List Execution} {s : Processor} (h : Sound top s)
    (current : Option Current) : Sound top (s.setCurrent current) :=
  h.congr rfl rfl rfl rfl

theorem StepSpec.of_evolves {top L before : List Execution} {x : Execution} {s t : Processor}
    {result : Outcome × FlowState × Processor} (hgrows : Grows s t)
    (hevolves : t.trace.caughtRestart = false → Evolves L s t)
    (hspec : StepSpec top L before x t result) : StepSpec top L before x s result := by
  obtain ⟨hgrows', hsound, hspec⟩ := hspec
  refine ⟨hgrows.trans hgrows', hsound, fun hcaught => ?_⟩
  have hspec := hspec hcaught
  have hevolves := hevolves (hgrows'.caughtRestart_false hcaught)
  cases hresult : result.1 with
  | null =>
      rw [hresult] at hspec
      exact ⟨hevolves.trans hspec.1, hspec.2⟩
  | response r =>
      rw [hresult] at hspec
      rcases hspec with ⟨hsame, hanswered⟩ | ⟨hrestarted, hanswered⟩
      · exact .inl ⟨hevolves.trans hsame, hanswered⟩
      · exact .inr ⟨hevolves.restarted hrestarted, hanswered⟩
  | raised e =>
      rw [hresult] at hspec
      rcases hspec with hsame | hrestarted
      · exact .inl (hevolves.trans hsame)
      · exact .inr (hevolves.restarted hrestarted)

theorem StepSpec.of_quiet {top L before : List Execution} {x : Execution} {s t : Processor}
    {result : Outcome × FlowState × Processor} (h : Quiet s t)
    (hspec : StepSpec top L before x t result) : StepSpec top L before x s result :=
  hspec.of_evolves h.grows fun _ => h.evolves L

/-! ## Rounds of the walk -/

theorem idsOf_append (xs ys : List Execution) : idsOf (xs ++ ys) = idsOf xs ++ idsOf ys := by
  induction xs with
  | nil => rfl
  | cons x xs ih => rw [List.cons_append, idsOf, idsOf, ih, List.append_assoc]

structure Position (top L before : List Execution) (x : Execution) : Prop where
  nodup : (idsOf top).Nodup
  level : Level top L
  split : ∃ rest, L = before ++ x :: rest

namespace Position

variable {top L before : List Execution} {x : Execution}

theorem mem (h : Position top L before x) : x ∈ L := by
  obtain ⟨rest, rfl⟩ := h.split
  simp

theorem mem_ids (h : Position top L before x) {i : String} (hi : i ∈ x.ids) : i ∈ idsOf L :=
  mem_idsOf.mpr ⟨x, h.mem, hi⟩

theorem not_mem_before (h : Position top L before x) {i : String} (hi : i ∈ x.ids) :
    i ∉ idsOf before := by
  obtain ⟨rest, hsplit⟩ := h.split
  have hnodup := h.level.nodup h.nodup
  rw [hsplit, idsOf_append, idsOf] at hnodup
  intro hbefore
  exact List.disjoint_of_nodup_append hnodup hbefore (List.mem_append_left _ hi)

end Position

theorem Context.extend {L before : List Execution} {f : FlowState} {s : Processor}
    {x : Execution} (h : Context L before f s) (hx : Passed s x) :
    Context L (before ++ [x]) f s where
  passed := by
    intro y hy
    rcases List.mem_append.mp hy with hy | hy
    · exact h.passed y hy
    · cases List.mem_singleton.mp hy
      exact hx
  successful := h.successful
  kept := by
    intro r i hi
    rw [idsOf_append]
    exact ⟨List.mem_append_left _ (h.kept r i hi).1, (h.kept r i hi).2⟩

theorem Context.skip {L before : List Execution} {f : FlowState} {s : Processor}
    {x : Execution} (h : Context L before f s) (hx : x ∈ L)
    (hprocessed : isProcessed s x = true) : Context L (before ++ [x]) (f.pass s x) s where
  passed := (h.extend (.inl hprocessed)).passed
  successful := by
    intro hf
    simp only [FlowState.pass, isSuccessful, Bool.or_eq_true, Bool.and_eq_true,
      decide_eq_true_eq] at hf
    rcases hf with hf | ⟨halternative, hstatus⟩
    · exact h.successful hf
    · exact ⟨x, hx, halternative, hstatus⟩
  kept := (h.extend (.inl hprocessed)).kept

section Rounds

variable {top L before : List Execution} {x : Execution} {s : Processor} {f f' : FlowState}

theorem StepSpec.advance (h : Position top L before x) (hsound : Sound top s)
    (hcontext : s.trace.caughtRestart = false → Context L before f s) {st : ExecutionStatus}
    (hprocessed : processedStatus (some st) = true) (hallowed : AllowedStatus x (some st))
    (hfresh : s.trace.caughtRestart = false → processedStatus (s.status x.id) = false)
    (hskip : s.trace.caughtRestart = false → st = .skipped → x.isAlternative = true →
      ∃ y ∈ L, y.isAlternative = true ∧ s.status y.id = some .success)
    (hsuccess : s.trace.caughtRestart = false → st = .success → ∀ id requirement inner,
      x = .flow id requirement inner → ∀ y ∈ inner, y.isRequired = true → Done s.status y)
    (hchallenge : f'.alternativeChallenge = f.alternativeChallenge)
    (hsuccessful : f'.alternativeSuccessful = true →
      f.alternativeSuccessful = true ∨ (x.isAlternative = true ∧ st = .success)) :
    StepSpec top L before x s (.null, f', s.setExecutionStatus x.id st) := by
  refine ⟨Grows.write s x.id st,
    hsound.write h.nodup h.level h.mem hallowed hfresh hskip hsuccess, fun hcaught => ?_⟩
  have hcontext := hcontext hcaught
  have hwrite : Evolves L s (s.setExecutionStatus x.id st) :=
    Evolves.write (h.mem_ids (id_mem_ids x)) (hfresh hcaught) st
  refine ⟨hwrite, ?_, ?_, ?_⟩
  · intro y hy
    rcases List.mem_append.mp hy with hy | hy
    · exact hwrite.passed (hcontext.passed y hy)
    · cases List.mem_singleton.mp hy
      exact .inl (isProcessed_of_status (by rw [status_set_self]; exact hprocessed))
  · intro hf
    rcases hsuccessful hf with hf | ⟨halternative, rfl⟩
    · obtain ⟨y, hy, halternative, hstatus⟩ := hcontext.successful hf
      refine ⟨y, hy, halternative, ?_⟩
      rw [hwrite.processed y.id (by rw [hstatus]; rfl)]
      exact hstatus
    · exact ⟨x, h.mem, halternative, status_set_self s x.id .success⟩
  · intro r i hi
    rw [hchallenge] at hi
    obtain ⟨hbefore, hstatus⟩ := hcontext.kept r i hi
    have hne : i ≠ x.id := fun heq => h.not_mem_before (id_mem_ids x) (heq ▸ hbefore)
    rw [status_set_of_ne s st hne, idsOf_append]
    exact ⟨List.mem_append_left _ hbefore, hstatus⟩

theorem StepSpec.skip (h : Position top L before x) (hsound : Sound top s)
    (hcontext : s.trace.caughtRestart = false → Context L before f s)
    (hprocessed : isProcessed s x = true) :
    StepSpec top L before x s (.null, f.pass s x, s) := by
  exact ⟨Grows.refl s, hsound, fun hcaught =>
    ⟨Evolves.refl L s, (hcontext hcaught).skip h.mem hprocessed⟩⟩

theorem StepSpec.skipAlternative (h : Position top L before x) (hsound : Sound top s)
    (hcontext : s.trace.caughtRestart = false → Context L before f s)
    (hfresh : processedStatus (s.status x.id) = false)
    (hskip : x.requirement = .alternative ∧ f.alternativeSuccessful = true) :
    StepSpec top L before x s (.null, f, s.setExecutionStatus x.id .skipped) := by
  refine StepSpec.advance h hsound hcontext rfl ?_ (fun _ => hfresh)
    (fun hcaught _ _ => (hcontext hcaught).successful hskip.2) (by simp) rfl
    (fun hf => .inl hf)
  simp [AllowedStatus, Execution.isRequired, hskip.1]

theorem StepSpec.raise {t : Processor} {e : Raised} (hgrows : Grows s t) (hsound : Sound top t)
    (hevolves : t.trace.caughtRestart = false → Evolves L s t ∨ Restarted top s t) :
    StepSpec top L before x s (.raised e, f, t) :=
  ⟨hgrows, hsound, hevolves⟩

end Rounds

end Keycloak.Authentication
