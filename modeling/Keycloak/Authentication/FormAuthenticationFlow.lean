import Keycloak.Authentication.Executions

/-!
# Form submissions

`FormAuthenticationFlow.processAction`.  What the validation of an action reports is
arbitrary.  The actions are validated in turn; only when none has failed are their callbacks
run and the execution statuses set.
-/

namespace Keycloak.FormAuthentication

open Authentication (Requirement ExecutionStatus)

structure FormMessage where
  field : String
  message : String
  parameters : List String
deriving DecidableEq, Repr

abbrev FormData := List (String × List String)

/-- `ValidationContextImpl` after `validate`; the errors are null unless `validationError` was
called. -/
structure Validation where
  success : Bool
  formData : Option FormData
  errors : Option (List FormMessage)
  error : Option String
  excludeOthers : Bool
deriving DecidableEq, Repr

/-- A form action execution with its factory and its action: what they answer when the turn
comes to it, and whether the session has a user then.  A validation that is missing throws. -/
structure FormActionExecution where
  id : String
  requirement : Requirement
  registered : Bool
  requiresUser : Bool
  authenticatedUser : Bool
  configuredFor : Bool
  isUserSetupAllowed : Bool
  validation : Option Validation
deriving DecidableEq, Repr

inductive FlowError where
  | internalError
  | unknownUser
  | credentialSetupRequired
deriving DecidableEq, Repr

inductive Raised where
  | flowException (error : FlowError)
  | runtimeException
deriving DecidableEq, Repr

inductive Verdict where
  | skipped
  | setupRequired
  | validated (result : Validation)
deriving DecidableEq, Repr

structure Collected where
  executionStatus : List (String × ExecutionStatus)
  requiredActions : List String
  successes : List String
  errors : List Validation
deriving DecidableEq, Repr

def Collected.empty : Collected := ⟨[], [], [], []⟩

inductive Callback where
  | success (id : String)
  | setRequiredActions (id : String)
deriving DecidableEq, Repr

structure AuthenticationSession where
  executionStatus : String → Option ExecutionStatus
  currentExecution : Option String

structure State where
  session : AuthenticationSession
  callbacks : List Callback
  eventErrors : List (Option String)

inductive Outcome where
  | null
  | form (formData : Option FormData) (errors : List FormMessage)
  | raised (exception : Raised)
deriving DecidableEq, Repr

def State.setExecutionStatus (s : State) (id : String) (status : ExecutionStatus) : State :=
  { s with session := { s.session with
      executionStatus := Function.update s.session.executionStatus id (some status) } }

def State.setCurrent (s : State) (current : Option String) : State :=
  { s with session := { s.session with currentExecution := current } }

def State.call (s : State) (callback : Callback) : State :=
  { s with callbacks := s.callbacks ++ [callback] }

def State.error (s : State) (error : Option String) : State :=
  { s with eventErrors := s.eventErrors ++ [error] }

def FormActionExecution.validate (x : FormActionExecution) : Except Raised Verdict :=
  match x.validation with
  | none => .error .runtimeException
  | some result => .ok (.validated result)

def FormActionExecution.process (x : FormActionExecution) : Except Raised Verdict :=
  if x.requirement = .disabled then .ok .skipped
  else if ¬ x.registered then .error .runtimeException
  else if x.requiresUser ∧ ¬ x.authenticatedUser then .error (.flowException .unknownUser)
  else if x.requiresUser ∧ ¬ x.configuredFor then
    if x.requirement = .required then
      if x.isUserSetupAllowed then .ok .setupRequired
      else .error (.flowException .credentialSetupRequired)
    else if x.requirement = .optional then .ok .skipped
    else x.validate
  else x.validate

def Collected.add (c : Collected) (id : String) : Verdict → Collected
  | .skipped => { c with executionStatus := c.executionStatus ++ [(id, .skipped)] }
  | .setupRequired => { c with
      executionStatus := c.executionStatus ++ [(id, .setupRequired)]
      requiredActions := c.requiredActions ++ [id] }
  | .validated result =>
      if result.success then { c with
        executionStatus := c.executionStatus ++ [(id, .success)]
        successes := c.successes ++ [id] }
      else { c with
        executionStatus := c.executionStatus ++ [(id, .challenged)]
        errors := c.errors ++ [result] }

def collect : List FormActionExecution → Collected → Except Raised Collected
  | [], c => .ok c
  | x :: rest, c =>
      match x.process with
      | .error e => .error e
      | .ok verdict => collect rest (c.add x.id verdict)

structure Messages where
  fields : List String
  messages : List FormMessage
deriving DecidableEq, Repr

def addErrors (excludeOthers : Bool) : List FormMessage → Messages → Messages
  | [], shown => shown
  | m :: rest, shown =>
      if m.field ∈ shown.fields then addErrors excludeOthers rest shown
      else if excludeOthers then ⟨[m.field], [m]⟩
      else addErrors excludeOthers rest ⟨shown.fields ++ [m.field], shown.messages ++ [m]⟩

def addValidations : List Validation → Messages → Except Raised Messages
  | [], shown => .ok shown
  | v :: rest, shown =>
      match v.errors with
      | none => .error .runtimeException
      | some errors => addValidations rest (addErrors v.excludeOthers errors shown)

def processAction (formExecution : String) (formActionExecutions : List FormActionExecution)
    (actionExecution : String) (s : State) : Outcome × State :=
  if actionExecution ≠ formExecution then (.raised (.flowException .internalError), s)
  else match collect formActionExecutions .empty with
    | .error e => (.raised e, s)
    | .ok c =>
        match c.errors with
        | first :: rest =>
            match addValidations (first :: rest) ⟨[], []⟩ with
            | .error e => (.raised e, s)
            | .ok shown =>
                (.form first.formData shown.messages,
                  (s.error first.error).setCurrent (some formExecution))
        | [] =>
            let s := c.successes.foldl (fun s id => s.call (.success id)) s
            let s := c.executionStatus.foldl
              (fun s entry => s.setExecutionStatus entry.1 entry.2) s
            let s := c.requiredActions.foldl (fun s id => s.call (.setRequiredActions id)) s
            (.null, (s.setExecutionStatus actionExecution .success).setCurrent none)

/-! ## What a failed submission leaves alone -/

def validations : List FormActionExecution → List Validation
  | [] => []
  | x :: rest =>
      match x.process with
      | .error _ => []
      | .ok (.validated result) => result :: validations rest
      | .ok _ => validations rest

def failed (formActionExecutions : List FormActionExecution) : List Validation :=
  (validations formActionExecutions).filter fun v => ¬ v.success

section

variable {executions : List FormActionExecution} {c c' : Collected} {id : String}

theorem errors_add {verdict : Verdict} : (c.add id verdict).errors = match verdict with
    | .validated result => if result.success then c.errors else c.errors ++ [result]
    | _ => c.errors := by
  cases verdict with
  | skipped => rfl
  | setupRequired => rfl
  | validated result =>
      rw [Collected.add]
      dsimp only
      split
      · rfl
      · rfl

theorem errors_collect (h : collect executions c = .ok c') :
    c'.errors = c.errors ++ failed executions := by
  induction executions generalizing c with
  | nil =>
      cases h
      exact (List.append_nil _).symm
  | cons x rest ih =>
      rw [collect] at h
      split at h
      · cases h
      · rename_i verdict hverdict
        rw [ih h, errors_add]
        cases verdict with
        | skipped => rw [failed, failed, validations, hverdict]
        | setupRequired => rw [failed, failed, validations, hverdict]
        | validated result =>
            have hfailed : failed (x :: rest) =
                if result.success then failed rest else result :: failed rest := by
              rw [failed, validations, hverdict]
              dsimp only
              cases hsuccess : result.success with
              | true => rw [List.filter_cons_of_neg (by simp [hsuccess]), if_pos rfl, failed]
              | false =>
                  rw [List.filter_cons_of_pos (by simp [hsuccess]),
                    if_neg Bool.false_ne_true, failed]
            rw [hfailed]
            dsimp only
            split
            · rfl
            · rw [List.append_assoc, List.singleton_append]

theorem collect_ok_iff :
    (∃ c', collect executions c = .ok c') ↔
      ∀ x ∈ executions, ∃ verdict, x.process = .ok verdict := by
  induction executions generalizing c with
  | nil => exact iff_of_true ⟨c, rfl⟩ fun x hx => absurd hx List.not_mem_nil
  | cons x rest ih =>
      rw [List.forall_mem_cons]
      cases hprocess : x.process with
      | error e =>
          rw [collect, hprocess]
          exact iff_of_false nofun fun h => nomatch h.1
      | ok verdict =>
          rw [collect, hprocess]
          dsimp only
          rw [ih]
          exact (and_iff_right ⟨verdict, rfl⟩).symm

end

/-! ## Which messages are shown -/

def Validation.messages (v : Validation) : List FormMessage :=
  v.errors.getD []

def Validation.firstNew (v : Validation) (fields : List String) : Option FormMessage :=
  v.messages.find? fun m => m.field ∉ fields

def Validation.cover (fields : List String) (v : Validation) : List String :=
  if v.excludeOthers then ((v.firstNew fields).map fun m => [m.field]).getD fields
  else fields ++ v.messages.map (·.field)

def covered (failing : List Validation) : List String :=
  failing.foldl Validation.cover []

structure Validation.Sets (v : Validation) (before : List Validation) (m : FormMessage) : Prop where
  first : v.firstNew (covered before) = some m
  alone : v.excludeOthers ∨ covered before = [] ∧ ∀ x ∈ v.messages, x.field = m.field

/-- One of the validations makes `m` the only message, and those after it report nothing for
another field. -/
def ShowsOnly (failing : List Validation) (m : FormMessage) : Prop :=
  ∃ before v after, failing = before ++ v :: after ∧ v.Sets before m ∧
    ∀ u ∈ after, ∀ x ∈ u.messages, x.field = m.field

section

variable {failing : List Validation} {v : Validation} {m : FormMessage} {shown : Messages}

theorem covered_concat : covered (failing ++ [v]) = v.cover (covered failing) := by
  rw [covered, List.foldl_append]
  rfl

theorem showsOnly_concat : ShowsOnly (failing ++ [v]) m ↔
    v.Sets failing m ∨ ShowsOnly failing m ∧ ∀ x ∈ v.messages, x.field = m.field := by
  constructor
  · rintro ⟨before, u, after, hsplit, hsets, hafter⟩
    rcases List.eq_nil_or_concat after with rfl | ⟨after', last, rfl⟩
    · obtain ⟨rfl, hlast⟩ := List.append_inj' hsplit rfl
      cases hlast
      exact .inl hsets
    · have hsplit : failing ++ [v] = (before ++ u :: after') ++ [last] := by simpa using hsplit
      obtain ⟨rfl, hlast⟩ := List.append_inj' hsplit rfl
      cases hlast
      exact .inr ⟨⟨before, u, after', rfl, hsets, fun w hw =>
        hafter w (by simp [hw])⟩, hafter v (by simp)⟩
  · rintro (hsets | ⟨⟨before, u, after, rfl, hsets, hafter⟩, hv⟩)
    · exact ⟨failing, v, [], rfl, hsets, nofun⟩
    · refine ⟨before, u, after ++ [v], by simp, hsets, fun w hw => ?_⟩
      rcases List.mem_append.mp hw with hw | hw
      · exact hafter w hw
      · rw [List.mem_singleton] at hw
        subst hw
        exact hv

theorem addErrors_excluding (errors : List FormMessage) : addErrors true errors shown =
    ((errors.find? fun m => m.field ∉ shown.fields).map fun m => ⟨[m.field], [m]⟩).getD shown := by
  induction errors with
  | nil => rfl
  | cons x rest ih =>
      rw [addErrors, List.find?_cons]
      by_cases h : x.field ∈ shown.fields
      · rw [if_pos h, ih]
        simp [h]
      · rw [if_neg h, if_pos rfl]
        simp [h]

theorem mem_fields_addErrors (errors : List FormMessage) {f : String} :
    f ∈ (addErrors false errors shown).fields ↔
      f ∈ shown.fields ∨ f ∈ errors.map (·.field) := by
  induction errors generalizing shown with
  | nil => simp [addErrors]
  | cons x rest ih =>
      rw [addErrors]
      by_cases h : x.field ∈ shown.fields
      · rw [if_pos h, ih, List.map_cons, List.mem_cons]
        constructor
        · rintro (hf | hf)
          · exact .inl hf
          · exact .inr (.inr hf)
        · rintro (hf | rfl | hf)
          · exact .inl hf
          · exact .inl h
          · exact .inr hf
      · rw [if_neg h, if_neg Bool.false_ne_true, ih]
        simp [or_assoc]

theorem fields_addErrors (errors : List FormMessage)
    (hshown : shown.messages.map (·.field) = shown.fields) :
    (addErrors false errors shown).messages.map (·.field) =
      (addErrors false errors shown).fields := by
  induction errors generalizing shown with
  | nil => exact hshown
  | cons x rest ih =>
      rw [addErrors]
      split
      · exact ih hshown
      · rw [if_neg Bool.false_ne_true]
        exact ih (by simp [hshown])

/-- Once a message is shown, it stays the only one when nothing else is reported. -/
theorem messages_addErrors_cons (errors : List FormMessage) {rest : List FormMessage}
    {n : FormMessage} (hshown : shown.messages.map (·.field) = shown.fields)
    (hmessages : shown.messages = n :: rest) :
    (addErrors false errors shown).messages = [m] ↔
      shown.messages = [m] ∧ ∀ x ∈ errors, x.field = m.field := by
  induction errors generalizing shown rest with
  | nil => exact (and_iff_left nofun).symm
  | cons x errors ih =>
      rw [addErrors, List.forall_mem_cons]
      by_cases h : x.field ∈ shown.fields
      · rw [if_pos h, ih hshown hmessages]
        refine and_congr_right fun honly => (and_iff_right ?_).symm
        rw [← hshown, honly] at h
        exact List.mem_singleton.mp h
      · rw [if_neg h, if_neg Bool.false_ne_true]
        refine iff_of_false ?_ fun hright => h ?_
        · rw [ih (by simp [hshown]) (by rw [hmessages]; rfl), hmessages]
          simp
        · rw [← hshown, hright.1, hright.2.1]
          exact List.mem_cons_self

theorem messages_addErrors_nil (errors : List FormMessage) (hfields : shown.fields = [])
    (hmessages : shown.messages = []) :
    (addErrors false errors shown).messages = [m] ↔
      errors.head? = some m ∧ ∀ x ∈ errors, x.field = m.field := by
  cases errors with
  | nil => simp [addErrors, hmessages]
  | cons x rest =>
      rw [addErrors, hfields, hmessages, if_neg List.not_mem_nil, if_neg Bool.false_ne_true,
        messages_addErrors_cons rest rfl rfl, List.forall_mem_cons, List.head?_cons]
      simp only [List.nil_append, List.cons.injEq, and_true, Option.some.injEq]
      exact and_congr_right fun hx => (and_iff_right (congrArg FormMessage.field hx)).symm

structure Tracks (before : List Validation) (shown : Messages) : Prop where
  fields : ∀ f, f ∈ shown.fields ↔ f ∈ covered before
  own : shown.messages.map (·.field) = shown.fields
  only : ∀ m, shown.messages = [m] ↔ ShowsOnly before m

theorem Tracks.covered_eq_nil {before : List Validation} (h : Tracks before shown) :
    covered before = [] ↔ shown.messages = [] := by
  have hown : shown.messages = [] ↔ shown.fields = [] := by rw [← h.own, List.map_eq_nil_iff]
  rw [hown, List.eq_nil_iff_forall_not_mem, List.eq_nil_iff_forall_not_mem]
  exact forall_congr' fun f => not_congr (h.fields f).symm

theorem Tracks.firstNew_eq {before : List Validation} (h : Tracks before shown) :
    v.messages.find? (fun m => m.field ∉ shown.fields) = v.firstNew (covered before) := by
  rw [Validation.firstNew]
  congr 1
  funext m
  rw [decide_eq_decide]
  exact not_congr (h.fields m.field)

theorem Tracks.excluding {before : List Validation} (h : Tracks before shown)
    (hv : v.excludeOthers = true) :
    Tracks (before ++ [v]) (addErrors v.excludeOthers v.messages shown) := by
  rw [hv, addErrors_excluding, h.firstNew_eq]
  cases hfirst : v.firstNew (covered before) with
  | none =>
      have hcovered : covered (before ++ [v]) = covered before := by
        rw [covered_concat, Validation.cover, if_pos hv, hfirst]
        rfl
      refine ⟨fun f => hcovered ▸ h.fields f, h.own, fun m => ?_⟩
      rw [showsOnly_concat]
      constructor
      · intro honly
        have honly : shown.messages = [m] := honly
        refine .inr ⟨(h.only m).mp honly, fun x hx => ?_⟩
        have hold := List.find?_eq_none.mp hfirst x hx
        rw [decide_eq_true_eq, not_not, ← h.fields, ← h.own, honly] at hold
        exact List.mem_singleton.mp hold
      · rintro (hsets | ⟨honly, -⟩)
        · rw [hsets.first] at hfirst
          cases hfirst
        · exact (h.only m).mpr honly
  | some n =>
      have hcovered : covered (before ++ [v]) = [n.field] := by
        rw [covered_concat, Validation.cover, if_pos hv, hfirst]
        rfl
      refine ⟨fun f => by rw [hcovered]; rfl, rfl, fun m => ?_⟩
      rw [showsOnly_concat]
      constructor
      · intro honly
        cases honly
        exact .inl ⟨hfirst, .inl hv⟩
      · rintro (hsets | ⟨honly, hall⟩)
        · rw [hsets.first] at hfirst
          cases hfirst
          rfl
        · -- A field that is not shown yet differs from the one that is.
          have hnew := List.find?_some hfirst
          rw [decide_eq_true_eq, ← h.fields, ← h.own, (h.only m).mpr honly,
            hall n (List.mem_of_find?_eq_some hfirst)] at hnew
          exact absurd List.mem_cons_self hnew

theorem Tracks.adding {before : List Validation} (h : Tracks before shown)
    (hv : v.excludeOthers = false) :
    Tracks (before ++ [v]) (addErrors v.excludeOthers v.messages shown) := by
  have hcovered : covered (before ++ [v]) = covered before ++ v.messages.map (·.field) := by
    rw [covered_concat, Validation.cover, if_neg (by rw [hv]; exact Bool.false_ne_true)]
  rw [hv]
  refine ⟨fun f => ?_, fields_addErrors _ h.own, fun m => ?_⟩
  · rw [mem_fields_addErrors, hcovered, List.mem_append, h.fields]
  · rw [showsOnly_concat]
    cases hmessages : shown.messages with
    | nil =>
        have hnil := h.covered_eq_nil.mpr hmessages
        have hfields : shown.fields = [] := by
          rw [← h.own, hmessages]
          rfl
        have hhead : v.firstNew (covered before) = v.messages.head? := by
          rw [Validation.firstNew, hnil]
          cases v.messages with
          | nil => rfl
          | cons x rest => simp
        rw [messages_addErrors_nil _ hfields hmessages]
        constructor
        · rintro ⟨hfirst, hall⟩
          exact .inl ⟨hhead.trans hfirst, .inr ⟨hnil, hall⟩⟩
        · rintro (hsets | ⟨honly, -⟩)
          · refine ⟨hhead.symm.trans hsets.first, ?_⟩
            rcases hsets.alone with hexcl | ⟨-, hall⟩
            · rw [hv] at hexcl
              cases hexcl
            · exact hall
          · rw [← h.only, hmessages] at honly
            cases honly
    | cons n rest =>
        rw [messages_addErrors_cons _ h.own hmessages, h.only]
        refine (or_iff_right ?_).symm
        rintro ⟨-, hexcl | ⟨hnil, -⟩⟩
        · rw [hv] at hexcl
          cases hexcl
        · rw [h.covered_eq_nil, hmessages] at hnil
          cases hnil

theorem Tracks.add {before : List Validation} (h : Tracks before shown) :
    Tracks (before ++ [v]) (addErrors v.excludeOthers v.messages shown) := by
  cases hv : v.excludeOthers with
  | false => exact hv ▸ h.adding hv
  | true => exact hv ▸ h.excluding hv

theorem tracks_nil : Tracks [] ⟨[], []⟩ := by
  refine ⟨fun f => Iff.rfl, rfl, fun m => iff_of_false nofun ?_⟩
  rintro ⟨before, v, after, hsplit, -⟩
  cases before <;> cases hsplit

/-- Errors that are null end the rendering. -/
theorem addValidations_ok_iff : (∃ shown', addValidations failing shown = .ok shown') ↔
    ∀ v ∈ failing, ∃ errors, v.errors = some errors := by
  induction failing generalizing shown with
  | nil => exact iff_of_true ⟨shown, rfl⟩ nofun
  | cons v rest ih =>
      rw [addValidations, List.forall_mem_cons]
      cases herrors : v.errors with
      | none => exact iff_of_false nofun fun h => nomatch h.1
      | some errors =>
          dsimp only
          rw [ih]
          exact (and_iff_right ⟨errors, rfl⟩).symm

theorem Tracks.run {before : List Validation} {shown' : Messages} (h : Tracks before shown)
    (hrun : addValidations failing shown = .ok shown') : Tracks (before ++ failing) shown' := by
  induction failing generalizing before shown with
  | nil =>
      cases hrun
      rw [List.append_nil]
      exact h
  | cons v rest ih =>
      rw [addValidations] at hrun
      cases herrors : v.errors with
      | none =>
          rw [herrors] at hrun
          cases hrun
      | some errors =>
          rw [herrors] at hrun
          have hmessages : v.messages = errors := by
            rw [Validation.messages, herrors]
            rfl
          rw [← List.singleton_append, ← List.append_assoc]
          exact ih h.add (hmessages ▸ hrun)

end

/-! ## All or nothing -/

def Excluding (formActionExecutions : List FormActionExecution) : Prop :=
  ∃ v ∈ failed formActionExecutions, v.excludeOthers ∧ v.messages ≠ []

structure AllOrNothing (formExecution : String) (formActionExecutions : List FormActionExecution)
    (actionExecution : String) (s : State) : Prop where
  nothing : failed formActionExecutions ≠ [] →
    let s' := (processAction formExecution formActionExecutions actionExecution s).2
    s'.session.executionStatus = s.session.executionStatus ∧ s'.callbacks = s.callbacks
  one : actionExecution = formExecution → Excluding formActionExecutions → ∃ formData m,
    (processAction formExecution formActionExecutions actionExecution s).1 = .form formData [m] ∧
      ∃ v ∈ failed formActionExecutions, v.excludeOthers ∧ m ∈ v.messages

section

variable {formExecution actionExecution : String} {executions : List FormActionExecution}
  {s : State}

theorem processAction_nothing (h : failed executions ≠ []) :
    let s' := (processAction formExecution executions actionExecution s).2
    s'.session.executionStatus = s.session.executionStatus ∧ s'.callbacks = s.callbacks := by
  rw [processAction]
  split
  · exact ⟨rfl, rfl⟩
  · split
    · exact ⟨rfl, rfl⟩
    · rename_i c hcollect
      have herrors : c.errors = failed executions := errors_collect hcollect
      split
      · split
        · exact ⟨rfl, rfl⟩
        · exact ⟨rfl, rfl⟩
      · rename_i hnil
        exact absurd (herrors.symm.trans hnil) h

/-- A single message is rendered exactly when nothing throws and it is the only one shown. -/
theorem processAction_form_iff {m : FormMessage} (h : failed executions ≠ []) :
    (∃ formData, (processAction formExecution executions formExecution s).1 =
      .form formData [m]) ↔
    (∀ x ∈ executions, ∃ verdict, x.process = .ok verdict) ∧
      (∀ v ∈ failed executions, ∃ errors, v.errors = some errors) ∧
      ShowsOnly (failed executions) m := by
  have hvalidations : (∃ shown, addValidations (failed executions) ⟨[], []⟩ = .ok shown) ↔ _ :=
    addValidations_ok_iff
  rw [← collect_ok_iff (c := .empty), ← hvalidations, processAction,
    if_neg (not_not_intro rfl)]
  cases hcollect : collect executions .empty with
  | error e =>
      exact iff_of_false (fun ⟨_, hform⟩ => nomatch hform) fun ⟨⟨_, hok⟩, _⟩ => nomatch hok
  | ok c =>
      have herrors : c.errors = failed executions := errors_collect hcollect
      rw [← herrors] at h ⊢
      dsimp only
      cases hfailing : c.errors with
      | nil => exact absurd hfailing h
      | cons first rest =>
          dsimp only
          cases hshown : addValidations (first :: rest) ⟨[], []⟩ with
          | error e =>
              exact iff_of_false (fun ⟨_, hform⟩ => nomatch hform)
                fun ⟨_, ⟨_, hok⟩, _⟩ => nomatch hok
          | ok shown =>
              have htracks : Tracks (first :: rest) shown := tracks_nil.run hshown
              dsimp only
              rw [← htracks.only]
              constructor
              · rintro ⟨formData, hform⟩
                exact ⟨⟨c, rfl⟩, ⟨shown, rfl⟩, (Outcome.form.inj hform).2⟩
              · rintro ⟨-, -, honly⟩
                exact ⟨first.formData, by rw [honly]⟩

end

/-- A failed submission records nothing.  The message of an action that excludes others is the
only one exactly when no execution and no missing list of errors throws, some validation makes
a message of such an action the only one and the later ones report nothing for other fields. -/
theorem processAction_allOrNothing_iff (formExecution : String)
    (formActionExecutions : List FormActionExecution) (actionExecution : String) (s : State) :
    AllOrNothing formExecution formActionExecutions actionExecution s ↔
      (actionExecution = formExecution → Excluding formActionExecutions →
        (∀ x ∈ formActionExecutions, ∃ verdict, x.process = .ok verdict) ∧
        (∀ v ∈ failed formActionExecutions, ∃ errors, v.errors = some errors) ∧
        ∃ m, ShowsOnly (failed formActionExecutions) m ∧
          ∃ v ∈ failed formActionExecutions, v.excludeOthers ∧ m ∈ v.messages) := by
  have hnonempty (h : Excluding formActionExecutions) : failed formActionExecutions ≠ [] := by
    obtain ⟨v, hv, -⟩ := h
    exact List.ne_nil_of_mem hv
  constructor
  · rintro h rfl hexcl
    obtain ⟨formData, m, hform, hm⟩ := h.one rfl hexcl
    obtain ⟨hprocess, herrors, honly⟩ :=
      (processAction_form_iff (hnonempty hexcl)).mp ⟨formData, hform⟩
    exact ⟨hprocess, herrors, m, honly, hm⟩
  · intro h
    refine ⟨processAction_nothing, ?_⟩
    rintro rfl hexcl
    obtain ⟨hprocess, herrors, m, honly, hm⟩ := h rfl hexcl
    obtain ⟨formData, hform⟩ :=
      (processAction_form_iff (s := s) (hnonempty hexcl)).mpr ⟨hprocess, herrors, honly⟩
    exact ⟨formData, m, hform, hm⟩

/-- The validation of the recaptcha excludes other errors, that of the password comes later. -/
theorem later_message_is_shown : ¬ AllOrNothing "form"
    [⟨"recaptcha", .required, true, false, false, true, true,
        some ⟨false, some [], some [⟨"global", "recaptchaFailed", []⟩],
          some "invalid_registration", true⟩⟩,
      ⟨"password", .required, true, false, false, true, true,
        some ⟨false, some [], some [⟨"password", "missingPasswordMessage", []⟩],
          some "invalid_registration", false⟩⟩]
    "form" ⟨⟨fun _ => none, some "form"⟩, [], []⟩ := by
  intro h
  obtain ⟨formData, m, hform, -⟩ := h.one rfl ⟨_, List.mem_cons_self, rfl, List.cons_ne_nil _ _⟩
  cases hform

end Keycloak.FormAuthentication
