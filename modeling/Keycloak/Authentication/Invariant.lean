import Keycloak.Authentication.Flow

/-!
# The invariant of the authentication session

The levels of a flow are its own list of executions and those of its subflows. The engine walks
one level at a time and goes down into a subflow before it goes on, so what it knows about a
level is said about the executions that the walk has passed.

`Sound` is what holds of every session. Apart from the kinds of status an execution can have,
it is stated for runs in which no alternative subflow caught the exception of a restart: there
the walk goes on over a session that was emptied behind its back.
-/

namespace Keycloak.Authentication

/-! ## Levels -/

inductive Level : List Execution → List Execution → Prop where
  | here (xs : List Execution) : Level xs xs
  | inside {xs inner L : List Execution} {id : String} {requirement : Requirement} :
      Execution.flow id requirement inner ∈ xs → Level inner L → Level xs L

@[simp] theorem ids_authenticator (id : String) (requirement : Requirement)
    (factory : AuthenticatorFactory) :
    (Execution.authenticator id requirement factory).ids = [id] := by
  simp [Execution.ids]

@[simp] theorem ids_flow (id : String) (requirement : Requirement) (xs : List Execution) :
    (Execution.flow id requirement xs).ids = id :: idsOf xs := by
  simp [Execution.ids]

theorem id_mem_ids (x : Execution) : x.id ∈ x.ids := by
  cases x <;> simp [Execution.id]

theorem mem_idsOf {i : String} {xs : List Execution} : i ∈ idsOf xs ↔ ∃ x ∈ xs, i ∈ x.ids := by
  induction xs with
  | nil => simp [idsOf]
  | cons x rest ih => simp [idsOf, ih]

theorem id_mem_idsOf {x : Execution} {xs : List Execution} (h : x ∈ xs) : x.id ∈ idsOf xs :=
  mem_idsOf.mpr ⟨x, h, id_mem_ids x⟩

theorem mem_idsOf_flow {i id : String} {requirement : Requirement} {inner xs : List Execution}
    (hx : Execution.flow id requirement inner ∈ xs) (hi : i ∈ idsOf inner) : i ∈ idsOf xs :=
  mem_idsOf.mpr ⟨_, hx, by simp [hi]⟩

theorem nodup_ids {x : Execution} {xs : List Execution} (hnodup : (idsOf xs).Nodup)
    (hx : x ∈ xs) : x.ids.Nodup := by
  induction xs with
  | nil => cases hx
  | cons y rest ih =>
      rw [idsOf] at hnodup
      rcases List.mem_cons.mp hx with rfl | hx
      · exact hnodup.of_append_left
      · exact ih hnodup.of_append_right hx

theorem nodup_flow {id : String} {requirement : Requirement} {inner xs : List Execution}
    (hnodup : (idsOf xs).Nodup) (hx : Execution.flow id requirement inner ∈ xs) :
    id ∉ idsOf inner ∧ (idsOf inner).Nodup := by
  have h := nodup_ids hnodup hx
  rw [ids_flow] at h
  exact List.nodup_cons.mp h

theorem eq_of_mem_ids {x y : Execution} {xs : List Execution} {i : String}
    (hnodup : (idsOf xs).Nodup) (hx : x ∈ xs) (hy : y ∈ xs) (hix : i ∈ x.ids)
    (hiy : i ∈ y.ids) : x = y := by
  induction xs with
  | nil => cases hx
  | cons z rest ih =>
      rw [idsOf] at hnodup
      have hdisjoint := List.disjoint_of_nodup_append hnodup
      rcases List.mem_cons.mp hx with rfl | hxr
      · rcases List.mem_cons.mp hy with rfl | hyr
        · rfl
        · exact (hdisjoint hix (mem_idsOf.mpr ⟨y, hyr, hiy⟩)).elim
      · rcases List.mem_cons.mp hy with rfl | hyr
        · exact (hdisjoint hiy (mem_idsOf.mpr ⟨x, hxr, hix⟩)).elim
        · exact ih hnodup.of_append_right hxr hyr

theorem noOptionalFlow_of_mem {id : String} {requirement : Requirement}
    {inner xs : List Execution} (h : noOptionalFlow xs = true)
    (hx : Execution.flow id requirement inner ∈ xs) : noOptionalFlow inner = true := by
  induction xs with
  | nil => cases hx
  | cons y rest ih =>
      rw [noOptionalFlow, Bool.and_eq_true] at h
      rcases List.mem_cons.mp hx with rfl | hx
      · have hflow := h.1
        rw [Execution.noOptionalFlow, Bool.and_eq_true] at hflow
        exact hflow.2
      · exact ih h.2 hx

namespace Level

variable {top L L' : List Execution} {x y : Execution}

theorem idsOf_subset (h : Level top L) {i : String} (hi : i ∈ idsOf L) : i ∈ idsOf top := by
  induction h with
  | here => exact hi
  | inside hx _ ih => exact mem_idsOf_flow hx (ih hi)

theorem nodup (h : Level top L) (hnodup : (idsOf top).Nodup) : (idsOf L).Nodup := by
  induction h with
  | here => exact hnodup
  | inside hx _ ih => exact ih (nodup_flow hnodup hx).2

theorem subflow {id : String} {requirement : Requirement} {inner : List Execution}
    (h : Level top L) (hx : Execution.flow id requirement inner ∈ L) : Level top inner := by
  induction h with
  | here => exact .inside hx (.here inner)
  | inside hy _ ih => exact .inside hy (ih hx)

theorem no_optional {id : String} {inner : List Execution} (h : Level top L)
    (hoptional : noOptionalFlow top = true) : Execution.flow id .optional inner ∉ L := by
  induction h with
  | here xs =>
      induction xs with
      | nil => simp
      | cons x rest ih =>
          rw [noOptionalFlow, Bool.and_eq_true] at hoptional
          rw [List.mem_cons, not_or]
          refine ⟨?_, ih hoptional.2⟩
          rintro rfl
          simp [Execution.noOptionalFlow] at hoptional
  | inside hx _ ih => exact ih (noOptionalFlow_of_mem hoptional hx)

theorem id_ne {id : String} {requirement : Requirement} {inner xs : List Execution}
    (hnodup : (idsOf xs).Nodup) (hflow : Execution.flow id requirement inner ∈ xs)
    (hL : Level inner L) (hx : x ∈ L) (hy : y ∈ xs) : x.id ≠ y.id := by
  intro heq
  have hinner : x.id ∈ idsOf inner := hL.idsOf_subset (id_mem_idsOf hx)
  have hsame : Execution.flow id requirement inner = y :=
    eq_of_mem_ids hnodup hflow hy (by simp [hinner]) (heq ▸ id_mem_ids y)
  subst hsame
  rw [heq] at hinner
  exact (nodup_flow hnodup hflow).1 hinner

/-- An identifier stands at one place of the tree. -/
theorem unique (hnodup : (idsOf top).Nodup) (hL : Level top L) (hL' : Level top L')
    (hx : x ∈ L) (hy : y ∈ L') (heq : x.id = y.id) : L = L' ∧ x = y := by
  induction hL with
  | here =>
      cases hL' with
      | here => exact ⟨rfl, eq_of_mem_ids hnodup hx hy (id_mem_ids x) (heq ▸ id_mem_ids y)⟩
      | inside hflow hL' => exact absurd heq.symm (id_ne hnodup hflow hL' hy hx)
  | inside hflow hL ih =>
      cases hL' with
      | here => exact absurd heq (id_ne hnodup hflow hL hx hy)
      | inside hflow' hL' =>
          have hi : x.id ∈ idsOf _ := hL.idsOf_subset (id_mem_idsOf hx)
          have hi' : y.id ∈ idsOf _ := hL'.idsOf_subset (id_mem_idsOf hy)
          have hsame := eq_of_mem_ids hnodup hflow hflow' (i := x.id) (by simp [hi])
            (by simp [heq, hi'])
          cases hsame
          exact ih (nodup_flow hnodup hflow).2 hL' hx

end Level

/-! ## Statuses -/

theorem status_setExecutionStatus (s : Processor) (i j : String) (status : ExecutionStatus) :
    (s.setExecutionStatus i status).status j = if j = i then some status else s.status j := by
  simp [Processor.status, Processor.setExecutionStatus, Function.update_apply]

@[simp] theorem status_set_self (s : Processor) (i : String) (status : ExecutionStatus) :
    (s.setExecutionStatus i status).status i = some status := by
  simp [status_setExecutionStatus]

theorem status_set_of_ne (s : Processor) {i j : String} (status : ExecutionStatus)
    (h : j ≠ i) : (s.setExecutionStatus i status).status j = s.status j := by
  simp [status_setExecutionStatus, h]

def AllowedStatus (x : Execution) (status : Option ExecutionStatus) : Prop :=
  (status = some .setupRequired → x.isAuthenticatorFlow = false ∧ x.isRequired = true) ∧
    (x.isRequired = true → status ≠ some .skipped ∧ status ≠ some .attempted)

def Done (status : String → Option ExecutionStatus) (x : Execution) : Prop :=
  status x.id = some .success ∨
    (x.isAuthenticatorFlow = false ∧ status x.id = some .setupRequired)

theorem Done.processed {status : String → Option ExecutionStatus} {x : Execution}
    (h : Done status x) : processedStatus (status x.id) = true := by
  rcases h with h | ⟨_, h⟩ <;> rw [h] <;> rfl

theorem AllowedStatus.done {status : String → Option ExecutionStatus} {x : Execution}
    (h : AllowedStatus x (status x.id)) (hrequired : x.isRequired = true)
    (hprocessed : processedStatus (status x.id) = true) : Done status x := by
  obtain ⟨hskipped, hattempted⟩ := h.2 hrequired
  cases hstatus : status x.id with
  | none =>
      rw [hstatus] at hprocessed
      cases hprocessed
  | some st =>
      cases st with
      | success => exact .inl hstatus
      | setupRequired => exact .inr ⟨(h.1 hstatus).1, hstatus⟩
      | skipped => exact absurd hstatus hskipped
      | attempted => exact absurd hstatus hattempted
      | failed | challenged =>
          rw [hstatus] at hprocessed
          cases hprocessed

mutual

/-- Every required execution of the list has been carried out, and so have those inside every
subflow that succeeded. -/
def RequiredDone (status : String → Option ExecutionStatus) : List Execution → Prop
  | [] => True
  | x :: rest => RequiredDoneAt status x ∧ RequiredDone status rest

def RequiredDoneAt (status : String → Option ExecutionStatus) : Execution → Prop
  | .authenticator id requirement _ =>
      requirement = .required → status id = some .success ∨ status id = some .setupRequired
  | .flow id requirement inner =>
      (requirement = .required → status id = some .success) ∧
        (status id = some .success → RequiredDone status inner)

end

/-- Some alternative of the list succeeded, or each of them was attempted in vain or is an
authenticator whose challenge was kept back. -/
def AlternativesSettled (status : String → Option ExecutionStatus) (setAside : List String)
    (xs : List Execution) : Prop :=
  (∃ x ∈ xs, x.isAlternative = true ∧ status x.id = some .success) ∨
    ∀ x ∈ xs, x.isAlternative = true → status x.id = some .attempted ∨
      (x.isAuthenticatorFlow = false ∧ processedStatus (status x.id) = false ∧ x.id ∈ setAside)

/-- What holds of the session and the trace at a call of `authenticationComplete`. -/
def CompletedSoundly (top : List Execution) (c : AuthenticationSession × Trace) : Prop :=
  c.2.caughtRestart = false →
    AlternativesSettled c.1.executionStatus c.2.setAside top ∧
      (c.2.unfinished = false → RequiredDone c.1.executionStatus top)

structure Sound (top : List Execution) (s : Processor) : Prop where
  allowed : ∀ L, Level top L → ∀ x ∈ L, AllowedStatus x (s.status x.id)
  /-- An alternative is only skipped for another one that succeeded. -/
  backed : s.trace.caughtRestart = false → ∀ L, Level top L → ∀ x ∈ L,
    x.isAlternative = true → s.status x.id = some .skipped →
      ∃ y ∈ L, y.isAlternative = true ∧ s.status y.id = some .success
  /-- A subflow that succeeded has its required executions behind it. -/
  closed : s.trace.caughtRestart = false → s.trace.unfinished = false → ∀ L, Level top L →
    ∀ id requirement inner, Execution.flow id requirement inner ∈ L →
      s.status id = some .success → ∀ y ∈ inner, y.isRequired = true → Done s.status y
  completed : ∀ c ∈ s.completions, CompletedSoundly top c

namespace Sound

variable {top L : List Execution} {x : Execution} {s t : Processor}

theorem congr (h : Sound top s) (hstatus : t.session.executionStatus = s.session.executionStatus)
    (hcaught : t.trace.caughtRestart = s.trace.caughtRestart)
    (hunfinished : t.trace.unfinished = s.trace.unfinished)
    (hcompletions : t.completions = s.completions) : Sound top t where
  allowed := by
    intro M hM y hy
    rw [Processor.status, hstatus]
    exact h.allowed M hM y hy
  backed := by
    intro hc
    simp only [Processor.status, hstatus]
    exact h.backed (hcaught ▸ hc)
  closed := by
    intro hc hu
    have hsame : t.status = s.status := funext fun i => by rw [Processor.status, hstatus]; rfl
    rw [hsame]
    exact h.closed (hcaught ▸ hc) (hunfinished ▸ hu)
  completed := by
    rw [hcompletions]
    exact h.completed

theorem of_caught (hallowed : ∀ L, Level top L → ∀ x ∈ L, AllowedStatus x (s.status x.id))
    (hcaught : s.trace.caughtRestart = true)
    (hcompleted : ∀ c ∈ s.completions, CompletedSoundly top c) : Sound top s where
  allowed := hallowed
  backed := by simp [hcaught]
  closed := by simp [hcaught]
  completed := hcompleted

theorem update (h : Sound top s) (i : String) (st : ExecutionStatus)
    (hallowed : ∀ L, Level top L → ∀ x ∈ L, x.id = i → AllowedStatus x (some st))
    (hfresh : s.trace.caughtRestart = false → processedStatus (s.status i) = false)
    (hskip : s.trace.caughtRestart = false → st = .skipped → ∀ L, Level top L → ∀ x ∈ L,
      x.id = i → x.isAlternative = true →
        ∃ y ∈ L, y.isAlternative = true ∧ s.status y.id = some .success)
    (hsuccess : s.trace.caughtRestart = false → st = .success → ∀ L, Level top L →
      ∀ requirement inner, Execution.flow i requirement inner ∈ L →
        ∀ y ∈ inner, y.isRequired = true → Done s.status y) :
    Sound top (s.setExecutionStatus i st) where
  allowed := by
    intro L hL x hx
    by_cases heq : x.id = i
    · rw [heq, status_set_self]
      exact hallowed L hL x hx heq
    · rw [status_set_of_ne s st heq]
      exact h.allowed L hL x hx
  backed := by
    intro hcaught L hL x hx halternative hskipped
    have hfresh := hfresh hcaught
    have hbacked : ∃ y ∈ L, y.isAlternative = true ∧ s.status y.id = some .success := by
      by_cases heq : x.id = i
      · rw [heq, status_set_self] at hskipped
        exact hskip hcaught (Option.some.inj hskipped) L hL x hx heq halternative
      · rw [status_set_of_ne s st heq] at hskipped
        exact h.backed hcaught L hL x hx halternative hskipped
    obtain ⟨y, hy, hyalternative, hstatus⟩ := hbacked
    -- The alternative that succeeded is not the one that is written.
    have hne : y.id ≠ i := by
      intro heq
      rw [heq] at hstatus
      rw [hstatus] at hfresh
      cases hfresh
    exact ⟨y, hy, hyalternative, (status_set_of_ne s st hne).trans hstatus⟩
  closed := by
    intro hcaught hunfinished L hL id requirement inner hflow hstatus y hy hrequired
    have hfresh := hfresh hcaught
    have hdone : Done s.status y := by
      by_cases heq : id = i
      · rw [heq, status_set_self] at hstatus
        exact hsuccess hcaught (Option.some.inj hstatus) L hL requirement inner (heq ▸ hflow) y
          hy hrequired
      · rw [status_set_of_ne s st heq] at hstatus
        exact h.closed hcaught hunfinished L hL id requirement inner hflow hstatus y hy hrequired
    have hne : y.id ≠ i := by
      intro heq
      have hprocessed := hdone.processed
      rw [heq, hfresh] at hprocessed
      cases hprocessed
    unfold Done
    rw [status_set_of_ne s st hne]
    exact hdone
  completed := h.completed

theorem write (hnodup : (idsOf top).Nodup) (h : Sound top s) (hL : Level top L) (hx : x ∈ L)
    {st : ExecutionStatus} (hallowed : AllowedStatus x (some st))
    (hfresh : s.trace.caughtRestart = false → processedStatus (s.status x.id) = false)
    (hskip : s.trace.caughtRestart = false → st = .skipped → x.isAlternative = true →
      ∃ y ∈ L, y.isAlternative = true ∧ s.status y.id = some .success)
    (hsuccess : s.trace.caughtRestart = false → st = .success → ∀ id requirement inner,
      x = .flow id requirement inner → ∀ y ∈ inner, y.isRequired = true → Done s.status y) :
    Sound top (s.setExecutionStatus x.id st) := by
  refine h.update x.id st ?_ hfresh ?_ ?_
  · intro M hM y hy heq
    obtain ⟨_, rfl⟩ := Level.unique hnodup hM hL hy hx heq
    exact hallowed
  · intro hcaught hst M hM y hy heq
    obtain ⟨rfl, rfl⟩ := Level.unique hnodup hM hL hy hx heq
    exact hskip hcaught hst
  · intro hcaught hst M hM requirement inner hflow
    obtain ⟨_, hsame⟩ := Level.unique hnodup hM hL hflow hx rfl
    exact hsuccess hcaught hst x.id requirement inner hsame.symm

theorem challenge (h : Sound top s) (i : String)
    (hfresh : s.trace.caughtRestart = false → processedStatus (s.status i) = false) :
    Sound top (s.setExecutionStatus i .challenged) :=
  h.update i .challenged (fun _ _ _ _ _ => by simp [AllowedStatus]) hfresh
    (by simp) (by simp)

end Sound

end Keycloak.Authentication
