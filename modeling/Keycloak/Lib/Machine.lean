import Mathlib.Data.List.Basic
import Mathlib.Order.Basic

/-!
# Labelled machines and the invariants of their runs

A machine is a partial step function on states; a label that is not enabled in a
state has no successor.  A run is a list of labels, so an interleaving of several
parties is nothing but the order in which their labels stand in that list.

`Meets` restricts a run to steps that satisfy a condition on the state before the
step and its label.  The invariant rule below is stated once, for runs restricted
in this way; an unrestricted run takes the trivial condition.
-/

namespace Machine

variable {σ α : Type*}

/-- The state reached by a list of labels, if every one of them is enabled. -/
def run (step : σ → α → Option σ) : σ → List α → Option σ
  | s, [] => some s
  | s, a :: rest => (step s a).bind fun t => run step t rest

/-- Every step of the run starts in a state that meets `ok` for its label. -/
def Meets (step : σ → α → Option σ) (ok : σ → α → Prop) : σ → List α → Prop
  | _, [] => True
  | s, a :: rest => ok s a ∧ ∀ t, step s a = some t → Meets step ok t rest

theorem run_cons (step : σ → α → Option σ) (s : σ) (a : α) (rest : List α) :
    run step s (a :: rest) = (step s a).bind fun t => run step t rest := rfl

theorem run_cons_eq_some {step : σ → α → Option σ} {s t : σ} {a : α} {rest : List α} :
    run step s (a :: rest) = some t ↔ ∃ m, step s a = some m ∧ run step m rest = some t := by
  rw [run_cons, Option.bind_eq_some_iff]

theorem run_append_eq_some {step : σ → α → Option σ} {s t : σ} {pre post : List α} :
    run step s (pre ++ post) = some t ↔
      ∃ m, run step s pre = some m ∧ run step m post = some t := by
  induction pre generalizing s with
  | nil => simp [run]
  | cons a rest ih =>
      rw [List.cons_append, run_cons_eq_some]
      constructor
      · rintro ⟨m, hm, hrest⟩
        obtain ⟨m', hm', hpost⟩ := ih.mp hrest
        exact ⟨m', run_cons_eq_some.mpr ⟨m, hm, hm'⟩, hpost⟩
      · rintro ⟨m', hm', hpost⟩
        obtain ⟨m, hm, hrest⟩ := run_cons_eq_some.mp hm'
        exact ⟨m, hm, ih.mpr ⟨m', hrest, hpost⟩⟩

theorem Meets.cons {step : σ → α → Option σ} {ok : σ → α → Prop} {s t : σ} {a : α}
    {rest : List α} (hok : ok s a) (hstep : step s a = some t) (hrest : Meets step ok t rest) :
    Meets step ok s (a :: rest) := by
  refine ⟨hok, fun t' ht' => ?_⟩
  rw [hstep, Option.some.injEq] at ht'
  exact ht' ▸ hrest

theorem Meets.of_forall {step : σ → α → Option σ} {ok : α → Prop} {labels : List α}
    (h : ∀ a ∈ labels, ok a) (s : σ) : Meets step (fun _ a => ok a) s labels := by
  induction labels generalizing s with
  | nil => trivial
  | cons a rest ih =>
      have hrest : ∀ b ∈ rest, ok b := fun b hb => h b (List.mem_cons_of_mem a hb)
      exact ⟨h a List.mem_cons_self, fun t _ => ih hrest t⟩

theorem Meets.and {step : σ → α → Option σ} {ok ok' : σ → α → Prop} {s : σ} {labels : List α}
    (h : Meets step ok s labels) (h' : Meets step ok' s labels) :
    Meets step (fun s a => ok s a ∧ ok' s a) s labels := by
  induction labels generalizing s with
  | nil => trivial
  | cons a rest ih => exact ⟨⟨h.1, h'.1⟩, fun t ht => ih (h.2 t ht) (h'.2 t ht)⟩

theorem meets_true (step : σ → α → Option σ) (s : σ) (labels : List α) :
    Meets step (fun _ _ => True) s labels := by
  induction labels generalizing s with
  | nil => trivial
  | cons a rest ih => exact ⟨trivial, fun t _ => ih t⟩

/-- A property preserved by every step that meets `ok` holds at the end of every
run whose steps all meet `ok`. -/
theorem run_invariant {step : σ → α → Option σ} {ok : σ → α → Prop} {inv : σ → Prop}
    (hstep : ∀ s a t, inv s → ok s a → step s a = some t → inv t)
    {s t : σ} {labels : List α} (hs : inv s) (hok : Meets step ok s labels)
    (hrun : run step s labels = some t) : inv t := by
  induction labels generalizing s with
  | nil =>
      cases hrun
      exact hs
  | cons a rest ih =>
      obtain ⟨m, hm, hrest⟩ := run_cons_eq_some.mp hrun
      exact ih (hstep s a m hs hok.1 hm) (hok.2 m hm) hrest

/-- Steps that meet `ok` are enabled as long as the property holds, so the run gets to its end. -/
theorem exists_run {step : σ → α → Option σ} {ok : σ → α → Prop} {inv : σ → Prop}
    (hstep : ∀ s a, inv s → ok s a → ∃ t, step s a = some t ∧ inv t)
    {s : σ} {labels : List α} (hs : inv s) (hok : Meets step ok s labels) :
    ∃ t, run step s labels = some t ∧ inv t := by
  induction labels generalizing s with
  | nil => exact ⟨s, rfl, hs⟩
  | cons a rest ih =>
      obtain ⟨m, hm, hinv⟩ := hstep s a hs hok.1
      obtain ⟨t, hrun, ht⟩ := ih hinv (hok.2 m hm)
      exact ⟨t, run_cons_eq_some.mpr ⟨m, hm, hrun⟩, ht⟩

theorem Meets.of_prefix {step : σ → α → Option σ} {ok : σ → α → Prop} {s : σ}
    {pre labels : List α} (hpre : pre <+: labels) (h : Meets step ok s labels) :
    Meets step ok s pre := by
  induction pre generalizing s labels with
  | nil => trivial
  | cons a rest ih =>
      obtain ⟨post, rfl⟩ := hpre
      exact ⟨h.1, fun t ht => ih (List.prefix_append rest post) (h.2 t ht)⟩

theorem Meets.of_append {step : σ → α → Option σ} {ok : σ → α → Prop} {s t : σ}
    {pre post : List α} (h : Meets step ok s (pre ++ post)) (hpre : run step s pre = some t) :
    Meets step ok t post := by
  induction pre generalizing s with
  | nil =>
      cases hpre
      exact h
  | cons a rest ih =>
      obtain ⟨m, hm, hrest⟩ := run_cons_eq_some.mp hpre
      exact ih (h.2 m hm) hrest

/-- A value that no step takes back is not taken back by a run. -/
theorem run_monotone {β : Type*} [Preorder β] {step : σ → α → Option σ} {ok : σ → α → Prop}
    {inv : σ → Prop} {f : σ → β}
    (hstep : ∀ s a t, inv s → ok s a → step s a = some t → inv t ∧ f s ≤ f t)
    {s t : σ} {labels : List α} (hs : inv s) (hok : Meets step ok s labels)
    (hrun : run step s labels = some t) : f s ≤ f t := by
  induction labels generalizing s with
  | nil =>
      cases hrun
      exact le_refl _
  | cons a rest ih =>
      obtain ⟨m, hm, hrest⟩ := run_cons_eq_some.mp hrun
      obtain ⟨hinv, hle⟩ := hstep s a m hs hok.1 hm
      exact le_trans hle (ih hinv (hok.2 m hm) hrest)

/-- When a step that meets `ok` keeps `inv`, and one that does not leads out of `good`,
the states of a run are all `good` exactly if its steps all meet `ok`. -/
theorem meets_iff_forall_prefix {step : σ → α → Option σ} {ok : σ → α → Prop}
    (inv : σ → Prop) {good : σ → Prop} (hgood : ∀ s, inv s → good s)
    (hkeep : ∀ s a t, inv s → ok s a → step s a = some t → inv t)
    (hbreak : ∀ s a, inv s → ¬ ok s a → ∃ t, step s a = some t ∧ ¬ good t)
    {s : σ} (hs : inv s) (labels : List α) :
    Meets step ok s labels ↔ ∀ pre t, pre <+: labels → run step s pre = some t → good t := by
  constructor
  · intro hmeets pre t hpre hrun
    exact hgood t (run_invariant hkeep hs (hmeets.of_prefix hpre) hrun)
  · intro hall
    induction labels generalizing s with
    | nil => trivial
    | cons a rest ih =>
        -- the state after the first step is one of those that `hall` is about
        have hnext : ∀ t, step s a = some t → ∀ pre t', pre <+: rest →
            run step t pre = some t' → good t' := by
          intro t ht pre t' hpre hrun
          refine hall (a :: pre) t' ((List.prefix_cons_inj a).mpr hpre) ?_
          exact run_cons_eq_some.mpr ⟨t, ht, hrun⟩
        have hok : ok s a := by
          by_contra hnot
          obtain ⟨t, ht, hbad⟩ := hbreak s a hs hnot
          exact hbad (hnext t ht [] t List.nil_prefix rfl)
        exact ⟨hok, fun t ht => ih (hkeep s a t hs hok ht) (hnext t ht)⟩

/-- The unrestricted case: every step preserves the property. -/
theorem run_invariant_all {step : σ → α → Option σ} {inv : σ → Prop}
    (hstep : ∀ s a t, inv s → step s a = some t → inv t)
    {s t : σ} {labels : List α} (hs : inv s) (hrun : run step s labels = some t) : inv t :=
  run_invariant (fun s a t hinv _ h => hstep s a t hinv h) hs
    (meets_true step s labels) hrun

/-- A property that every step keeps or ends in `goal` holds at the end of the run,
unless `goal` was reached on the way. -/
theorem run_unless {step : σ → α → Option σ} {ok : σ → α → Prop} {keep goal : σ → Prop}
    (hstep : ∀ s a t, keep s → ok s a → step s a = some t → keep t ∨ goal t)
    {s t : σ} {labels : List α} (hs : keep s) (hok : Meets step ok s labels)
    (hrun : run step s labels = some t) :
    keep t ∨ ∃ pre post m, labels = pre ++ post ∧ run step s pre = some m ∧ goal m := by
  induction labels generalizing s with
  | nil =>
      cases hrun
      exact .inl hs
  | cons a rest ih =>
      obtain ⟨m, hm, hrest⟩ := run_cons_eq_some.mp hrun
      rcases hstep s a m hs hok.1 hm with hkeep | hgoal
      · rcases ih hkeep (hok.2 m hm) hrest with h | ⟨pre, post, m', rfl, hm', hgoal⟩
        · exact .inl h
        · exact .inr ⟨a :: pre, post, m', rfl, run_cons_eq_some.mpr ⟨m, hm, hm'⟩, hgoal⟩
      · exact .inr ⟨[a], rest, m, rfl, run_cons_eq_some.mpr ⟨m, hm, rfl⟩, hgoal⟩

/-- What was not so at the start of a run and is so at its end has a cause on the way. -/
theorem run_cause {step : σ → α → Option σ} {ok : σ → α → Prop} {inv effect : σ → Prop}
    {cause : σ → α → σ → Prop}
    (hstep : ∀ s a t, inv s → ok s a → step s a = some t →
      inv t ∧ (effect t → effect s ∨ cause s a t))
    {s t : σ} {labels : List α} (hs : inv s) (hnot : ¬ effect s) (hok : Meets step ok s labels)
    (hrun : run step s labels = some t) (heffect : effect t) :
    ∃ pre a post m m', labels = pre ++ a :: post ∧ run step s pre = some m ∧
      step m a = some m' ∧ cause m a m' := by
  induction labels generalizing s with
  | nil =>
      cases hrun
      exact absurd heffect hnot
  | cons a rest ih =>
      obtain ⟨m, hm, hrest⟩ := run_cons_eq_some.mp hrun
      obtain ⟨hinv, hcause⟩ := hstep s a m hs hok.1 hm
      by_cases hmeffect : effect m
      · exact ⟨[], a, rest, s, m, rfl, rfl, hm, (hcause hmeffect).resolve_left hnot⟩
      · obtain ⟨pre, b, post, m₁, m₂, rfl, hpre, hb, hcause⟩ := ih hinv hmeffect (hok.2 m hm) hrest
        exact ⟨a :: pre, b, post, m₁, m₂, rfl, run_cons_eq_some.mpr ⟨m, hm, hpre⟩, hb, hcause⟩

end Machine
