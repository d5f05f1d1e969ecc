import Mathlib.Data.Finset.Card
import Mathlib.Logic.Relation

/-!
# Depth-first searches with a visited set

The state of a search says which nodes have been seen; what else it holds is left open.  A
search may stop at some nodes and does not look below these.

Every node that is entered is marked, so the recursion is no deeper than there are nodes.
A search sees what can be reached from its roots, except for what lies behind a node where it
stops.
-/

open Relation

/-- A search over finitely many nodes; marking a node makes this node seen and no other. -/
structure Search (σ α : Type*) where
  seen : σ → α → Bool
  mark : σ → α → σ
  stop : α → Bool
  next : α → List α
  nodes : Finset α
  next_mem : ∀ a ∈ nodes, ∀ b ∈ next a, b ∈ nodes
  seen_mark : ∀ s, ∀ a ∈ nodes, ∀ b, seen (mark s a) b = true ↔ b = a ∨ seen s b = true

namespace Search

variable {σ α : Type*} (S : Search σ α)

def visit : Nat → σ → α → Option σ
  | 0, _, _ => none
  | fuel + 1, s, a =>
      if S.seen s a then some s
      else if S.stop a then some (S.mark s a)
      else (S.next a).foldlM (visit fuel) (S.mark s a)

def visitAll (fuel : Nat) (s : σ) (roots : List α) : Option σ :=
  roots.foldlM (S.visit fuel) s

def Edge (a b : α) : Prop := b ∈ S.next a

def unseen (s : σ) : Finset α := S.nodes.filter fun a => S.seen s a = false

structure Covers (roots : List α) (s s' : σ) : Prop where
  kept : ∀ b, S.seen s b = true → S.seen s' b = true
  entered : ∀ a ∈ roots, S.seen s' a = true
  closed : ∀ a, S.seen s' a = true → S.seen s a = false → S.stop a = false →
    ∀ b ∈ S.next a, S.seen s' b = true
  reached : ∀ b, S.seen s' b = true → S.seen s b = false →
    ∃ a ∈ roots, ReflTransGen S.Edge a b

variable {S} {s s' s'' : σ} {a b : α} {rest roots : List α} {fuel : Nat}

namespace Covers

theorem nil : S.Covers [] s s where
  kept _ h := h
  entered _ h := nomatch h
  closed a h hnot := by
    rw [h] at hnot
    cases hnot
  reached b h hnot := by
    rw [h] at hnot
    cases hnot

theorem seen (h : S.seen s a = true) : S.Covers [a] s s where
  kept := nil.kept
  entered b hb := List.mem_singleton.mp hb ▸ h
  closed := nil.closed
  reached b hb hnot := by
    rw [hb] at hnot
    cases hnot

theorem stopped (ha : a ∈ S.nodes) (hstop : S.stop a = true) : S.Covers [a] s (S.mark s a) where
  kept b h := (S.seen_mark s a ha b).mpr (.inr h)
  entered b hb := (S.seen_mark s a ha b).mpr (.inl (List.mem_singleton.mp hb))
  closed b h hnot hgo := by
    rcases (S.seen_mark s a ha b).mp h with rfl | hold
    · rw [hstop] at hgo
      cases hgo
    · rw [hold] at hnot
      cases hnot
  reached b h hnot := by
    rcases (S.seen_mark s a ha b).mp h with rfl | hold
    · exact ⟨b, List.mem_cons_self, .refl⟩
    · rw [hold] at hnot
      cases hnot

theorem node (ha : a ∈ S.nodes) (h : S.Covers (S.next a) (S.mark s a) s') :
    S.Covers [a] s s' where
  kept b hb := h.kept b ((S.seen_mark s a ha b).mpr (.inr hb))
  entered b hb := h.kept b ((S.seen_mark s a ha b).mpr (.inl (List.mem_singleton.mp hb)))
  closed b hb hnot hgo c hc := by
    cases hmark : S.seen (S.mark s a) b with
    | false => exact h.closed b hb hmark hgo c hc
    | true =>
        rcases (S.seen_mark s a ha b).mp hmark with rfl | hold
        · exact h.entered c hc
        · rw [hold] at hnot
          cases hnot
  reached b hb hnot := by
    cases hmark : S.seen (S.mark s a) b with
    | false =>
        obtain ⟨c, hc, hreach⟩ := h.reached b hb hmark
        exact ⟨a, List.mem_cons_self, .head hc hreach⟩
    | true =>
        rcases (S.seen_mark s a ha b).mp hmark with rfl | hold
        · exact ⟨b, List.mem_cons_self, .refl⟩
        · rw [hold] at hnot
          cases hnot

theorem cons (h : S.Covers [a] s s') (h' : S.Covers rest s' s'') :
    S.Covers (a :: rest) s s'' where
  kept b hb := h'.kept b (h.kept b hb)
  entered b hb := by
    rcases List.mem_cons.mp hb with rfl | hrest
    · exact h'.kept b (h.entered b List.mem_cons_self)
    · exact h'.entered b hrest
  closed b hb hnot hgo c hc := by
    cases hmiddle : S.seen s' b with
    | false => exact h'.closed b hb hmiddle hgo c hc
    | true => exact h'.kept c (h.closed b hmiddle hnot hgo c hc)
  reached b hb hnot := by
    cases hmiddle : S.seen s' b with
    | false =>
        obtain ⟨c, hc, hreach⟩ := h'.reached b hb hmiddle
        exact ⟨c, List.mem_cons_of_mem a hc, hreach⟩
    | true =>
        obtain ⟨c, hc, hreach⟩ := h.reached b hmiddle hnot
        exact ⟨c, List.mem_cons.mpr (.inl (List.mem_singleton.mp hc)), hreach⟩

theorem unseen_subset (h : S.Covers roots s s') : S.unseen s' ⊆ S.unseen s := by
  intro b hb
  obtain ⟨hnode, hnot⟩ := Finset.mem_filter.mp hb
  refine Finset.mem_filter.mpr ⟨hnode, ?_⟩
  cases hseen : S.seen s b with
  | false => rfl
  | true =>
      rw [h.kept b hseen] at hnot
      cases hnot

/-- Nothing that can be reached is missed, unless the search stops in front of it. -/
theorem complete (h : S.Covers roots s s') (hs : ∀ b, S.seen s b = false) {root : α}
    (hroot : root ∈ roots) (hreach : ReflTransGen S.Edge root b) :
    S.seen s' b = true ∨
      ∃ c, S.seen s' c = true ∧ S.stop c = true ∧ ReflTransGen S.Edge c b := by
  induction hreach with
  | refl => exact .inl (h.entered root hroot)
  | @tail c d _ hedge ih =>
      rcases ih with hseen | ⟨e, hseen, hstop, hreach⟩
      · cases hstop : S.stop c with
        | false => exact .inl (h.closed c hseen (hs c) hstop d hedge)
        | true => exact .inr ⟨c, hseen, hstop, .single hedge⟩
      · exact .inr ⟨e, hseen, hstop, hreach.tail hedge⟩

/-- A search that never stops sees what can be reached. -/
theorem seen_iff (h : S.Covers roots s s') (hs : ∀ b, S.seen s b = false)
    (hgo : ∀ a, S.stop a = false) :
    S.seen s' b = true ↔ ∃ a ∈ roots, ReflTransGen S.Edge a b := by
  constructor
  · intro hb
    exact h.reached b hb (hs b)
  · rintro ⟨a, ha, hreach⟩
    rcases h.complete hs ha hreach with hb | ⟨c, -, hstop, -⟩
    · exact hb
    · rw [hgo c] at hstop
      cases hstop

end Covers

theorem unseen_mark_ssubset (ha : a ∈ S.nodes) (hnot : S.seen s a = false) :
    S.unseen (S.mark s a) ⊂ S.unseen s := by
  have hnow : S.seen (S.mark s a) a = true := (S.seen_mark s a ha a).mpr (.inl rfl)
  refine Finset.ssubset_iff_subset_ne.mpr ⟨fun b hb => ?_, fun heq => ?_⟩
  · obtain ⟨hnode, hb⟩ := Finset.mem_filter.mp hb
    refine Finset.mem_filter.mpr ⟨hnode, ?_⟩
    cases hseen : S.seen s b with
    | false => rfl
    | true =>
        rw [(S.seen_mark s a ha b).mpr (.inr hseen)] at hb
        cases hb
  · have hmem : a ∈ S.unseen (S.mark s a) := heq ▸ Finset.mem_filter.mpr ⟨ha, hnot⟩
    rw [unseen, Finset.mem_filter, hnow] at hmem
    cases hmem.2

theorem visitAll_of_visit (hroots : ∀ a ∈ roots, a ∈ S.nodes)
    (hvisit : ∀ a ∈ S.nodes, ∀ s, (S.unseen s).card < fuel →
      ∃ s', S.visit fuel s a = some s' ∧ S.Covers [a] s s')
    (hfuel : (S.unseen s).card < fuel) :
    ∃ s', S.visitAll fuel s roots = some s' ∧ S.Covers roots s s' := by
  induction roots generalizing s with
  | nil => exact ⟨s, rfl, .nil⟩
  | cons a rest ih =>
      obtain ⟨ha, hrest⟩ := List.forall_mem_cons.mp hroots
      obtain ⟨s', hfirst, hcovers⟩ := hvisit a ha s hfuel
      have hcard := Finset.card_le_card hcovers.unseen_subset
      obtain ⟨s'', hloop, hcovers'⟩ := ih hrest (Nat.lt_of_le_of_lt hcard hfuel)
      refine ⟨s'', ?_, hcovers.cons hcovers'⟩
      rw [visitAll, List.foldlM_cons, hfirst]
      exact hloop

/-- With more fuel than unseen nodes the search ends. -/
theorem visit_covers (ha : a ∈ S.nodes) (hfuel : (S.unseen s).card < fuel) :
    ∃ s', S.visit fuel s a = some s' ∧ S.Covers [a] s s' := by
  induction fuel generalizing a s with
  | zero => omega
  | succ fuel ih =>
      rw [visit]
      cases hseen : S.seen s a with
      | true => exact ⟨s, rfl, .seen hseen⟩
      | false =>
          rw [if_neg Bool.false_ne_true]
          cases hstop : S.stop a with
          | true => exact ⟨S.mark s a, rfl, .stopped ha hstop⟩
          | false =>
              rw [if_neg Bool.false_ne_true]
              have hcard := Finset.card_lt_card (unseen_mark_ssubset ha hseen)
              obtain ⟨s', hloop, hcovers⟩ := visitAll_of_visit (S.next_mem a ha)
                (fun b hb s => ih hb) (show (S.unseen (S.mark s a)).card < fuel by omega)
              exact ⟨s', hloop, .node ha hcovers⟩

theorem visitAll_covers (hroots : ∀ a ∈ roots, a ∈ S.nodes)
    (hfuel : (S.unseen s).card < fuel) :
    ∃ s', S.visitAll fuel s roots = some s' ∧ S.Covers roots s s' :=
  visitAll_of_visit hroots (fun _ ha _ => visit_covers ha) hfuel

theorem card_unseen_le (s : σ) : (S.unseen s).card ≤ S.nodes.card :=
  Finset.card_le_card (Finset.filter_subset _ _)

theorem foldlM_invariant {β τ : Type*} {f : τ → β → Option τ} {I : τ → Prop} {bs : List β}
    (hstep : ∀ t, ∀ b ∈ bs, ∀ t', f t b = some t' → I t → I t') {t t' : τ}
    (h : bs.foldlM f t = some t') (ht : I t) : I t' := by
  induction bs generalizing t with
  | nil =>
      cases h
      exact ht
  | cons b rest ih =>
      rw [List.foldlM_cons, Option.bind_eq_bind, Option.bind_eq_some_iff] at h
      obtain ⟨middle, hfirst, hrest⟩ := h
      exact ih (fun t b hb => hstep t b (List.mem_cons_of_mem _ hb)) hrest
        (hstep t b List.mem_cons_self middle hfirst ht)

/-- What every marking keeps holds after the search. -/
theorem visit_invariant {I : σ → Prop} (hmark : ∀ s, ∀ a ∈ S.nodes, I s → I (S.mark s a))
    (ha : a ∈ S.nodes) (h : S.visit fuel s a = some s') (hs : I s) : I s' := by
  induction fuel generalizing a s s' with
  | zero => cases h
  | succ fuel ih =>
      rw [visit] at h
      split at h
      · cases h
        exact hs
      · split at h
        · cases h
          exact hmark s a ha hs
        · exact foldlM_invariant (fun t b hb t' hstep => ih (S.next_mem a ha b hb) hstep) h
            (hmark s a ha hs)

theorem visitAll_invariant {I : σ → Prop} (hmark : ∀ s, ∀ a ∈ S.nodes, I s → I (S.mark s a))
    (hroots : ∀ a ∈ roots, a ∈ S.nodes) (h : S.visitAll fuel s roots = some s') (hs : I s) :
    I s' :=
  foldlM_invariant (fun _ a ha _ => visit_invariant hmark (hroots a ha)) h hs

end Search
