import Mathlib.Data.Finset.Card
import Mathlib.Data.Finset.Dedup
import Mathlib.Logic.Relation

/-!
# Walks with a queue of discovered nodes

A node is queued when it is met for the first time as a successor of another one.  The node
where the walk starts is queued without being met, so it is queued again if it is met later.
The walk yields its start and, once each, the nodes behind one or more edges.
-/

open Relation

namespace Worklist

variable {α : Type*}

section

variable [DecidableEq α]

/-- A node that has not been seen goes to the end of the queue. -/
def enqueue (s : List α × Finset α) (a : α) : List α × Finset α :=
  if a ∈ s.2 then s else (s.1 ++ [a], insert a s.2)

/-- The walk with its queue, the nodes that have been seen, and what it has yielded. -/
def walk (next : α → List α) : Nat → List α → Finset α → List α → Option (List α)
  | 0, _, _, _ => none
  | _ + 1, [], _, yielded => some yielded
  | fuel + 1, a :: queue, seen, yielded =>
      let s := (next a).foldl enqueue (queue, seen)
      walk next fuel s.1 s.2 (yielded ++ [a])

end

section

variable (next : α → List α) (start : α)

def Edge (a b : α) : Prop := b ∈ next a

/-- The invariant of the rounds: what is yielded or queued is the start, and then every node
that has been seen. -/
structure Walked (queue : List α) (seen : Finset α) (yielded found : List α) : Prop where
  order : yielded ++ queue = start :: found
  nodup : found.Nodup
  mem_found : ∀ a, a ∈ found ↔ a ∈ seen
  reached : ∀ a ∈ seen, TransGen (Edge next) start a
  closed : ∀ a ∈ yielded, ∀ b ∈ next a, b ∈ seen

end

variable {next : α → List α} {start a : α} {queue yielded found : List α} {seen : Finset α}

theorem Walked.begin : Walked next start [start] ∅ [] [] where
  order := rfl
  nodup := List.nodup_nil
  mem_found a := iff_of_false List.not_mem_nil (Finset.notMem_empty a)
  reached a ha := absurd ha (Finset.notMem_empty a)
  closed _ ha := absurd ha List.not_mem_nil

theorem Walked.reach_queue (h : Walked next start queue seen yielded found) (ha : a ∈ queue) :
    ReflTransGen (Edge next) start a := by
  have hmem : a ∈ start :: found := h.order ▸ List.mem_append_right yielded ha
  rcases List.mem_cons.mp hmem with rfl | hfound
  · exact .refl
  · exact (h.reached a ((h.mem_found a).mp hfound)).to_reflTransGen

theorem Walked.mem_iff (h : Walked next start [] seen yielded found) (b : α) :
    b ∈ found ↔ TransGen (Edge next) start b := by
  have horder : yielded = start :: found := by
    rw [← h.order, List.append_nil]
  rw [h.mem_found]
  refine ⟨h.reached b, fun hreach => ?_⟩
  induction hreach with
  | single hedge => exact h.closed start (horder ▸ List.mem_cons_self) _ hedge
  | @tail c d _ hedge ih =>
      exact h.closed c (horder ▸ List.mem_cons_of_mem start ((h.mem_found c).mpr ih)) d hedge

variable {nodes : Finset α} {fuel : Nat}

theorem mem_of_reach (hnext : ∀ a ∈ nodes, ∀ b ∈ next a, b ∈ nodes) (hstart : start ∈ nodes)
    {b : α} (h : TransGen (Edge next) start b) : b ∈ nodes := by
  induction h with
  | single hedge => exact hnext start hstart _ hedge
  | tail _ hedge ih => exact hnext _ ih _ hedge

variable [DecidableEq α]

theorem foldl_enqueue (xs queue : List α) (seen : Finset α) :
    ∃ new : List α, xs.foldl enqueue (queue, seen) = (queue ++ new, seen ∪ new.toFinset) ∧
      new.Nodup ∧ ∀ a, a ∈ new ↔ a ∈ xs ∧ a ∉ seen := by
  induction xs generalizing queue seen with
  | nil => exact ⟨[], by simp, List.nodup_nil, by simp⟩
  | cons x xs ih =>
      rw [List.foldl_cons, enqueue]
      by_cases hx : x ∈ seen
      · obtain ⟨new, hfold, hnodup, hmem⟩ := ih queue seen
        refine ⟨new, by rw [if_pos hx, hfold], hnodup, fun a => ?_⟩
        rw [hmem, List.mem_cons]
        constructor
        · exact fun h => ⟨.inr h.1, h.2⟩
        · rintro ⟨rfl | ha, hnot⟩
          · exact absurd hx hnot
          · exact ⟨ha, hnot⟩
      · obtain ⟨new, hfold, hnodup, hmem⟩ := ih (queue ++ [x]) (insert x seen)
        have hfresh : x ∉ new := fun h => ((hmem x).mp h).2 (Finset.mem_insert_self x seen)
        refine ⟨x :: new, ?_, List.nodup_cons.mpr ⟨hfresh, hnodup⟩, fun a => ?_⟩
        · rw [if_neg hx, hfold, List.append_assoc, List.singleton_append, List.toFinset_cons,
            Finset.insert_union, Finset.union_insert]
        · rw [List.mem_cons, List.mem_cons, hmem, Finset.mem_insert]
          constructor
          · rintro (rfl | ⟨ha, hnot⟩)
            · exact ⟨.inl rfl, hx⟩
            · exact ⟨.inr ha, fun h => hnot (.inr h)⟩
          · rintro ⟨rfl | ha, hnot⟩
            · exact .inl rfl
            · by_cases heq : a = x
              · exact .inl heq
              · exact .inr ⟨ha, fun h => h.elim heq hnot⟩

theorem Walked.step (h : Walked next start (a :: queue) seen yielded found) :
    ∃ new : List α, (next a).foldl enqueue (queue, seen) = (queue ++ new, seen ∪ new.toFinset) ∧
      Walked next start (queue ++ new) (seen ∪ new.toFinset) (yielded ++ [a]) (found ++ new) := by
  obtain ⟨new, hfold, hnodup, hmem⟩ := foldl_enqueue (next a) queue seen
  refine ⟨new, hfold, ?_, ?_, fun b => ?_, fun b hb => ?_, fun b hb c hc => ?_⟩
  · have horder := congrArg (· ++ new) h.order
    simpa using horder
  · refine List.nodup_append.mpr ⟨h.nodup, hnodup, ?_⟩
    rintro b hb _ hb' rfl
    exact ((hmem b).mp hb').2 ((h.mem_found b).mp hb)
  · rw [List.mem_append, Finset.mem_union, List.mem_toFinset, h.mem_found]
  · rcases Finset.mem_union.mp hb with hold | hnew
    · exact h.reached b hold
    · have hedge : Edge next a b := ((hmem b).mp (List.mem_toFinset.mp hnew)).1
      exact TransGen.tail' (h.reach_queue List.mem_cons_self) hedge
  · rw [Finset.mem_union, List.mem_toFinset, hmem]
    rcases List.mem_append.mp hb with hold | hself
    · exact .inl (h.closed b hold c hc)
    · rw [List.mem_singleton.mp hself] at hc
      by_cases hseen : c ∈ seen
      · exact .inl hseen
      · exact .inr ⟨hc, hseen⟩

/-- No more nodes are yielded and queued than there are, and the start once more. -/
theorem Walked.length_le (hnext : ∀ a ∈ nodes, ∀ b ∈ next a, b ∈ nodes) (hstart : start ∈ nodes)
    (h : Walked next start queue seen yielded found) :
    yielded.length + queue.length ≤ nodes.card + 1 := by
  have hsubset : found.toFinset ⊆ nodes := by
    intro b hb
    exact mem_of_reach hnext hstart
      (h.reached b ((h.mem_found b).mp (List.mem_toFinset.mp hb)))
  have hcard := Finset.card_le_card hsubset
  rw [List.toFinset_card_of_nodup h.nodup] at hcard
  have hlength := congrArg List.length h.order
  rw [List.length_append, List.length_cons] at hlength
  omega

theorem Walked.walk_eq (hnext : ∀ a ∈ nodes, ∀ b ∈ next a, b ∈ nodes) (hstart : start ∈ nodes)
    (h : Walked next start queue seen yielded found)
    (hfuel : nodes.card + 1 < fuel + yielded.length) :
    ∃ found', walk next fuel queue seen yielded = some (start :: found') ∧ found'.Nodup ∧
      ∀ b, b ∈ found' ↔ TransGen (Edge next) start b := by
  have hlength := h.length_le hnext hstart
  induction fuel generalizing queue seen yielded found with
  | zero => omega
  | succ fuel ih =>
      cases queue with
      | nil =>
          refine ⟨found, ?_, h.nodup, h.mem_iff⟩
          rw [walk, ← h.order, List.append_nil]
      | cons a queue =>
          obtain ⟨new, hfold, hstep⟩ := h.step
          rw [walk, hfold]
          refine ih hstep ?_ (hstep.length_le hnext hstart)
          rw [List.length_append, List.length_singleton]
          omega

/-- The walk yields its start, and once each what can be reached in one or more steps. -/
theorem walk_spec (hnext : ∀ a ∈ nodes, ∀ b ∈ next a, b ∈ nodes) (hstart : start ∈ nodes)
    (hfuel : nodes.card + 1 < fuel) :
    ∃ found, walk next fuel [start] ∅ [] = some (start :: found) ∧ found.Nodup ∧
      ∀ b, b ∈ found ↔ TransGen (Edge next) start b :=
  Walked.begin.walk_eq hnext hstart (by simpa using hfuel)

end Worklist
