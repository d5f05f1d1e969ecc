import Mathlib.Data.List.Lookmap
import Mathlib.Data.List.Nodup

/-!
# Insertion-ordered maps

A map is the list of its entries, in the order in which the keys were first put.
`List.lookup` reads it; `alter` replaces the value of a key in place and appends an
entry when the key is new, so iteration follows first insertion.
-/

namespace LinkedMap

variable {K V : Type*} [DecidableEq K]

/-- The value of `k` becomes `f` of its present value, if it has one. -/
def alter (k : K) (f : Option V → V) : List (K × V) → List (K × V)
  | [] => [(k, f none)]
  | (k', v) :: rest => if k' = k then (k', f (some v)) :: rest else (k', v) :: alter k f rest

def keys (m : List (K × V)) : List K := m.map Prod.fst

omit [DecidableEq K] in
@[simp] theorem keys_nil : keys ([] : List (K × V)) = [] := rfl

omit [DecidableEq K] in
@[simp] theorem keys_cons (e : K × V) (m : List (K × V)) : keys (e :: m) = e.1 :: keys m := rfl

omit [DecidableEq K] in
@[simp] theorem keys_append (m m' : List (K × V)) : keys (m ++ m') = keys m ++ keys m' :=
  List.map_append

theorem mem_of_lookup {m : List (K × V)} {k : K} {v : V} (h : m.lookup k = some v) :
    (k, v) ∈ m := by
  induction m with
  | nil => simp at h
  | cons e rest ih =>
      rw [List.lookup_cons] at h
      split at h
      · rename_i heq
        have hk : k = e.1 := by simpa using heq
        cases h
        subst hk
        exact List.mem_cons_self
      · exact List.mem_cons_of_mem e (ih h)

theorem lookup_of_mem {m : List (K × V)} (hnodup : (keys m).Nodup) {k : K} {v : V}
    (h : (k, v) ∈ m) : m.lookup k = some v := by
  induction m with
  | nil => simp at h
  | cons e rest ih =>
      rw [keys_cons, List.nodup_cons] at hnodup
      rcases List.mem_cons.mp h with rfl | hrest
      · simp
      · have hne : k ≠ e.1 := by
          rintro rfl
          exact hnodup.1 (List.mem_map.mpr ⟨(e.1, v), hrest, rfl⟩)
        have hbeq : (k == e.1) = false := by simpa using hne
        rw [List.lookup_cons, hbeq]
        exact ih hnodup.2 hrest

@[simp] theorem lookup_alter_self (k : K) (f : Option V → V) (m : List (K × V)) :
    (alter k f m).lookup k = some (f (m.lookup k)) := by
  induction m with
  | nil => simp [alter]
  | cons e rest ih =>
      obtain ⟨k', v⟩ := e
      by_cases h : k' = k
      · subst h
        simp [alter]
      · have hbeq : (k == k') = false := by simpa using fun heq => h heq.symm
        simp [alter, h, List.lookup_cons, hbeq, ih]

theorem lookup_alter_of_ne {k k' : K} (hne : k' ≠ k) (f : Option V → V) (m : List (K × V)) :
    (alter k f m).lookup k' = m.lookup k' := by
  induction m with
  | nil =>
      have hbeq : (k' == k) = false := by simpa using hne
      simp [alter, List.lookup_cons, hbeq]
  | cons e rest ih =>
      obtain ⟨k₀, v⟩ := e
      by_cases h : k₀ = k
      · subst h
        have hbeq : (k' == k₀) = false := by simpa using hne
        simp [alter, List.lookup_cons, hbeq]
      · simp only [alter, h, if_false, List.lookup_cons, ih]

theorem alter_alter (k : K) (f g : Option V → V) (m : List (K × V)) :
    alter k f (alter k g m) = alter k (fun v => f (some (g v))) m := by
  induction m with
  | nil => simp [alter]
  | cons e rest ih =>
      obtain ⟨k', v⟩ := e
      by_cases h : k' = k
      · simp [alter, h]
      · simp [alter, h, ih]

theorem alter_of_not_mem {k : K} {m : List (K × V)} (h : k ∉ keys m) (f : Option V → V) :
    alter k f m = m ++ [(k, f none)] := by
  induction m with
  | nil => rfl
  | cons e rest ih =>
      obtain ⟨k', v⟩ := e
      simp only [keys_cons, List.mem_cons, not_or] at h
      have hne : k' ≠ k := fun heq => h.1 heq.symm
      simp [alter, hne, ih h.2]

/-- The entries in front of the one for the key stay as they are. -/
theorem alter_append {k : K} {m : List (K × V)} (h : k ∉ keys m) (f : Option V → V)
    (v : Option V) :
    alter k f (m ++ (v.map (k, ·)).toList) = m ++ [(k, f v)] := by
  induction m with
  | nil => cases v <;> simp [alter]
  | cons e rest ih =>
      obtain ⟨k', v'⟩ := e
      simp only [keys_cons, List.mem_cons, not_or] at h
      have hne : k' ≠ k := fun heq => h.1 heq.symm
      simp [alter, hne, ih h.2]

theorem lookup_append {k : K} {m : List (K × V)} (h : k ∉ keys m) (v : Option V) :
    (m ++ (v.map (k, ·)).toList).lookup k = v := by
  have hnone : m.lookup k = none := List.lookup_eq_none_iff.mpr fun e he => by
    simpa using fun heq : k = e.1 => h (heq ▸ List.mem_map_of_mem he)
  rw [List.lookup_append, hnone, Option.none_or]
  cases v <;> simp

theorem alter_of_lookup {k : K} {m : List (K × V)} {v : V} (h : m.lookup k = some v) :
    ∃ before after, m = before ++ (k, v) :: after ∧
      ∀ f : Option V → V, alter k f m = before ++ (k, f (some v)) :: after := by
  induction m with
  | nil => simp at h
  | cons e rest ih =>
      obtain ⟨k', v'⟩ := e
      by_cases hk : k' = k
      · subst hk
        have hv : v' = v := by simpa [List.lookup_cons] using h
        subst hv
        exact ⟨[], rest, rfl, fun f => by simp [alter]⟩
      · have hbeq : (k == k') = false := by simpa using fun heq => hk heq.symm
        rw [List.lookup_cons, hbeq] at h
        obtain ⟨before, after, hm, halter⟩ := ih h
        exact ⟨(k', v') :: before, after, by rw [hm]; rfl,
          fun f => by simp [alter, hk, halter]⟩

theorem not_mem_keys_of_lookup {k : K} {m : List (K × V)} (h : m.lookup k = none) :
    k ∉ keys m := by
  intro hmem
  obtain ⟨⟨k', v⟩, hentry, rfl⟩ := List.mem_map.mp hmem
  rw [List.lookup_eq_none_iff] at h
  simpa using h (k', v) hentry

theorem alter_eq_self {k : K} {m : List (K × V)} {v : V} (h : m.lookup k = some v)
    {f : Option V → V} (hf : f (some v) = v) : alter k f m = m := by
  induction m with
  | nil => simp at h
  | cons e rest ih =>
      obtain ⟨k', v'⟩ := e
      by_cases hk : k' = k
      · subst hk
        have hv : v' = v := by simpa [List.lookup_cons] using h
        subst hv
        simp [alter, hf]
      · have hbeq : (k == k') = false := by simpa using fun heq => hk heq.symm
        rw [List.lookup_cons, hbeq] at h
        simp [alter, hk, ih h]

theorem nodup_keys_alter {k : K} {m : List (K × V)} (h : (keys m).Nodup) (f : Option V → V) :
    (keys (alter k f m)).Nodup := by
  cases hlookup : m.lookup k with
  | none =>
      have hnew := not_mem_keys_of_lookup hlookup
      rw [alter_of_not_mem hnew, keys_append, List.nodup_append]
      refine ⟨h, List.nodup_singleton k, fun k₁ hk₁ k₂ hk₂ => ?_⟩
      rw [List.mem_singleton.mp hk₂]
      rintro rfl
      exact hnew hk₁
  | some v =>
      obtain ⟨before, after, heq, halter⟩ := alter_of_lookup hlookup
      rw [heq, keys_append, keys_cons] at h
      rw [halter, keys_append, keys_cons]
      exact h

theorem mem_keys_alter {k k' : K} {f : Option V → V} {m : List (K × V)} :
    k' ∈ keys (alter k f m) ↔ k' ∈ keys m ∨ k' = k := by
  induction m with
  | nil => simp [alter]
  | cons e rest ih =>
      obtain ⟨k₀, v⟩ := e
      by_cases h : k₀ = k
      · subst h
        simp only [alter, if_true, keys_cons, List.mem_cons]
        tauto
      · simp only [alter, h, if_false, keys_cons, List.mem_cons, ih, or_assoc]

theorem mem_alter {k : K} {f : Option V → V} {m : List (K × V)} {e : K × V}
    (h : e ∈ alter k f m) : e ∈ m ∨ e = (k, f (m.lookup k)) := by
  cases hlookup : m.lookup k with
  | none =>
      rw [alter_of_not_mem (not_mem_keys_of_lookup hlookup)] at h
      simpa using h
  | some v =>
      obtain ⟨before, after, heq, halter⟩ := alter_of_lookup hlookup
      rw [halter] at h
      rw [heq]
      simp only [List.mem_append, List.mem_cons] at h ⊢
      rcases h with h | h | h
      · exact .inl (.inl h)
      · exact .inr h
      · exact .inl (.inr (.inr h))

theorem mem_alter_of_nodup {k : K} {f : Option V → V} {m : List (K × V)} (h : (keys m).Nodup)
    {k' : K} {v : V} (hmem : (k', v) ∈ alter k f m) :
    if k' = k then v = f (m.lookup k) else (k', v) ∈ m := by
  split
  · rename_i heq
    subst heq
    have hlookup := lookup_of_mem (nodup_keys_alter h f) hmem
    rw [lookup_alter_self] at hlookup
    exact (Option.some.inj hlookup).symm
  · rename_i hne
    exact (mem_alter hmem).resolve_right fun heq => hne (Prod.mk.inj heq).1

theorem alter_ne_nil (k : K) (f : Option V → V) (m : List (K × V)) :
    alter k f m ≠ [] := by
  cases m with
  | nil => exact List.cons_ne_nil _ _
  | cons e rest =>
      rw [alter]
      split
      · exact List.cons_ne_nil _ _
      · exact List.cons_ne_nil _ _

/-- What holds of the entries of a map, and of the new value of a key, holds after it is put. -/
theorem forall_mem_alter {k : K} {f : Option V → V}
    {m : List (K × V)} {P : K × V → Prop} (h : ∀ e ∈ m, P e)
    (hf : ∀ found, (∀ v, found = some v → P (k, v)) → P (k, f found)) :
    ∀ e ∈ alter k f m, P e := by
  induction m with
  | nil =>
      intro e he
      rw [alter, List.mem_singleton] at he
      rw [he]
      exact hf none fun v hv => by cases hv
  | cons e rest ih =>
      have hrest := ih fun e' he' => h e' (List.mem_cons_of_mem e he')
      have he := h e List.mem_cons_self
      rw [alter]
      intro e' he'
      split at he'
      · rename_i heq
        rcases List.mem_cons.mp he' with rfl | hmem
        · rw [heq]
          refine hf (some e.2) fun v hv => ?_
          cases hv
          rw [← heq]
          exact he
        · exact h e' (List.mem_cons_of_mem e hmem)
      · rcases List.mem_cons.mp he' with rfl | hmem
        · exact he
        · exact hrest e' hmem

end LinkedMap
