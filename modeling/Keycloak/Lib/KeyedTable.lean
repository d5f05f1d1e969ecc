import Mathlib.Order.Lattice
import Mathlib.Data.List.Pairwise

/-!
# Tables with a primary key

The rows of a table stand in the order of their keys and no key stands twice, so that a
query ordered by the key reads them as they are.  An insertion fails when the key is taken.

`attach` is the merge of a table with the rows that refer to it, when both are read in the
order of the key.
-/

structure KeyedTable {α κ : Type*} [LinearOrder κ] (key : α → κ) where
  rows : List α
  sorted : rows.Pairwise fun a b => key a < key b

namespace KeyedTable

variable {α β κ : Type*} [LinearOrder κ] {key : α → κ} {t t' : KeyedTable key} {a b : α} {k : κ}

instance : Membership α (KeyedTable key) := ⟨fun t a => a ∈ t.rows⟩

theorem mem_rows : a ∈ t.rows ↔ a ∈ t := Iff.rfl

theorem eq_of_key_eq (ha : a ∈ t) (hb : b ∈ t) (h : key a = key b) : a = b := by
  by_contra hne
  have hneq : t.rows.Pairwise fun a b => key a ≠ key b := t.sorted.imp ne_of_lt
  have : Std.Symm fun a b : α => key a ≠ key b := ⟨fun _ _ h => h.symm⟩
  exact hneq.forall ha hb hne h

/-! ## Queries -/

def empty : KeyedTable key := ⟨[], List.Pairwise.nil⟩

@[simp] theorem not_mem_empty : a ∉ (empty : KeyedTable key) := List.not_mem_nil

def find (t : KeyedTable key) (k : κ) : Option α := t.rows.find? fun a => key a = k

theorem find_eq_some : t.find k = some a ↔ a ∈ t ∧ key a = k := by
  unfold find
  refine ⟨fun h => ?_, ?_⟩
  · have hkey := List.find?_some h
    exact ⟨List.mem_of_find?_eq_some h, of_decide_eq_true hkey⟩
  · rintro ⟨ha, rfl⟩
    cases hfind : t.rows.find? (fun b => key b = key a) with
    | none =>
        have hnot := List.find?_eq_none.mp hfind a ha
        simp at hnot
    | some b =>
        have hkey := List.find?_some hfind
        rw [eq_of_key_eq (List.mem_of_find?_eq_some hfind) ha (of_decide_eq_true hkey)]

theorem find_eq_none : t.find k = none ↔ ∀ a ∈ t, key a ≠ k := by
  rw [find, List.find?_eq_none]
  simp [mem_rows]

/-! ## Changes -/

def filter (t : KeyedTable key) (p : α → Bool) : KeyedTable key :=
  ⟨t.rows.filter p, t.sorted.filter p⟩

@[simp] theorem mem_filter {p : α → Bool} : a ∈ t.filter p ↔ a ∈ t ∧ p a = true :=
  List.mem_filter

/-- An update of all rows that leaves their keys alone. -/
def update (t : KeyedTable key) (f : α → α) (hf : ∀ a, key (f a) = key a) : KeyedTable key :=
  ⟨t.rows.map f, List.pairwise_map.mpr (t.sorted.imp fun {a b} h => by rwa [hf a, hf b])⟩

@[simp] theorem mem_update {f : α → α} {hf : ∀ a, key (f a) = key a} :
    a ∈ t.update f hf ↔ ∃ b ∈ t, f b = a :=
  List.mem_map

/-- The place of a new row, before the first row with a larger key. -/
def insertRow (key : α → κ) (a : α) : List α → List α
  | [] => [a]
  | b :: rest => if key a < key b then a :: b :: rest else b :: insertRow key a rest

theorem mem_insertRow {rows : List α} : b ∈ insertRow key a rows ↔ b = a ∨ b ∈ rows := by
  induction rows with
  | nil => simp [insertRow]
  | cons c rest ih =>
      rw [insertRow]
      split
      · rw [List.mem_cons]
      · rw [List.mem_cons, ih, List.mem_cons]
        exact or_left_comm

theorem sorted_insertRow {rows : List α} (hsorted : rows.Pairwise fun a b => key a < key b)
    (hnew : ∀ b ∈ rows, key b ≠ key a) :
    (insertRow key a rows).Pairwise fun a b => key a < key b := by
  induction rows with
  | nil => exact List.pairwise_singleton _ a
  | cons c rest ih =>
      obtain ⟨hc, hrest⟩ := List.pairwise_cons.mp hsorted
      rw [insertRow]
      split
      · rename_i hlt
        refine List.pairwise_cons.mpr ⟨fun b hb => ?_, hsorted⟩
        rcases List.mem_cons.mp hb with rfl | hb
        · exact hlt
        · exact hlt.trans (hc b hb)
      · rename_i hlt
        have hca : key c < key a :=
          lt_of_le_of_ne (not_lt.mp hlt) (hnew c List.mem_cons_self)
        have hnew' : ∀ b ∈ rest, key b ≠ key a := fun b hb => hnew b (List.mem_cons_of_mem c hb)
        refine List.pairwise_cons.mpr ⟨fun b hb => ?_, ih hrest hnew'⟩
        rcases mem_insertRow.mp hb with rfl | hb
        · exact hca
        · exact hc b hb

def insert (t : KeyedTable key) (a : α) : Option (KeyedTable key) :=
  if h : ∀ b ∈ t.rows, key b ≠ key a then
    some ⟨insertRow key a t.rows, sorted_insertRow t.sorted h⟩
  else none

theorem insert_isSome : (t.insert a).isSome ↔ ∀ b ∈ t, key b ≠ key a := by
  unfold insert
  split
  · rename_i h
    exact iff_of_true rfl h
  · rename_i h
    exact iff_of_false Bool.false_ne_true h

theorem mem_of_insert (h : t.insert a = some t') : b ∈ t' ↔ b = a ∨ b ∈ t := by
  unfold insert at h
  split at h
  · cases h
    exact mem_insertRow
  · cases h

/-! ## Merging -/

/-- Each element with the references to it, which are taken off the front of those left. -/
def attach (key : α → κ) (ref : β → κ) : List α → List β → List (α × List β)
  | [], _ => []
  | a :: rest, refs =>
      (a, refs.takeWhile fun b => ref b = key a) ::
        attach key ref rest (refs.dropWhile fun b => ref b = key a)

theorem takeWhile_eq_filter {ref : β → κ} {refs : List β}
    (hsorted : refs.Pairwise fun b c => ref b ≤ ref c) (hle : ∀ b ∈ refs, k ≤ ref b) :
    (refs.takeWhile fun b => ref b = k) = refs.filter (fun b => ref b = k) ∧
      (refs.dropWhile fun b => ref b = k) = refs.filter fun b => ref b ≠ k := by
  induction refs with
  | nil => exact ⟨rfl, rfl⟩
  | cons b rest ih =>
      obtain ⟨hb, hrest⟩ := List.pairwise_cons.mp hsorted
      by_cases hk : ref b = k
      · obtain ⟨htake, hdrop⟩ := ih hrest fun c hc => hle c (List.mem_cons_of_mem b hc)
        simp [hk, htake, hdrop]
      · -- from here on every reference is to a larger key
        have hlt : k < ref b := lt_of_le_of_ne (hle b List.mem_cons_self) (Ne.symm hk)
        have hne : ∀ c ∈ rest, ref c ≠ k := fun c hc => ne_of_gt (hlt.trans_le (hb c hc))
        simp only [List.takeWhile_cons, List.dropWhile_cons, hk, decide_false, Bool.false_eq_true,
          if_false]
        constructor
        · symm
          rw [List.filter_eq_nil_iff]
          intro c hc
          rcases List.mem_cons.mp hc with rfl | hc
          · simpa using hk
          · simpa using hne c hc
        · symm
          rw [List.filter_eq_self]
          intro c hc
          rcases List.mem_cons.mp hc with rfl | hc
          · simpa using hk
          · simpa using hne c hc

/-- When both lists are in order and every reference is to an element, each element gets
exactly the references to it. -/
theorem attach_eq_map {ref : β → κ} {as : List α} {refs : List β}
    (has : as.Pairwise fun a b => key a < key b)
    (hrefs : refs.Pairwise fun b c => ref b ≤ ref c)
    (hmem : ∀ b ∈ refs, ∃ a ∈ as, key a = ref b) :
    attach key ref as refs = as.map fun a => (a, refs.filter fun b => ref b = key a) := by
  induction as generalizing refs with
  | nil => rfl
  | cons a rest ih =>
      obtain ⟨ha, hrest⟩ := List.pairwise_cons.mp has
      have hle : ∀ b ∈ refs, key a ≤ ref b := by
        intro b hb
        obtain ⟨c, hc, hcb⟩ := hmem b hb
        rcases List.mem_cons.mp hc with rfl | hc
        · exact hcb.le
        · exact hcb ▸ (ha c hc).le
      obtain ⟨htake, hdrop⟩ := takeWhile_eq_filter hrefs hle
      rw [attach, htake, hdrop, List.map_cons, ih hrest (hrefs.filter _)]
      · congr 1
        refine List.map_congr_left fun c hc => ?_
        rw [List.filter_filter]
        congr 1
        refine List.filter_congr fun b _ => ?_
        by_cases hbc : ref b = key c
        · simp [hbc, (ha c hc).ne']
        · simp [hbc]
      · intro b hb
        obtain ⟨hb, hne⟩ := List.mem_filter.mp hb
        obtain ⟨c, hc, hcb⟩ := hmem b hb
        rcases List.mem_cons.mp hc with rfl | hc
        · exact absurd hcb.symm (by simpa using hne)
        · exact ⟨c, hc, hcb⟩

end KeyedTable
