import Mathlib.Data.List.DropRight

/-!
# Splitting a text at a separator

`String.split` of the source language for a pattern that is one character: a text
without the separator is its only piece, even when it is empty; otherwise the empty
pieces at the end are dropped, and those at the front or in the middle stay.
-/

namespace Split

variable {α : Type*} [BEq α] [LawfulBEq α]

def split (separator : α) (text : List α) : List (List α) :=
  if separator ∈ text then (text.splitOn separator).rdropWhile (·.isEmpty) else [text]

theorem split_of_not_mem {separator : α} {text : List α} (h : separator ∉ text) :
    split separator text = [text] := if_neg h

/-- Pieces joined by the separator are split into the same pieces, when none of them
holds the separator and the last is not empty. -/
theorem split_intercalate {separator : α} {pieces : List (List α)} (hne : pieces ≠ [])
    (hpieces : ∀ piece ∈ pieces, separator ∉ piece) (hlast : pieces.getLast hne ≠ []) :
    split separator ([separator].intercalate pieces) = pieces := by
  have hsplit := List.splitOn_intercalate separator hpieces hne
  unfold split
  split
  · rw [hsplit, List.rdropWhile_eq_self_iff]
    intro _
    simpa using hlast
  · rename_i hmem
    rw [List.splitOn_eq_singleton hmem] at hsplit
    exact hsplit

theorem not_mem_of_mem_splitOn {separator : α} {text piece : List α}
    (h : piece ∈ text.splitOn separator) : separator ∉ piece := by
  induction text generalizing piece with
  | nil =>
      rw [List.splitOn_nil, List.mem_singleton] at h
      exact h ▸ List.not_mem_nil
  | cons x text ih =>
      rw [List.splitOn_cons_eq_if_modifyHead] at h
      split at h
      · rcases List.mem_cons.mp h with rfl | h
        · exact List.not_mem_nil
        · exact ih h
      · rename_i hne
        obtain ⟨first, rest, heq⟩ := List.exists_cons_of_ne_nil (List.splitOn_ne_nil separator text)
        rw [heq, List.modifyHead_cons] at h
        rcases List.mem_cons.mp h with rfl | h
        · have hfirst : separator ∉ first := ih (heq ▸ List.mem_cons_self)
          rw [List.mem_cons, not_or]
          exact ⟨fun hx => hne (beq_iff_eq.mpr hx.symm), hfirst⟩
        · exact ih (heq ▸ List.mem_cons_of_mem first h)

/-- Each element is the separator or in a piece. -/
theorem exists_of_mem (separator : α) {x : α} {text : List α} (h : x ∈ text) :
    x = separator ∨ ∃ piece ∈ text.splitOn separator, x ∈ piece := by
  induction text with
  | nil => cases h
  | cons y text ih =>
      rw [List.splitOn_cons_eq_if_modifyHead]
      split
      · rename_i hy
        rcases List.mem_cons.mp h with rfl | h
        · exact .inl (beq_iff_eq.mp hy)
        · refine (ih h).imp_right fun ⟨piece, hpiece, hx⟩ => ⟨piece, ?_, hx⟩
          exact List.mem_cons_of_mem _ hpiece
      · obtain ⟨first, rest, heq⟩ := List.exists_cons_of_ne_nil (List.splitOn_ne_nil separator text)
        rw [heq] at ih ⊢
        rw [List.modifyHead_cons]
        rcases List.mem_cons.mp h with rfl | h
        · exact .inr ⟨_, List.mem_cons_self, List.mem_cons_self⟩
        · refine (ih h).imp_right fun ⟨piece, hpiece, hx⟩ => ?_
          rcases List.mem_cons.mp hpiece with rfl | hpiece
          · exact ⟨_, List.mem_cons_self, List.mem_cons_of_mem _ hx⟩
          · exact ⟨piece, List.mem_cons_of_mem _ hpiece, hx⟩

/-- No piece holds the separator. -/
theorem not_mem_of_mem_split {separator : α} {text piece : List α}
    (h : piece ∈ split separator text) : separator ∉ piece := by
  unfold split at h
  split at h
  · exact not_mem_of_mem_splitOn ((List.rdropWhile_prefix _ _).subset h)
  · rename_i hmem
    exact List.mem_singleton.mp h ▸ hmem

/-! ## Trimming -/

section

variable {β : Type*} (blank : β → Bool)

def trimBy (text : List β) : List β := (text.dropWhile blank).rdropWhile blank

variable {blank} {text : List β}

theorem trimBy_eq_self_iff :
    trimBy blank text = text ↔
      (∀ c ∈ text.head?, blank c = false) ∧ ∀ c ∈ text.getLast?, blank c = false := by
  cases text with
  | nil => simp [trimBy]
  | cons c rest =>
      cases hc : blank c with
      | true =>
          refine ⟨fun h => ?_, fun h => ?_⟩
          -- the first character is dropped
          · have hle : (trimBy blank (c :: rest)).length ≤ rest.length := by
              rw [trimBy, List.dropWhile_cons_of_pos hc]
              exact (List.rdropWhile_prefix _ _).length_le.trans
                (List.dropWhile_suffix _).length_le
            rw [h, List.length_cons] at hle
            omega
          · have hfirst := h.1 c rfl
            rw [hc] at hfirst
            cases hfirst
      | false =>
          rw [trimBy, List.dropWhile_cons_of_neg (by rw [hc]; exact Bool.false_ne_true),
            List.rdropWhile_eq_self_iff]
          constructor
          · intro hlast
            refine ⟨fun x hx => ?_, fun x hx => ?_⟩
            · cases hx
              exact hc
            · rw [List.getLast?_eq_some_getLast (List.cons_ne_nil c rest)] at hx
              cases hx
              simpa using hlast (List.cons_ne_nil c rest)
          · intro h hne
            rw [h.2 _ (List.getLast?_eq_some_getLast hne)]
            exact Bool.false_ne_true

theorem trimBy_eq_nil_iff : trimBy blank text = [] ↔ ∀ c ∈ text, blank c = true := by
  unfold trimBy
  rw [List.rdropWhile_eq_nil_iff]
  constructor
  · intro hall
    have hnil : text.dropWhile blank = [] := by
      by_contra hne
      have hlength := List.length_pos_iff.mpr hne
      exact List.dropWhile_get_zero_not _ _ hlength (hall _ (List.get_mem _ _))
    simpa [List.dropWhile_eq_nil_iff] using hnil
  · exact fun hall c hc => hall c ((List.dropWhile_suffix _).subset hc)

theorem trimBy_trimBy (text : List β) : trimBy blank (trimBy blank text) = trimBy blank text := by
  have hbegin : trimBy blank text <+: text.dropWhile blank := List.rdropWhile_prefix _ _
  have hfront : (trimBy blank text).dropWhile blank = trimBy blank text := by
    refine List.dropWhile_eq_self_iff.mpr fun hl => ?_
    rw [hbegin.getElem hl]
    exact List.dropWhile_get_zero_not _ _ (hl.trans_le hbegin.length_le)
  conv_lhs => rw [trimBy, hfront]
  exact List.rdropWhile_idempotent _ _

theorem trimBy_infix (text : List β) : trimBy blank text <:+: text :=
  (List.rdropWhile_prefix _ _).isInfix.trans (List.dropWhile_suffix _).isInfix

end

/-- A text without the control characters and spaces at its ends. -/
def trim (text : List Char) : List Char :=
  (text.dropWhile (· ≤ ' ')).rdropWhile (· ≤ ' ')

theorem trim_eq_trimBy (text : List Char) : trim text = trimBy (fun c => c ≤ ' ') text := rfl

theorem trim_eq_self_iff {text : List Char} :
    trim text = text ↔ (∀ c ∈ text.head?, ¬ c ≤ ' ') ∧ ∀ c ∈ text.getLast?, ¬ c ≤ ' ' := by
  rw [trim_eq_trimBy, trimBy_eq_self_iff]
  simp only [decide_eq_false_iff_not]

theorem trim_eq_nil_iff {text : List Char} : trim text = [] ↔ ∀ c ∈ text, c ≤ ' ' := by
  rw [trim_eq_trimBy, trimBy_eq_nil_iff]
  simp only [decide_eq_true_eq]

theorem trim_trim (text : List Char) : trim (trim text) = trim text := trimBy_trimBy text

end Split
