import Mathlib.Data.List.DropRight
import Mathlib.Tactic.SplitIfs

/-!
# Splitting a text at separators that are not escaped

A separator counts unless the escape character stands in front of it, whatever stands before that
one: this is a look-behind of one character.  As in `String.split` of the source language a text
without a separator that counts is its only piece, and otherwise the empty pieces at the end are
dropped.
-/

namespace EscapedSplit

variable {α : Type*}

section

variable [DecidableEq α] (escape separator : α)

/-- The pieces of a text behind the given character. -/
def pieces : Option α → List α → List (List α)
  | _, [] => [[]]
  | prev, c :: rest =>
      if c = separator ∧ prev ≠ some escape then [] :: pieces (some c) rest
      else (pieces (some c) rest).modifyHead (c :: ·)

def split (text : List α) : List (List α) :=
  let all := pieces escape separator none text
  if all.length = 1 then all else all.rdropWhile (·.isEmpty)

/-- The separator stands behind the escape character only. -/
def Guarded : Option α → List α → Prop
  | _, [] => True
  | prev, c :: rest => (c = separator → prev = some escape) ∧ Guarded (some c) rest

instance decidableGuarded : (prev : Option α) → (text : List α) →
    Decidable (Guarded escape separator prev text)
  | _, [] => .isTrue trivial
  | _, c :: rest =>
      have := decidableGuarded (some c) rest
      inferInstanceAs (Decidable (_ ∧ _))

end

/-- The last character of a text behind the given one. -/
def last : Option α → List α → Option α
  | prev, [] => prev
  | _, c :: rest => last (some c) rest

variable {escape separator other : α} {prev : Option α} {text a b : List α}

theorem last_none : last none text = text.getLast? := by
  have hsome : ∀ (c : α) (rest : List α), last (some c) rest = (c :: rest).getLast? := by
    intro c rest
    induction rest generalizing c with
    | nil => rfl
    | cons d rest ih => rw [last, ih, List.getLast?_cons_cons]
  cases text with
  | nil => rfl
  | cons c rest => exact hsome c rest

/-! ## Guarded texts -/

theorem guarded_some {c : α} (hc : c ≠ escape) :
    Guarded escape separator (some c) text ↔ Guarded escape separator none text := by
  cases text with
  | nil => exact Iff.rfl
  | cons d rest => simp [Guarded, hc]

theorem Guarded.append_left (h : Guarded escape separator prev (a ++ b)) :
    Guarded escape separator prev a := by
  induction a generalizing prev with
  | nil => trivial
  | cons c rest ih => exact ⟨h.1, ih h.2⟩

theorem Guarded.append (ha : Guarded escape separator prev a)
    (hb : Guarded escape separator (last prev a) b) : Guarded escape separator prev (a ++ b) := by
  induction a generalizing prev with
  | nil => exact hb
  | cons c rest ih => exact ⟨ha.1, ih ha.2 hb⟩

theorem Guarded.of_prefix (h : Guarded escape separator prev b) (hbegin : a <+: b) :
    Guarded escape separator prev a := by
  obtain ⟨rest, rfl⟩ := hbegin
  exact h.append_left

/-- Characters at the front that are not the escape character may go. -/
theorem Guarded.dropWhile {p : α → Bool} (hp : p escape = false)
    (h : Guarded escape separator none text) :
    Guarded escape separator none (text.dropWhile p) := by
  induction text with
  | nil => trivial
  | cons c rest ih =>
      rw [List.dropWhile_cons]
      split_ifs with hc
      · have hne : c ≠ escape := by
          rintro rfl
          rw [hp] at hc
          cases hc
        exact ih ((guarded_some hne).mp h.2)
      · exact h

theorem Guarded.rdropWhile {p : α → Bool} (h : Guarded escape separator none text) :
    Guarded escape separator none (text.rdropWhile p) :=
  h.of_prefix (List.rdropWhile_prefix p text)

/-! ## The pieces -/

variable [DecidableEq α]

theorem exists_pieces (escape separator : α) (prev : Option α) (text : List α) :
    ∃ p ps, pieces escape separator prev text = p :: ps := by
  induction text generalizing prev with
  | nil => exact ⟨[], [], rfl⟩
  | cons c rest ih =>
      obtain ⟨p, ps, hrest⟩ := ih (some c)
      rw [pieces, hrest]
      split_ifs
      · exact ⟨[], p :: ps, rfl⟩
      · exact ⟨c :: p, ps, rfl⟩

theorem pieces_some {c : α} (hc : c ≠ escape) :
    pieces escape separator (some c) text = pieces escape separator none text := by
  cases text with
  | nil => rfl
  | cons d rest => simp [pieces, hc]

/-- The front of a text without separators that count belongs to the first piece. -/
theorem pieces_append (h : Guarded escape separator prev a) :
    pieces escape separator prev (a ++ b) =
      (pieces escape separator (last prev a) b).modifyHead (a ++ ·) := by
  induction a generalizing prev with
  | nil =>
      obtain ⟨p, ps, hpieces⟩ := exists_pieces escape separator prev b
      simp [last, hpieces]
  | cons c rest ih =>
      have hc : ¬ (c = separator ∧ prev ≠ some escape) := fun hsep => hsep.2 (h.1 hsep.1)
      rw [List.cons_append, pieces, if_neg hc, ih h.2, List.modifyHead_modifyHead]
      rfl

theorem pieces_of_guarded (h : Guarded escape separator prev a) :
    pieces escape separator prev a = [a] := by
  rw [← List.append_nil a, pieces_append h]
  simp [pieces]

/-- The separator that the text is split at is guarded in the pieces, and so is every other one that
is guarded in the text. -/
theorem guarded_pieces {p : List α} {ps : List (List α)} (hsep : separator ≠ escape)
    (h : other = separator ∨ Guarded escape other prev text)
    (hpieces : pieces escape separator prev text = p :: ps) :
    Guarded escape other prev p ∧ ∀ q ∈ ps, Guarded escape other none q := by
  induction text generalizing prev p ps with
  | nil =>
      cases hpieces
      exact ⟨trivial, by simp⟩
  | cons c rest ih =>
      obtain ⟨q, qs, hrest⟩ := exists_pieces escape separator (some c) rest
      obtain ⟨hq, hqs⟩ := ih (h.imp_right fun h => h.2) hrest
      rw [pieces, hrest] at hpieces
      split_ifs at hpieces with hc
      · cases hpieces
        refine ⟨trivial, fun x hx => ?_⟩
        rcases List.mem_cons.mp hx with rfl | hx
        · exact (guarded_some (hc.1 ▸ hsep)).mp hq
        · exact hqs x hx
      · cases hpieces
        refine ⟨⟨fun heq => ?_, hq⟩, hqs⟩
        rcases h with rfl | h
        · by_contra hprev
          exact hc ⟨heq, hprev⟩
        · exact h.1 heq

theorem guarded_of_mem_split {p : List α} (hsep : separator ≠ escape)
    (h : other = separator ∨ Guarded escape other none text)
    (hp : p ∈ split escape separator text) : Guarded escape other none p := by
  have hmem : p ∈ pieces escape separator none text := by
    unfold split at hp
    dsimp only at hp
    split_ifs at hp
    · exact hp
    · exact (List.rdropWhile_prefix _ _).subset hp
  obtain ⟨q, qs, hpieces⟩ := exists_pieces escape separator none text
  obtain ⟨hq, hqs⟩ := guarded_pieces hsep h hpieces
  rw [hpieces] at hmem
  rcases List.mem_cons.mp hmem with rfl | hmem
  · exact hq
  · exact hqs p hmem

theorem length_split_le : (split escape separator text).length ≤
    (pieces escape separator none text).length := by
  unfold split
  dsimp only
  split_ifs
  · exact Nat.le_refl _
  · exact (List.rdropWhile_prefix _ _).length_le

/-! ## Joined texts -/

theorem pieces_append_separator (hsep : separator ≠ escape)
    (ha : Guarded escape separator none a) (hlast : a.getLast? ≠ some escape) :
    pieces escape separator none (a ++ separator :: b) =
      a :: pieces escape separator none b := by
  rw [pieces_append ha, last_none, pieces, if_pos ⟨rfl, hlast⟩, pieces_some hsep]
  simp

theorem length_pieces_append_separator (hsep : separator ≠ escape)
    (ha : Guarded escape separator none a) (hlast : a.getLast? = some escape) :
    (pieces escape separator none (a ++ separator :: b)).length =
      (pieces escape separator none b).length := by
  rw [pieces_append ha, last_none, pieces, if_neg (by simp [hlast]), pieces_some hsep]
  simp

/-- Guarded texts come back from their join, when none but the last ends with the escape
character. -/
theorem pieces_join {texts : List (List α)} (hsep : separator ≠ escape) (hne : texts ≠ [])
    (hguarded : ∀ a ∈ texts, Guarded escape separator none a)
    (hlast : ∀ a ∈ texts.dropLast, a.getLast? ≠ some escape) :
    pieces escape separator none ([separator].intercalate texts) = texts := by
  match texts with
  | [a] =>
      rw [List.intercalate_singleton]
      exact pieces_of_guarded (hguarded a List.mem_cons_self)
  | a :: b :: rest =>
      obtain ⟨ha, hothers⟩ := List.forall_mem_cons.mp hguarded
      rw [List.dropLast_cons_cons] at hlast
      obtain ⟨halast, hlasts⟩ := List.forall_mem_cons.mp hlast
      rw [List.intercalate_cons_cons, List.append_assoc, List.singleton_append,
        pieces_append_separator hsep ha halast,
        pieces_join hsep (List.cons_ne_nil b rest) hothers hlasts]

/-- Each text in front of another one that ends with the escape character costs a piece. -/
theorem length_pieces_join {texts : List (List α)} (hsep : separator ≠ escape) (hne : texts ≠ [])
    (hguarded : ∀ a ∈ texts, Guarded escape separator none a) :
    (pieces escape separator none ([separator].intercalate texts)).length +
      (texts.dropLast.countP fun a => a.getLast? = some escape) = texts.length := by
  match texts with
  | [a] =>
      rw [List.intercalate_singleton, pieces_of_guarded (hguarded a List.mem_cons_self)]
      rfl
  | a :: b :: rest =>
      obtain ⟨ha, hothers⟩ := List.forall_mem_cons.mp hguarded
      have hrest := length_pieces_join hsep (List.cons_ne_nil b rest) hothers
      rw [List.intercalate_cons_cons, List.append_assoc, List.singleton_append,
        List.dropLast_cons_cons, List.countP_cons, List.length_cons]
      by_cases hlast : a.getLast? = some escape
      · rw [length_pieces_append_separator hsep ha hlast, if_pos (decide_eq_true hlast)]
        omega
      · rw [pieces_append_separator hsep ha hlast, if_neg (by simpa using hlast), List.length_cons]
        omega

theorem split_join {texts : List (List α)} (hsep : separator ≠ escape) (hne : texts ≠ [])
    (hguarded : ∀ a ∈ texts, Guarded escape separator none a)
    (hlast : ∀ a ∈ texts.dropLast, a.getLast? ≠ some escape)
    (hempty : texts.getLast hne ≠ []) :
    split escape separator ([separator].intercalate texts) = texts := by
  unfold split
  dsimp only
  rw [pieces_join hsep hne hguarded hlast]
  split_ifs
  · rfl
  · rw [List.rdropWhile_eq_self_iff]
    intro _
    simpa using hempty

/-- As many pieces as texts come back only if none but the last ends with the escape character. -/
theorem getLast_ne_of_length_split {texts : List (List α)} (hsep : separator ≠ escape)
    (hne : texts ≠ []) (hguarded : ∀ a ∈ texts, Guarded escape separator none a)
    (h : (split escape separator ([separator].intercalate texts)).length = texts.length) :
    ∀ a ∈ texts.dropLast, a.getLast? ≠ some escape := by
  have hle : texts.length ≤ (pieces escape separator none ([separator].intercalate texts)).length :=
    h ▸ length_split_le
  have hcount := length_pieces_join hsep hne hguarded
  have hzero : (texts.dropLast.countP fun a => a.getLast? = some escape) = 0 := by omega
  intro a ha hlast
  exact List.countP_eq_zero.mp hzero a ha (decide_eq_true hlast)

end EscapedSplit
