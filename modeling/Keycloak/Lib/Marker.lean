import Mathlib.Data.List.Infix

/-!
# Texts with a marker in place of what was cut out

Parts of a text are cut out, a marker is left in the place of each, and the parts are put back
where the marker is found.  A marker that does not overlap with itself is found where it was
left, and wherever the rest of the text has it.
-/

namespace Marker

variable {α : Type*} [DecidableEq α]

/-- The pieces between the matches of the marker, from the left; `skip` is what remains of the
present match. -/
def cutFrom (marker : List α) : Nat → List α → List (List α)
  | _, [] => [[]]
  | skip + 1, _ :: rest => cutFrom marker skip rest
  | 0, c :: rest =>
      if marker <+: c :: rest then [] :: cutFrom marker (marker.length - 1) rest
      else (cutFrom marker 0 rest).modifyHead (c :: ·)

def cut (marker text : List α) : List (List α) := cutFrom marker 0 text

/-- The pieces with the parts between them, as long as there are enough parts. -/
def weave : List (List α) → List (List α) → Option (List α)
  | [], _ => some []
  | [piece], _ => some piece
  | _ :: _ :: _, [] => none
  | piece :: next :: pieces, part :: parts =>
      (weave (next :: pieces) parts).map fun rest => piece ++ (part ++ rest)

/-- No end of the marker is also a beginning of it. -/
def Unbordered (marker : List α) : Prop :=
  marker ≠ [] ∧ ∀ n ∈ List.range marker.length, n ≠ 0 → ¬ marker.drop n <+: marker

instance (marker : List α) : Decidable (Unbordered marker) :=
  inferInstanceAs (Decidable (_ ∧ _))

section

variable {marker a b text : List α} {c : α}

theorem cutFrom_append (text rest : List α) :
    cutFrom marker text.length (text ++ rest) = cutFrom marker 0 rest := by
  induction text with
  | nil => rfl
  | cons c text ih =>
      rw [List.length_cons, List.cons_append, cutFrom]
      exact ih

@[simp] theorem cut_nil : cut marker [] = [[]] := rfl

theorem cut_marker_append (hne : marker ≠ []) (rest : List α) :
    cut marker (marker ++ rest) = [] :: cut marker rest := by
  cases marker with
  | nil => exact absurd rfl hne
  | cons c marker =>
      have hbegin : c :: marker <+: c :: (marker ++ rest) := List.prefix_append (c :: marker) rest
      rw [cut, List.cons_append, cutFrom, if_pos hbegin, List.length_cons, Nat.add_sub_cancel,
        cutFrom_append, cut]

theorem cut_cons (h : ¬ marker <+: c :: text) :
    cut marker (c :: text) = (cut marker text).modifyHead (c :: ·) := by
  rw [cut, cutFrom, if_neg h, cut]

theorem cutFrom_ne_nil (skip : Nat) (text : List α) : cutFrom marker skip text ≠ [] := by
  induction text generalizing skip with
  | nil => simp [cutFrom]
  | cons c text ih =>
      cases skip with
      | succ skip => exact ih skip
      | zero =>
          rw [cutFrom]
          split_ifs
          · exact List.cons_ne_nil _ _
          · cases hrest : cutFrom marker 0 text with
            | nil => exact absurd hrest (ih 0)
            | cons piece pieces => exact List.cons_ne_nil _ _

theorem cut_ne_nil (text : List α) : cut marker text ≠ [] := cutFrom_ne_nil 0 text

theorem modifyHead_append {β : Type*} {f : β → β} {xs ys : List β} (hne : xs ≠ []) :
    (xs ++ ys).modifyHead f = xs.modifyHead f ++ ys := by
  cases xs with
  | nil => exact absurd rfl hne
  | cons x xs => rfl

omit [DecidableEq α] in
/-- A match that starts in front of a marker ends in front of it. -/
theorem le_length_of_begins (h : Unbordered marker) (hne : a ≠ [])
    (hbegin : marker <+: a ++ (marker ++ b)) : marker.length ≤ a.length := by
  by_contra hlt
  have hdrop : marker.drop a.length <+: marker ++ b := by
    have hsplit := List.IsPrefix.drop hbegin a.length
    rwa [List.drop_left] at hsplit
  have hborder : marker.drop a.length <+: marker :=
    List.prefix_of_prefix_length_le hdrop (List.prefix_append marker b)
      (by rw [List.length_drop]; omega)
  refine h.2 a.length (List.mem_range.mpr (by omega)) ?_ hborder
  exact Nat.ne_of_gt (List.length_pos_of_ne_nil hne)

/-- The rounds of the search: at the end, at a match, and in front of a character that starts
none. -/
theorem cut_induction {motive : List α → Prop} (hne : marker ≠ []) (nil : motive [])
    (marked : ∀ rest, motive rest → motive (marker ++ rest))
    (cons : ∀ c text, ¬ marker <+: c :: text → motive text → motive (c :: text))
    (text : List α) : motive text := by
  induction hn : text.length using Nat.strong_induction_on generalizing text with
  | _ n ih =>
      cases text with
      | nil => exact nil
      | cons c text =>
          by_cases hbegin : marker <+: c :: text
          · obtain ⟨rest, hrest⟩ := hbegin
            have hlength := congrArg List.length hrest
            rw [List.length_append, hn] at hlength
            have hpos := List.length_pos_of_ne_nil hne
            rw [← hrest]
            exact marked rest (ih rest.length (by omega) rest rfl)
          · have hlength : text.length < n := by rw [← hn, List.length_cons]; omega
            exact cons c text hbegin (ih text.length hlength text rfl)

/-- The matches in front of a marker, the marker, and those behind it. -/
theorem cut_append_marker (h : Unbordered marker) (a b : List α) :
    cut marker (a ++ (marker ++ b)) = cut marker a ++ cut marker b := by
  induction a using cut_induction h.1 with
  | nil => exact cut_marker_append h.1 b
  | marked rest ih =>
      rw [List.append_assoc, cut_marker_append h.1, cut_marker_append h.1, ih, List.cons_append]
  | cons c a hbegin ih =>
      have hnot : ¬ marker <+: c :: (a ++ (marker ++ b)) := by
        intro hlonger
        have hle := le_length_of_begins h (List.cons_ne_nil c a) hlonger
        have hpre : c :: a <+: c :: (a ++ (marker ++ b)) :=
          List.prefix_append (c :: a) (marker ++ b)
        exact hbegin (List.prefix_of_prefix_length_le hlonger hpre hle)
      rw [List.cons_append, cut_cons hnot, ih, modifyHead_append (cut_ne_nil a),
        cut_cons hbegin]

theorem cut_of_free (h : ¬ marker <:+: text) : cut marker text = [text] := by
  induction text with
  | nil => rfl
  | cons c text ih =>
      have htail : ¬ marker <:+: text := fun hmid => h (hmid.trans (List.infix_cons_iff.mpr
        (.inr (List.infix_refl text))))
      rw [cut_cons fun hbegin => h hbegin.isInfix, ih htail]
      rfl

/-- The first piece starts the text; the pieces are parts of it that do not have the marker. -/
theorem free_of_mem_cut (hne : marker ≠ []) (text : List α) :
    (∀ p ∈ (cut marker text).head?, p <+: text) ∧
      ∀ p ∈ cut marker text, p <:+: text ∧ ¬ marker <:+: p := by
  have hempty : ¬ marker <:+: [] := fun h => hne (List.infix_nil.mp h)
  induction text using cut_induction hne with
  | nil =>
      refine ⟨fun p hp => ?_, fun p hp => ?_⟩
      · cases hp
        exact List.prefix_refl []
      · rw [List.mem_singleton.mp hp]
        exact ⟨List.infix_refl [], hempty⟩
  | marked rest ih =>
      rw [cut_marker_append hne]
      refine ⟨fun p hp => ?_, fun p hp => ?_⟩
      · cases hp
        exact List.nil_prefix
      · rcases List.mem_cons.mp hp with rfl | hp
        · exact ⟨List.nil_infix, hempty⟩
        · obtain ⟨hpart, hfree⟩ := ih.2 p hp
          exact ⟨hpart.trans (List.suffix_append marker rest).isInfix, hfree⟩
  | cons c text hbegin ih =>
      rw [cut_cons hbegin]
      cases hcut : cut marker text with
      | nil => exact absurd hcut (cut_ne_nil text)
      | cons piece pieces =>
          rw [hcut] at ih
          have hpiece : c :: piece <+: c :: text :=
            (List.prefix_cons_inj c).mpr (ih.1 piece rfl)
          rw [List.modifyHead_cons]
          refine ⟨fun p hp => ?_, fun p hp => ?_⟩
          · cases hp
            exact hpiece
          · rcases List.mem_cons.mp hp with rfl | hp
            · refine ⟨hpiece.isInfix, fun hmid => ?_⟩
              rcases List.infix_cons_iff.mp hmid with hpre | htail
              · exact hbegin (hpre.trans hpiece)
              · exact (ih.2 piece List.mem_cons_self).2 htail
            · obtain ⟨hpart, hfree⟩ := ih.2 p (List.mem_cons_of_mem piece hp)
              exact ⟨hpart.trans (List.suffix_cons c text).isInfix, hfree⟩

/-- A marker that a text does not have, not even with the beginning of another one behind it,
is found where it is put behind the text. -/
theorem cut_append_of_free (hne : marker ≠ []) (h : ¬ marker <:+: a ++ marker.dropLast)
    (b : List α) : cut marker (a ++ (marker ++ b)) = a :: cut marker b := by
  induction a with
  | nil => exact cut_marker_append hne b
  | cons c a ih =>
      have htail : ¬ marker <:+: a ++ marker.dropLast :=
        fun hmid => h (hmid.trans (List.infix_cons_iff.mpr (.inr (List.infix_refl _))))
      have hbegin : ¬ marker <+: c :: (a ++ (marker ++ b)) := by
        intro hpre
        have hshort : c :: (a ++ marker.dropLast) <+: c :: (a ++ (marker ++ b)) :=
          (List.prefix_cons_inj c).mpr ((List.prefix_append_right_inj a).mpr
            ((List.dropLast_prefix marker).trans (List.prefix_append marker b)))
        have hlength : marker.length ≤ (c :: (a ++ marker.dropLast)).length := by
          rw [List.length_cons, List.length_append, List.length_dropLast]
          omega
        exact h (List.prefix_of_prefix_length_le hpre hshort hlength).isInfix
      rw [List.cons_append, cut_cons hbegin, ih htail]
      rfl

/-- Joined pieces are the pieces of the joined text. -/
theorem cut_intercalate (hne : marker ≠ []) {pieces : List (List α)} (hpieces : pieces ≠ [])
    (h : ∀ p ∈ pieces, ¬ marker <:+: p ++ marker.dropLast) :
    cut marker (marker.intercalate pieces) = pieces := by
  induction pieces with
  | nil => exact absurd rfl hpieces
  | cons p rest ih =>
      obtain ⟨hp, hrest⟩ := List.forall_mem_cons.mp h
      cases rest with
      | nil =>
          rw [List.intercalate_singleton]
          exact cut_of_free fun hmid => hp (hmid.trans (List.prefix_append p _).isInfix)
      | cons q rest =>
          rw [List.intercalate_cons_cons, List.append_assoc, cut_append_of_free hne hp,
            ih (List.cons_ne_nil q rest) hrest]

omit [DecidableEq α] in
/-- An element that the marker does not have divides a text into two. -/
theorem infix_append_cons (hc : c ∉ marker) (h : marker <:+: a ++ c :: b) :
    marker <:+: a ∨ marker <:+: b := by
  obtain ⟨s, t, heq⟩ := h
  rw [List.append_assoc, List.append_eq_append_iff] at heq
  rcases heq with ⟨x, rfl, heq⟩ | ⟨x, rfl, heq⟩
  · rcases List.append_eq_append_iff.mp heq with ⟨y, rfl, -⟩ | ⟨y, rfl, hy⟩
    · exact .inl ⟨s, y, by rw [List.append_assoc]⟩
    · cases y with
      | nil =>
          rw [List.append_nil]
          exact .inl (List.suffix_append s x).isInfix
      | cons d y =>
          obtain rfl := (List.cons.inj hy).1
          exact absurd (List.mem_append_right x List.mem_cons_self) hc
  · cases x with
    | nil =>
        cases marker with
        | nil => exact .inl List.nil_infix
        | cons d marker =>
            obtain rfl := (List.cons.inj heq).1
            exact absurd List.mem_cons_self hc
    | cons d x =>
        rw [List.cons_append] at heq
        obtain ⟨-, rfl⟩ := List.cons.inj heq
        exact .inr ⟨x, t, by rw [List.append_assoc]⟩

theorem one_lt_length_cut (h : Unbordered marker) (hmid : marker <:+: text) :
    1 < (cut marker text).length := by
  obtain ⟨a, b, rfl⟩ := hmid
  have ha : 0 < (cut marker a).length := List.length_pos_of_ne_nil (cut_ne_nil a)
  have hb : 0 < (cut marker b).length := List.length_pos_of_ne_nil (cut_ne_nil b)
  rw [List.append_assoc, cut_append_marker h, List.length_append]
  omega

/-- A text from its pieces: a part and the piece behind it, for every part. -/
def join (head : List α) (tail : List (List α × List α)) : List α :=
  head ++ tail.flatMap fun x => x.1 ++ x.2

/-- The same text with the marker in the place of every part. -/
def mark (marker head : List α) (tail : List (List α × List α)) : List α :=
  head ++ tail.flatMap fun x => marker ++ x.2

variable {head : List α} {tail : List (List α × List α)}

omit [DecidableEq α] in
theorem join_cons (head : List α) (x : List α × List α) (tail : List (List α × List α)) :
    join head (x :: tail) = head ++ (x.1 ++ join x.2 tail) := by
  simp [join]

omit [DecidableEq α] in
theorem mark_cons (head : List α) (x : List α × List α) (tail : List (List α × List α)) :
    mark marker head (x :: tail) = head ++ (marker ++ mark marker x.2 tail) := by
  simp [mark]

theorem cut_mark (h : Unbordered marker) (head : List α) (tail : List (List α × List α)) :
    cut marker (mark marker head tail) =
      cut marker head ++ tail.flatMap fun x => cut marker x.2 := by
  induction tail generalizing head with
  | nil => simp [mark]
  | cons x tail ih =>
      rw [mark_cons, cut_append_marker h, ih, List.flatMap_cons]

omit [DecidableEq α] in
theorem weave_join (head : List α) (tail : List (List α × List α)) :
    weave (head :: tail.map Prod.snd) (tail.map Prod.fst) = some (join head tail) := by
  induction tail generalizing head with
  | nil => simp [weave, join]
  | cons x tail ih =>
      rw [List.map_cons, List.map_cons, weave, ih, join_cons]
      rfl

omit [DecidableEq α] in
theorem weave_eq_none {pieces parts : List (List α)} (h : parts.length + 1 < pieces.length) :
    weave pieces parts = none := by
  induction pieces generalizing parts with
  | nil => exact absurd h (Nat.not_lt_zero _)
  | cons piece pieces ih =>
      cases pieces with
      | nil => exact absurd h (by simp)
      | cons next pieces =>
          cases parts with
          | nil => rfl
          | cons part parts =>
              rw [weave, ih (Nat.lt_of_succ_lt_succ h)]
              rfl

/-- The parts come back where they were if no piece has the marker. -/
theorem weave_cut_mark (h : Unbordered marker) (hhead : ¬ marker <:+: head)
    (htail : ∀ x ∈ tail, ¬ marker <:+: x.2) :
    weave (cut marker (mark marker head tail)) (tail.map Prod.fst) = some (join head tail) := by
  have hpieces : (tail.flatMap fun x => cut marker x.2) = tail.map Prod.snd := by
    rw [← List.flatMap_pure_eq_map]
    exact List.flatMap_congr fun x hx => cut_of_free (htail x hx)
  rw [cut_mark h, cut_of_free hhead, hpieces]
  exact weave_join head tail

/-- There are too few parts if a piece has the marker. -/
theorem weave_cut_mark_eq_none (h : Unbordered marker)
    (hmid : marker <:+: head ∨ ∃ x ∈ tail, marker <:+: x.2) :
    weave (cut marker (mark marker head tail)) (tail.map Prod.fst) = none := by
  have hone : ∀ text, 1 ≤ (cut marker text).length := fun text =>
    List.length_pos_of_ne_nil (cut_ne_nil text)
  have hle : ∀ tail : List (List α × List α),
      tail.length ≤ (tail.flatMap fun x => cut marker x.2).length := by
    intro tail
    induction tail with
    | nil => exact Nat.le_refl 0
    | cons x tail ih =>
        have hx := hone x.2
        rw [List.flatMap_cons, List.length_append, List.length_cons]
        omega
  apply weave_eq_none
  rw [List.length_map, cut_mark h, List.length_append]
  rcases hmid with hhead | ⟨x, hx, hpiece⟩
  · have hlt := one_lt_length_cut h hhead
    have hle := hle tail
    omega
  · have hlt := one_lt_length_cut h hpiece
    have hhead := hone head
    obtain ⟨before, after, rfl⟩ := List.append_of_mem hx
    have hbefore := hle before
    have hafter := hle after
    rw [List.length_append, List.length_cons, List.flatMap_append, List.flatMap_cons,
      List.length_append, List.length_append]
    omega

end

end Marker
