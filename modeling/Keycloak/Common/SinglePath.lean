import Keycloak.Common.FilledPaths

/-!
# A single path

Whether `matches` finds a pattern, when it is the only path, for exactly the targets that it
denotes.  An exact pattern and one for everything below are also found for a target that ends
early, and the extension of a pattern is looked for without its directory.
-/

namespace Keycloak.PathMatcher

/-- The entries are the paths themselves. -/
def textPaths : Paths Text := ⟨some, fun path _ => some path⟩

def Pattern.Returned (p : Pattern) (target : Text) : Prop :=
  ∃ fuel, matchesPath textPaths target fuel [p.text] = .ok (some p.text)

theorem indexOfText_eq_none {c : UInt16} {part text : Text} (hpart : c ∈ part) (h : c ∉ text) :
    indexOfText part text = none := by
  induction text with
  | nil => exact if_neg (List.ne_nil_of_mem hpart)
  | cons d rest ih =>
      have hnot : ¬ part.isPrefixOf (d :: rest) = true := fun hbegin =>
        h ((List.isPrefixOf_iff_prefix.mp hbegin).subset hpart)
      rw [indexOfText, if_neg hnot, ih fun hmem => h (List.mem_cons_of_mem d hmem)]
      rfl

theorem indexOfText_append {part front back : Text} (hback : part <+: back)
    (h : ∀ c rest, c :: rest <:+ front → ¬ part <+: c :: rest ++ back) :
    indexOfText part (front ++ back) = some front.length := by
  induction front with
  | nil =>
      cases back with
      | nil =>
          rw [List.prefix_nil.mp hback]
          rfl
      | cons c back =>
          rw [List.nil_append, indexOfText, if_pos (List.isPrefixOf_iff_prefix.mpr hback)]
          rfl
  | cons c front ih =>
      have hnot : ¬ part.isPrefixOf (c :: (front ++ back)) = true := fun hbegin =>
        h c front (List.suffix_refl _) (List.isPrefixOf_iff_prefix.mp hbegin)
      rw [List.cons_append, indexOfText, if_neg hnot,
        ih fun d rest hsuffix => h d rest (hsuffix.trans (List.suffix_cons c front))]
      rfl

namespace Pattern

variable (p : Pattern) {target : Text}

def covers (target : Text) : Bool :=
  match p.tail with
  | .exact => false
  | .below => p.directory.isPrefixOf target
  | .suffix extension _ => (dot :: extension).isSuffixOf target

theorem isTemplate_iff : isTemplate p.text = true ↔ p.HasParameter := by
  rw [isTemplate, decide_eq_true_iff, text, List.mem_append]
  constructor
  · rintro (h | h)
    · by_contra hnone
      refine not_mem_render (by decide) (fun t ht => ?_) h
      obtain ⟨s, hs, rfl⟩ := List.mem_map.mp ht
      exact Segment.openBrace_not_mem (isParameter_eq_false hnone s hs)
    · rw [tailText] at h
      split at h
      · cases h
      · exact absurd h (by decide)
      · rename_i extension plain _
        rw [List.mem_cons, List.mem_cons, List.mem_cons] at h
        obtain h | h | h | h := h
        · exact absurd h (by decide)
        · exact absurd h (by decide)
        · exact absurd h (by decide)
        · exact absurd h plain.noOpenBrace
  · rintro ⟨s, hs, hparameter⟩
    refine .inl (List.mem_flatMap.mpr ⟨s.text, List.mem_map_of_mem hs, ?_⟩)
    cases s with
    | literal text plain => cases hparameter
    | parameter name plain => exact List.mem_cons_of_mem _ List.mem_cons_self

theorem endsWithWildcard_iff : endsWithWildcard p.text = true ↔ p.tail = .below := by
  rw [endsWithWildcard, decide_eq_true_iff]
  exact p.getLast?_text

theorem not_endsWithWildcard (h : p.tail ≠ .below) : ¬ endsWithWildcard p.text = true :=
  mt p.endsWithWildcard_iff.mp h

theorem wildcard_not_mem_text (h : p.tail = .exact) : wildcard ∉ p.text := by
  rw [text, tailText, h, List.append_nil]
  exact p.wildcard_not_mem_directory

section

variable {p} {extension : Text} {plain : Plain extension}

theorem text_of_suffix (h : p.tail = .suffix extension plain) :
    p.text = p.directory ++ slash :: wildcard :: dot :: extension := by rw [text, tailText, h]

theorem indexOf_slashWildcard (h : p.tail = .suffix extension plain) :
    indexOfText (PathMatcher.text "/*.") p.text = some p.directory.length := by
  have hpart : PathMatcher.text "/*." = [slash, wildcard, dot] := rfl
  rw [text_of_suffix h, hpart]
  refine indexOfText_append ⟨extension, rfl⟩ fun c rest hsuffix hbegin => ?_
  have hmem : wildcard ∉ rest := fun hmem =>
    p.wildcard_not_mem_directory (hsuffix.subset (List.mem_cons_of_mem c hmem))
  rw [List.cons_append, List.cons_prefix_cons] at hbegin
  cases rest with
  | nil =>
      rw [List.nil_append, List.cons_prefix_cons] at hbegin
      exact absurd hbegin.2.1 (by decide)
  | cons d rest =>
      rw [List.cons_append, List.cons_prefix_cons] at hbegin
      exact hmem (hbegin.2.1 ▸ List.mem_cons_self)

theorem indexOf_wildcardDot (h : p.tail = .suffix extension plain) :
    indexOfText (PathMatcher.text "*.") p.text = some (p.directory.length + 1) := by
  have hpart : PathMatcher.text "*." = [wildcard, dot] := rfl
  have hsplit : p.text = (p.directory ++ [slash]) ++ wildcard :: dot :: extension := by
    rw [text_of_suffix h, List.append_assoc]
    rfl
  have hindex : indexOfText [wildcard, dot] ((p.directory ++ [slash]) ++
      wildcard :: dot :: extension) = some (p.directory ++ [slash]).length := by
    refine indexOfText_append ⟨extension, rfl⟩ fun c rest hsuffix hbegin => ?_
    rw [List.cons_append, List.cons_prefix_cons] at hbegin
    have hmem : wildcard ∈ p.directory ++ [slash] :=
      hsuffix.subset (by rw [← hbegin.1]; exact List.mem_cons_self)
    rcases List.mem_append.mp hmem with hmem | hmem
    · exact p.wildcard_not_mem_directory hmem
    · exact absurd (List.mem_singleton.mp hmem) (by decide)
  rw [hsplit, hpart, hindex, List.length_append, List.length_singleton]

theorem drop_extension (h : p.tail = .suffix extension plain) :
    p.text.drop (p.directory.length + 2) = dot :: extension := by
  have hsplit : p.text = (p.directory ++ [slash, wildcard]) ++ dot :: extension := by
    rw [text_of_suffix h, List.append_assoc]
    rfl
  have hlength : (p.directory ++ [slash, wildcard]).length = p.directory.length + 2 :=
    List.length_append
  rw [hsplit, ← hlength, List.drop_left]

end

theorem exactMatch_text (value : Text) : exactMatch p.text target value =
    .ok (decide (target = value) || p.covers target) := by
  rw [exactMatch]
  by_cases heq : target = value
  · rw [if_pos heq, decide_eq_true heq, Bool.true_or]
  rw [if_neg heq, decide_eq_false heq, Bool.false_or, covers]
  cases htail : p.tail with
  | exact =>
      have hwildcard := p.not_endsWithWildcard fun hbelow => by cases htail.symm.trans hbelow
      rw [if_neg hwildcard, indexOfText_eq_none (c := wildcard) (by decide)
        (p.wildcard_not_mem_text htail)]
  | below =>
      have htext : p.text = p.directory ++ [slash, wildcard] := by rw [text, tailText, htail]
      have hlength : p.text.length = p.directory.length + 2 := by
        rw [htext]
        exact List.length_append
      rw [if_pos (p.endsWithWildcard_iff.mpr htail), if_neg (by omega), hlength,
        Nat.add_sub_cancel, htext, List.take_left]
  | suffix extension plain =>
      have hwildcard := p.not_endsWithWildcard fun hbelow => by cases htail.symm.trans hbelow
      rw [if_neg hwildcard, indexOf_slashWildcard htail]
      dsimp only
      rw [drop_extension htail]

theorem text_ne_nil : p.text ≠ [] := by
  rw [text, tailText]
  intro h
  obtain ⟨hdirectory, htail⟩ := List.append_eq_nil_iff.mp h
  cases hsegments : p.segments with
  | nil =>
      have hne := p.nonempty hsegments
      cases hkind : p.tail with
      | exact => exact hne hkind
      | below =>
          rw [hkind] at htail
          cases htail
      | suffix extension plain =>
          rw [hkind] at htail
          cases htail
  | cons s segments =>
      rw [directory, hsegments] at hdirectory
      cases hdirectory

theorem register_text (target matchingUri : Text) (count : Nat) (path : Option Text) :
    ∃ found, register textPaths target p.text p.text matchingUri ⟨count, path, none, none⟩ =
        .ok found ∧ found.matchingPath = path ∧ (p.covers target = true →
          found.matchingAnySuffixPath.or found.matchingAnyPath = some p.text) := by
  rw [register, if_neg p.text_ne_nil, covers]
  cases htail : p.tail with
  | exact =>
      have hwildcard := p.not_endsWithWildcard fun hbelow => by cases htail.symm.trans hbelow
      rw [if_neg hwildcard, indexOfText_eq_none (c := wildcard) (by decide)
        (p.wildcard_not_mem_text htail)]
      exact ⟨_, rfl, rfl, fun h => by cases h⟩
  | below =>
      rw [if_pos (p.endsWithWildcard_iff.mpr htail)]
      exact ⟨_, rfl, rfl, fun _ => rfl⟩
  | suffix extension plain =>
      have hwildcard := p.not_endsWithWildcard fun hbelow => by cases htail.symm.trans hbelow
      rw [if_neg hwildcard, indexOf_wildcardDot htail]
      dsimp only
      rw [drop_extension htail]
      by_cases hcovers : (dot :: extension).isSuffixOf target = true
      · rw [if_pos hcovers]
        exact ⟨_, rfl, rfl, fun _ => rfl⟩
      · rw [if_neg hcovers]
        exact ⟨_, rfl, rfl, fun h => absurd h hcovers⟩

/-! ## The loop over one path -/

section

variable {fuel count : Nat} {entry matchingUri : Text}

def matchedText (target : Text) : Option Text :=
  if decide (target = p.text) || p.covers target then some p.text else none

theorem matchesPath_of_error {failure : Failure}
    (h : matchTemplate textPaths target fuel p.text p.text 0 (p.matchedText target) =
      .error failure) : matchesPath textPaths target fuel [p.text] = .error failure := by
  rw [matchesPath, matchesLoop]
  simp only [textPaths, exactMatch_text]
  rw [matchedText, textPaths] at h
  rw [h]

theorem matchesPath_of_none
    (h : matchTemplate textPaths target fuel p.text p.text 0 (p.matchedText target) =
      .ok (none, entry, count)) : matchesPath textPaths target fuel [p.text] = .ok none := by
  rw [matchesPath, matchesLoop]
  simp only [textPaths, exactMatch_text]
  rw [matchedText, textPaths] at h
  rw [h]
  rfl

theorem matchesPath_of_some
    (h : matchTemplate textPaths target fuel p.text p.text 0 (p.matchedText target) =
      .ok (some matchingUri, p.text, count))
    (hmatches : matchingUri = target ∨ p.covers target = true) :
    matchesPath textPaths target fuel [p.text] = .ok (some p.text) := by
  rw [matchesPath, matchesLoop]
  simp only [textPaths, exactMatch_text]
  rw [matchedText, textPaths] at h
  rw [h]
  dsimp only
  by_cases hhit : matchingUri = target ∨ pathString p.text = target
  · rw [decide_eq_true hhit]
    by_cases hcount : count = 0
    · rw [if_pos ⟨rfl, hcount⟩]
    · obtain ⟨found, hregister, hpath, -⟩ :=
        p.register_text target matchingUri count (some p.text)
      rw [textPaths] at hregister
      rw [if_neg fun h => hcount h.2, if_pos rfl, hregister]
      dsimp only
      rw [matchesLoop, hpath, Option.some_or]
  · obtain ⟨found, hregister, hpath, hcovers⟩ :=
      p.register_text target matchingUri count none
    rw [textPaths] at hregister
    rw [decide_eq_false hhit, if_neg fun h => Bool.false_ne_true h.1, if_neg Bool.false_ne_true,
      hregister]
    dsimp only
    rw [matchesLoop, hpath, Option.none_or,
      hcovers (hmatches.resolve_left fun heq => hhit (.inl heq))]

theorem matchTemplate_text (target : Text) (fuel : Nat) (found : Option Text) :
    matchTemplate textPaths target fuel p.text p.text 0 found =
      if p.HasParameter then
        match buildUriFromTemplate fuel p.text target false with
        | .error failure => .error failure
        | .ok none => .ok (found, p.text, 0)
        | .ok (some uri) =>
            if target = uri ∨ p.covers target = true then
              .ok (some uri, p.text, (split p.text).length)
            else .ok (found, p.text, 0)
      else .ok (found, p.text, 0) := by
  rw [matchTemplate]
  by_cases hparameter : p.HasParameter
  · rw [if_pos (p.isTemplate_iff.mpr hparameter), if_pos hparameter]
    cases buildUriFromTemplate fuel p.text target false with
    | error failure => rfl
    | ok result =>
        cases result with
        | none => rfl
        | some uri =>
            dsimp only
            rw [exactMatch_text]
            dsimp only
            by_cases hmatched : target = uri ∨ p.covers target = true
            · rw [if_pos hmatched, if_pos ⟨by simpa using hmatched, .inl rfl⟩]
              rfl
            · rw [if_neg hmatched, if_neg fun h => hmatched (by simpa using h.1)]
  · rw [if_neg fun h => hparameter (p.isTemplate_iff.mp h), if_neg hparameter]

theorem matchesPath_of_matchedText
    (h : matchTemplate textPaths target fuel p.text p.text 0 (p.matchedText target) =
      .ok (p.matchedText target, p.text, 0)) :
    matchesPath textPaths target fuel [p.text] = .ok (some p.text) ↔
      target = p.text ∨ p.covers target = true := by
  by_cases hmatched : target = p.text ∨ p.covers target = true
  · have hfound : p.matchedText target = some p.text := by
      rw [matchedText, if_pos (by simpa using hmatched)]
    nth_rewrite 2 [hfound] at h
    exact iff_of_true (p.matchesPath_of_some h (hmatched.imp_left Eq.symm)) hmatched
  · have hfound : p.matchedText target = none := by
      rw [matchedText, if_neg (by simpa using hmatched)]
    nth_rewrite 2 [hfound] at h
    rw [p.matchesPath_of_none h]
    exact iff_of_false (fun heq => by cases heq) hmatched

theorem matchesPath_iff : matchesPath textPaths target fuel [p.text] = .ok (some p.text) ↔
    if p.HasParameter then ∃ result, buildUriFromTemplate fuel p.text target false = .ok result ∧
      (target = p.text ∨ p.covers target = true ∨ result = some target)
    else target = p.text ∨ p.covers target = true := by
  have htemplate := p.matchTemplate_text target fuel (p.matchedText target)
  by_cases hparameter : p.HasParameter
  · rw [if_pos hparameter] at htemplate ⊢
    cases hbuild : buildUriFromTemplate fuel p.text target false with
    | error failure =>
        rw [hbuild] at htemplate
        rw [p.matchesPath_of_error htemplate]
        exact iff_of_false (fun heq => by cases heq) fun ⟨result, heq, _⟩ => by cases heq
    | ok result =>
        rw [hbuild] at htemplate
        simp only [Except.ok.injEq, exists_eq_left']
        cases result with
        | none =>
            rw [p.matchesPath_of_matchedText htemplate]
            simp only [reduceCtorEq, or_false]
        | some uri =>
            dsimp only at htemplate
            by_cases hmatched : target = uri ∨ p.covers target = true
            · rw [if_pos hmatched] at htemplate
              refine iff_of_true (p.matchesPath_of_some htemplate (hmatched.imp_left Eq.symm)) ?_
              exact .inr (hmatched.symm.imp_right fun heq => congrArg some heq.symm)
            · rw [if_neg hmatched] at htemplate
              rw [p.matchesPath_of_matchedText htemplate]
              have hother : some uri ≠ some target := fun heq =>
                hmatched (.inl (Option.some.inj heq).symm)
              simp only [hother, or_false]
  · rw [if_neg hparameter] at htemplate ⊢
    exact p.matchesPath_of_matchedText htemplate

end

/-- A pattern is returned when it is the target or covers it, or its template gives it back. -/
theorem returned_iff : p.Returned target ↔
    if p.HasParameter then ∃ result, Builds p.text target false (.ok result) ∧
      (target = p.text ∨ p.covers target = true ∨ result = some target)
    else target = p.text ∨ p.covers target = true := by
  rw [Returned]
  simp only [matchesPath_iff]
  by_cases hparameter : p.HasParameter
  · simp only [if_pos hparameter]
    constructor
    · rintro ⟨fuel, result, hbuild, hresult⟩
      exact ⟨result, builds_of_eq hbuild, hresult⟩
    · rintro ⟨result, ⟨fuel, hbuild⟩, hresult⟩
      exact ⟨0 + fuel, result, hbuild 0, hresult⟩
  · simp only [if_neg hparameter, exists_const]

/-! ## When a pattern is found, by its kind -/

section

variable {p}

theorem segmentsOf_text (htail : p.tail = .exact) :
    segmentsOf p.text = p.segments.map Segment.text := by
  rw [text, tailText, htail, List.append_nil, directory]
  refine segmentsOf_render (fun hnil => ?_) slash_not_mem_texts
  exact p.nonempty (List.map_eq_nil_iff.mp hnil) htail

theorem filled_text (htail : p.tail = .exact) : p.filled p.text = p.text ∧
    p.ParametersFilled p.text := by
  rw [filled, ParametersFilled, segmentsOf_text htail, (fill_texts p.segments).1, text, tailText,
    htail, List.append_nil, directory]
  exact ⟨rfl, (fill_texts p.segments).2⟩

theorem suffixSegments_of_exact (htail : p.tail = .exact) : p.suffixSegments = [] := by
  rw [suffixSegments, htail]

theorem suffixSegments_of_below (htail : p.tail = .below) : p.suffixSegments = [] := by
  rw [suffixSegments, htail]

theorem noLonger_of_exact (h : target.head? = some slash) (htail : p.tail = .exact)
    (hparameter : p.HasParameter) (hequal : target = p.filled target)
    (hfilled : p.ParametersFilled target) : p.NoLonger target := by
  have hdenotes := (denotes_exact_iff h htail).mpr ⟨hequal, hfilled⟩
  rw [Denotes, htail] at hdenotes
  have hsegments := (forall₂_denotes_iff.mp hdenotes).1
  exact noLonger_of_filled h hparameter (suffixSegments_of_exact htail)
    ⟨[], by rw [List.append_nil, ← hsegments]⟩ hfilled

theorem returned_exact_iff (h : target.head? = some slash) (htail : p.tail = .exact) :
    p.Returned target ↔ target = p.text ∨
      p.HasParameter ∧ p.NoLonger target ∧ target <+: p.filled target ∧
        target.getLast? ≠ some nul := by
  have hcovers : p.covers target = false := by rw [covers, htail]
  rw [returned_iff, hcovers]
  by_cases hparameter : p.HasParameter
  · obtain ⟨literals, name, plain, qs, hp, hliterals⟩ := exists_first_parameter hparameter
    rw [if_pos hparameter, and_iff_right hparameter, ← builds_exact hp hliterals h htail]
    simp only [Bool.false_eq_true, false_or]
    constructor
    · rintro ⟨result, hbuilds, heq | rfl⟩
      · exact .inl heq
      · exact .inr hbuilds
    · rintro (heq | hbuilds)
      · -- the text of the pattern is a target that it fills
        have hfilled := filled_text htail
        rw [← heq] at hfilled
        have hbegin : target <+: p.filled target := hfilled.1.symm ▸ List.prefix_rfl
        obtain ⟨r, rs, e, i, matchingUri, hentered⟩ := exists_entered hp hliterals
          (enters_of_comparable hp hliterals h
            (noLonger_of_exact h htail hparameter hfilled.1.symm hfilled.2) (.inl hbegin))
        exact ⟨_, hentered.builds_of_isPrefix hp hliterals hbegin, .inl heq⟩
      · exact ⟨_, hbuilds, .inr rfl⟩
  · rw [if_neg hparameter]
    simp only [hparameter, false_and, or_false, Bool.false_eq_true]

theorem returned_below_iff (h : target.head? = some slash) (htail : p.tail = .below) :
    p.Returned target ↔ (p.HasParameter → p.NoLonger target) ∧
      (p.filled target <+: target ∨ p.HasParameter ∧ target <+: p.filled target) := by
  have hcovered : target = p.text ∨ p.covers target = true ↔ p.directory <+: target := by
    rw [covers, htail]
    dsimp only
    rw [List.isPrefixOf_iff_prefix, text]
    exact or_iff_right_of_imp fun heq => heq ▸ List.prefix_append _ _
  rw [returned_iff]
  simp only [← or_assoc, hcovered]
  by_cases hparameter : p.HasParameter
  · obtain ⟨literals, name, plain, qs, hp, hliterals⟩ := exists_first_parameter hparameter
    have hbuilds := builds_below hp hliterals h htail
    rw [if_pos hparameter]
    simp only [hparameter, true_and, true_imp_iff]
    rw [or_comm, ← hbuilds]
    constructor
    · rintro ⟨result, hresult, hbegin | rfl⟩
      · exact hbuilds.mpr ⟨noLonger_of_directory h hparameter (suffixSegments_of_below htail)
          hbegin, .inr (filled_prefix_of_directory h hbegin)⟩
      · exact hresult
    · exact fun hresult => ⟨_, hresult, .inr rfl⟩
  · rw [if_neg hparameter, filled_eq_directory hparameter]
    simp only [hparameter, false_and, or_false, false_imp_iff, true_and]

theorem expandable_of_literals (h : ¬ p.HasParameter) : Expandable p.text target false := by
  intro index hindex
  have hnone : indexOf openBrace p.text 0 = none :=
    indexOf_eq_none fun hmem => h (p.isTemplate_iff.mp (decide_eq_true hmem))
  rw [hnone] at hindex
  cases hindex

theorem exists_builds_iff : (∃ result, Builds p.text target false (.ok result)) ↔
    Expandable p.text target false := by
  rw [← exists_build_iff]
  constructor
  · rintro ⟨result, fuel, hbuild⟩
    exact ⟨0 + fuel, result, hbuild 0⟩
  · rintro ⟨fuel, result, hbuild⟩
    exact ⟨result, builds_of_eq hbuild⟩

theorem returned_suffix_iff {extension : Text} {plain : Plain extension}
    (h : target.head? = some slash) (htail : p.tail = .suffix extension plain) :
    p.Returned target ↔
      ((dot :: extension) <:+ target ∧ Expandable p.text target false) ∨
        (¬ (dot :: extension) <:+ target ∧ p.HasParameter ∧ p.FilledBelow target) := by
  have hcovered : target = p.text ∨ p.covers target = true ↔ (dot :: extension) <:+ target := by
    rw [covers, htail]
    dsimp only
    rw [List.isSuffixOf_iff_suffix]
    refine or_iff_right_of_imp fun heq => ?_
    rw [heq, ← drop_extension htail]
    exact List.drop_suffix _ _
  rw [returned_iff]
  simp only [← or_assoc, hcovered]
  by_cases hends : (dot :: extension) <:+ target
  · simp only [hends, true_or, and_true, true_and, not_true, false_and, or_false]
    by_cases hparameter : p.HasParameter
    · rw [if_pos hparameter, exists_builds_iff]
    · rw [if_neg hparameter]
      exact iff_of_true trivial (expandable_of_literals hparameter)
  · simp only [hends, false_or, not_false_eq_true, true_and, false_and]
    by_cases hparameter : p.HasParameter
    · obtain ⟨literals, name, plain', qs, hp, hliterals⟩ := exists_first_parameter hparameter
      rw [if_pos hparameter, and_iff_right hparameter, ← builds_suffix hp hliterals h htail]
      constructor
      · rintro ⟨result, hbuilds, rfl⟩
        exact hbuilds
      · exact fun hbuilds => ⟨_, hbuilds, rfl⟩
    · rw [if_neg hparameter]
      simp only [hparameter, false_and]

/-! ## When a pattern is found for what it denotes -/

theorem expandable_of_below {extension : Text} {plain : Plain extension}
    (h : target.head? = some slash) (htail : p.tail = .suffix extension plain)
    (hends : (dot :: extension) <:+ target) (hbelow : p.filled target ++ [slash] <+: target) :
    Expandable p.text target false := by
  by_cases hparameter : p.HasParameter
  · obtain ⟨literals, name, plain', qs, hp, hliterals⟩ := exists_first_parameter hparameter
    have hno := noLonger_of_below h htail hparameter hends hbelow
    obtain ⟨r, rs, e, i, matchingUri, hentered⟩ := exists_entered hp hliterals
      (enters_of_comparable hp hliterals h hno (.inr ((List.prefix_append _ _).trans hbelow)))
    obtain ⟨last, hleft, hsame⟩ := hentered.exists_slashesLeft hp hliterals htail hno hbelow
    -- there is no slash at the end of the target
    have htrim := length_trim_of_getLast h (getLast?_of_extension plain hends)
    rw [hentered.length_trim (Nat.zero_lt_of_lt (hentered.lt_length_params hp htail hno)),
      hentered.segmentsEq, List.length_append, List.length_map, Nat.add_left_cancel_iff] at htrim
    rw [htrim, Nat.sub_self] at hleft
    have htarget := hleft.target
    rw [List.replicate_zero, List.append_nil] at htarget
    exact exists_builds_iff.mp ⟨_, (hentered.builds _).mpr ((hsame _).mpr
      (Expansion.yields_full _ _ (by rw [hleft.size, htarget])))⟩
  · exact expandable_of_literals hparameter

theorem exact_denoted_iff (h : target.head? = some slash) (htail : p.tail = .exact) :
    (p.Returned target ↔ p.Denotes target) ↔ ¬ p.Misread target := by
  rw [returned_exact_iff h htail, denotes_exact_iff h htail]
  constructor
  · intro hiff hmisread
    cases hmisread with
    | cutShort parameter noLonger front shorter tail =>
        rcases tail with tail | ⟨-, hlast⟩
        · cases htail.symm.trans tail
        · exact shorter (hiff.mp (.inr ⟨parameter, noLonger, front, hlast⟩)).1
    | emptyParameter noLonger tail empty =>
        rcases tail with ⟨tail, -⟩ | ⟨-, hequal, hlast⟩
        · cases htail.symm.trans tail
        · exact empty (hiff.mp (.inr ⟨hasParameter_of_not_filled empty, noLonger,
            hequal ▸ List.prefix_rfl, hlast⟩)).2
    | offBoundary tail => cases htail.symm.trans tail
    | nullCharacter tail parameter equal filled last changed =>
        rcases hiff.mpr ⟨equal, filled⟩ with heq | ⟨-, -, -, hlast⟩
        · exact changed heq
        · exact hlast last
    | elsewhere extension plain tail => cases htail.symm.trans tail
    | otherExtension extension plain tail => cases htail.symm.trans tail
  · intro hnot
    constructor
    · rintro (heq | ⟨hparameter, hno, hbegin, hlast⟩)
      · have hfilled := filled_text htail
        rw [← heq] at hfilled
        exact ⟨hfilled.1.symm, hfilled.2⟩
      · have hequal : target = p.filled target := by
          by_contra hne
          exact hnot (.cutShort hparameter hno hbegin hne (.inr ⟨htail, hlast⟩))
        refine ⟨hequal, ?_⟩
        by_contra hempty
        exact hnot (.emptyParameter hno (.inr ⟨htail, hequal, hlast⟩) hempty)
    · rintro ⟨hequal, hfilled⟩
      by_cases htext : target = p.text
      · exact .inl htext
      have hparameter : p.HasParameter := by
        by_contra hnone
        rw [filled_eq_directory hnone] at hequal
        exact htext (by rw [hequal, text, tailText, htail, List.append_nil])
      refine .inr ⟨hparameter, noLonger_of_exact h htail hparameter hequal hfilled,
        hequal ▸ List.prefix_rfl, fun hlast => ?_⟩
      exact hnot (.nullCharacter htail hparameter hequal hfilled hlast htext)

theorem below_denoted_iff (h : target.head? = some slash) (htail : p.tail = .below) :
    (p.Returned target ↔ p.Denotes target) ↔ ¬ p.Misread target := by
  rw [returned_below_iff h htail]
  have hdenotes := denotes_below_iff h htail
  constructor
  · intro hiff hmisread
    cases hmisread with
    | cutShort parameter noLonger front shorter tail =>
        obtain ⟨⟨rest, hrest, -⟩, -⟩ :=
          hdenotes.mp (hiff.mp ⟨fun _ => noLonger, .inr ⟨parameter, front⟩⟩)
        exact shorter (front.eq_of_length_le (List.IsPrefix.length_le ⟨rest, hrest.symm⟩))
    | emptyParameter noLonger tail empty =>
        rcases tail with ⟨-, hfront⟩ | ⟨tail, -⟩
        · exact empty (hdenotes.mp (hiff.mp ⟨fun _ => noLonger, .inl hfront⟩)).2
        · cases htail.symm.trans tail
    | offBoundary tail noLonger front within =>
        obtain ⟨⟨rest, hrest, hboundary⟩, -⟩ := hdenotes.mp (hiff.mp ⟨noLonger, .inl front⟩)
        have hdrop : target.drop (p.filled target).length = rest :=
          (congrArg (List.drop (p.filled target).length) hrest).trans List.drop_left
        exact within (hdrop ▸ hboundary)
    | nullCharacter tail => cases htail.symm.trans tail
    | elsewhere extension plain tail => cases htail.symm.trans tail
    | otherExtension extension plain tail => cases htail.symm.trans tail
  · intro hnot
    constructor
    · rintro ⟨hno, hfront⟩
      have hbegin : p.filled target <+: target := by
        rcases hfront with hbegin | ⟨hparameter, hbegin⟩
        · exact hbegin
        · have hequal : target = p.filled target := by
            by_contra hne
            exact hnot (.cutShort hparameter (hno hparameter) hbegin hne (.inl htail))
          exact hequal ▸ List.prefix_rfl
      refine hdenotes.mpr ⟨⟨target.drop (p.filled target).length, ?_, ?_⟩, ?_⟩
      · exact (List.prefix_iff_eq_append.mp hbegin).symm
      · by_contra hwithin
        exact hnot (.offBoundary htail hno hbegin hwithin)
      · by_contra hempty
        exact hnot (.emptyParameter (hno (hasParameter_of_not_filled hempty))
          (.inl ⟨htail, hbegin⟩) hempty)
    · intro hdenoted
      have htake := hdenoted
      rw [Denotes, htail] at htake
      obtain ⟨hfill, hfilled⟩ := take_denotes_iff.mp htake
      obtain ⟨⟨rest, hrest, -⟩, -⟩ := hdenotes.mp hdenoted
      exact ⟨fun hparameter => noLonger_of_filled h hparameter (suffixSegments_of_below htail)
        hfill hfilled, .inl ⟨rest, hrest.symm⟩⟩

theorem suffix_denoted_iff {extension : Text} {plain : Plain extension}
    (h : target.head? = some slash) (htail : p.tail = .suffix extension plain) :
    (p.Returned target ↔ p.Denotes target) ↔ ¬ p.Misread target := by
  rw [returned_suffix_iff h htail, denotes_suffix_iff h htail]
  constructor
  · intro hiff hmisread
    cases hmisread with
    | cutShort parameter noLonger front shorter tail =>
        rcases tail with tail | ⟨tail, -⟩ <;> cases htail.symm.trans tail
    | emptyParameter noLonger tail =>
        rcases tail with ⟨tail, -⟩ | ⟨tail, -⟩ <;> cases htail.symm.trans tail
    | offBoundary tail => cases htail.symm.trans tail
    | nullCharacter tail => cases htail.symm.trans tail
    | elsewhere extension' plain' tail ends expandable outside =>
        cases htail.symm.trans tail
        exact outside (hiff.mp (.inl ⟨ends, expandable⟩)).1
    | otherExtension extension' plain' tail parameter ends below =>
        cases htail.symm.trans tail
        exact ends (hiff.mp (.inr ⟨ends, parameter, below⟩)).2
  · intro hnot
    constructor
    · rintro (⟨hends, hexpandable⟩ | ⟨hends, hparameter, hbelow⟩)
      · refine ⟨?_, hends⟩
        by_contra houtside
        exact hnot (.elsewhere extension plain htail hends hexpandable houtside)
      · exact absurd (.otherExtension extension plain htail hparameter hends hbelow) hnot
    · rintro ⟨⟨hbelow, hfilled⟩, hends⟩
      exact .inl ⟨hends, expandable_of_below h htail hends hbelow⟩

/-- A pattern that is the only path is found for exactly what it denotes, at every target that is
not misread. -/
theorem returned_denoted_iff (p : Pattern) (target : Text) (h : target.head? = some slash) :
    (p.Returned target ↔ p.Denotes target) ↔ ¬ p.Misread target := by
  cases htail : p.tail with
  | exact => exact exact_denoted_iff h htail
  | below => exact below_denoted_iff h htail
  | suffix extension plain => exact suffix_denoted_iff h htail

end

end Pattern

/-! ## Everything below a directory -/

def everythingBelowA : Pattern where
  segments := [.literal (text "a") (by decide)]
  tail := .below
  nonempty h := by cases h

/-- `/a/*` is found for a path below the directory. -/
theorem below_a_not_misread : ¬ everythingBelowA.Misread (text "/a/b/c") :=
  (Pattern.returned_denoted_iff everythingBelowA (text "/a/b/c") rfl).mp
    ⟨fun _ => .cons rfl .nil, fun _ => ⟨0, rfl⟩⟩

/-- `/a/*` is found for `/abc`, which is not in the directory. -/
theorem abc_not_denoted : ¬ (everythingBelowA.Returned (text "/abc") ↔
    everythingBelowA.Denotes (text "/abc")) := by
  intro h
  have hdenoted : List.Forall₂ Segment.Denotes everythingBelowA.segments [text "abc"] :=
    h.mp ⟨0, rfl⟩
  cases hdenoted with
  | cons hfirst _ =>
      have hequal : text "abc" = text "a" := hfirst
      exact absurd hequal (by decide)

end Keycloak.PathMatcher
