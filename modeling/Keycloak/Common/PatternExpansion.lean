import Keycloak.Common.TemplateSegments

/-!
# The expansion of a pattern

The call of `buildUriFromTemplate` for a pattern with a parameter: when the loop is entered, where
it stands behind the first parameter, and when it gives back the target itself.
-/

namespace Keycloak.PathMatcher

namespace Segment

theorem wildcard_not_mem (s : Segment) : wildcard ∉ s.text := by
  cases s with
  | literal text plain => exact plain.noWildcard
  | parameter name plain =>
      rw [text, List.cons_append, List.mem_cons, List.mem_append, List.mem_singleton]
      rintro (h | h | h)
      · exact absurd h (by decide)
      · exact plain.noWildcard h
      · exact absurd h (by decide)

theorem slash_not_mem (s : Segment) : slash ∉ s.text := by
  cases s with
  | literal text plain => exact plain.noSlash
  | parameter name plain =>
      rw [text, List.cons_append, List.mem_cons, List.mem_append, List.mem_singleton]
      rintro (h | h | h)
      · exact absurd h (by decide)
      · exact plain.noSlash h
      · exact absurd h (by decide)

theorem openBrace_not_mem {s : Segment} (h : s.isParameter = false) : openBrace ∉ s.text := by
  cases s with
  | literal text plain => exact plain.noOpenBrace
  | parameter name plain => cases h

end Segment

theorem not_mem_render {c : UInt16} {segments : List Text} (hc : c ≠ slash)
    (h : ∀ s ∈ segments, c ∉ s) : c ∉ render segments := by
  rw [render, List.mem_flatMap]
  rintro ⟨s, hs, hmem⟩
  exact (List.mem_cons.mp hmem).elim hc (h s hs)

theorem slash_not_mem_texts {segments : List Segment} :
    ∀ t ∈ segments.map Segment.text, slash ∉ t := by
  intro t ht
  obtain ⟨s, -, rfl⟩ := List.mem_map.mp ht
  exact s.slash_not_mem

namespace Pattern

open Expansion

variable (p : Pattern)

theorem wildcard_not_mem_directory : wildcard ∉ p.directory := by
  refine not_mem_render (by decide) fun t ht => ?_
  obtain ⟨s, -, rfl⟩ := List.mem_map.mp ht
  exact s.wildcard_not_mem

def suffixSegments : List Text :=
  match p.tail with
  | .suffix extension _ => [wildcard :: dot :: extension]
  | _ => []

theorem slash_not_mem_suffixSegments : ∀ s ∈ p.suffixSegments, slash ∉ s := by
  intro s hs
  rw [suffixSegments] at hs
  split at hs
  · rename_i extension plain _
    rw [List.mem_singleton.mp hs, List.mem_cons, List.mem_cons]
    rintro (h | h | h)
    · exact absurd h (by decide)
    · exact absurd h (by decide)
    · exact plain.noSlash h
  · exact absurd hs List.not_mem_nil

theorem getLast?_suffix {extension : Text} (plain : Plain extension) (front : Text) :
    (front ++ slash :: wildcard :: dot :: extension).getLast? ≠ some wildcard := by
  have hsplit : front ++ slash :: wildcard :: dot :: extension =
      (front ++ [slash, wildcard]) ++ (dot :: extension) := by
    rw [List.append_assoc]
    rfl
  rw [hsplit, List.getLast?_append_of_ne_nil _ (List.cons_ne_nil _ _)]
  intro h
  rcases List.mem_cons.mp (List.mem_of_getLast? h) with h | h
  · exact absurd h (by decide)
  · exact plain.noWildcard h

/-- Only a pattern for everything below ends in a wildcard. -/
theorem getLast?_text : p.text.getLast? = some wildcard ↔ p.tail = .below := by
  rw [text, tailText]
  cases htail : p.tail with
  | exact =>
      refine iff_of_false (fun h => ?_) (fun h => by cases h)
      rw [List.append_nil] at h
      exact p.wildcard_not_mem_directory (List.mem_of_getLast? h)
  | below =>
      refine iff_of_true ?_ rfl
      rw [List.getLast?_append_of_ne_nil _ (List.cons_ne_nil _ _)]
      rfl
  | suffix extension plain =>
      exact iff_of_false (getLast?_suffix plain _) (fun h => by cases h)

theorem withoutWildcard_text :
    withoutWildcard p.text = p.directory ++ render p.suffixSegments := by
  have hpattern : PathMatcher.text "/*" = [slash, wildcard] := rfl
  rw [withoutWildcard, hpattern]
  by_cases hbelow : p.tail = .below
  · have htext : p.text = p.directory ++ [slash, wildcard] := by rw [text, tailText, hbelow]
    have hsuffix : p.suffixSegments = [] := by rw [suffixSegments, hbelow]
    rw [hsuffix, render_nil, htext,
      if_pos (List.isSuffixOf_iff_suffix.mpr (List.suffix_append _ _)),
      List.length_append, List.append_nil]
    exact List.take_left
  · have hlast : ¬ [slash, wildcard].isSuffixOf p.text = true := by
      intro h
      obtain ⟨front, hfront⟩ := List.isSuffixOf_iff_suffix.mp h
      refine hbelow (p.getLast?_text.mp ?_)
      rw [← hfront, List.getLast?_append_of_ne_nil _ (List.cons_ne_nil _ _)]
      rfl
    rw [if_neg hlast, text, suffixSegments, tailText]
    cases htail : p.tail with
    | exact => rfl
    | below => exact absurd htail hbelow
    | suffix extension plain =>
        dsimp only
        rw [render_cons, render_nil, List.append_nil]

/-! ## The first parameter -/

theorem exists_first_parameter {segments : List Segment}
    (h : ∃ s ∈ segments, s.isParameter = true) :
    ∃ literals name plain qs, segments = literals ++ .parameter name plain :: qs ∧
      ∀ s ∈ literals, s.isParameter = false := by
  induction segments with
  | nil =>
      obtain ⟨s, hs, -⟩ := h
      exact absurd hs List.not_mem_nil
  | cons s segments ih =>
      cases s with
      | parameter name plain =>
          exact ⟨[], name, plain, segments, rfl, fun t ht => absurd ht List.not_mem_nil⟩
      | literal text plain =>
          obtain ⟨t, ht, hparameter⟩ := h
          have hmem : t ∈ segments := by
            rcases List.mem_cons.mp ht with rfl | hmem
            · cases hparameter
            · exact hmem
          obtain ⟨literals, name, plain', qs, heq, hliterals⟩ := ih ⟨t, hmem, hparameter⟩
          refine ⟨.literal text plain :: literals, name, plain', qs, by rw [heq]; rfl, ?_⟩
          intro u hu
          rcases List.mem_cons.mp hu with rfl | hu
          · rfl
          · exact hliterals u hu

def front (literals : List Segment) : Text := render (literals.map Segment.text) ++ [slash]

section

variable {p : Pattern} {literals qs : List Segment} {name target : Text} {plain : Plain name}

theorem directory_eq (hp : p.segments = literals ++ .parameter name plain :: qs) :
    p.directory = front literals ++
      (openBrace :: name ++ [closeBrace] ++ render (qs.map Segment.text)) := by
  rw [directory, hp, List.map_append, List.map_cons, render_append, render_cons, front,
    List.append_assoc (render _) [slash]]
  rfl

theorem expectedUri_eq (hp : p.segments = literals ++ .parameter name plain :: qs) :
    withoutWildcard p.text = front literals ++
      (openBrace :: name ++ [closeBrace] ++
        (render (qs.map Segment.text) ++ render p.suffixSegments)) := by
  rw [withoutWildcard_text, directory_eq hp, List.append_assoc, List.append_assoc]

theorem openBrace_not_mem_front (hliterals : ∀ s ∈ literals, s.isParameter = false) :
    openBrace ∉ front literals := by
  rw [front, List.mem_append, List.mem_singleton]
  rintro (h | h)
  · refine not_mem_render (by decide) (fun t ht => ?_) h
    obtain ⟨s, hs, rfl⟩ := List.mem_map.mp ht
    exact Segment.openBrace_not_mem (hliterals s hs)
  · exact absurd h (by decide)

theorem indexOf_openBrace (hp : p.segments = literals ++ .parameter name plain :: qs)
    (hliterals : ∀ s ∈ literals, s.isParameter = false) :
    indexOf openBrace p.text 0 = some (front literals).length := by
  have htext : p.text.drop 0 = front literals ++ openBrace ::
      (name ++ [closeBrace] ++ render (qs.map Segment.text) ++ p.tailText) := by
    rw [List.drop_zero, text, directory_eq hp, List.append_assoc]
    rfl
  rw [indexOf_eq_some htext (openBrace_not_mem_front hliterals), Nat.zero_add]

structure Enters (p : Pattern) (literals : List Segment) (target : Text) : Prop where
  noLonger : p.NoLonger target
  long : (front literals).length < target.length
  front : front literals <+: target

theorem build_of_not_enters (hp : p.segments = literals ++ .parameter name plain :: qs)
    (hliterals : ∀ s ∈ literals, s.isParameter = false) (h : ¬ Enters p literals target)
    (fuel : Nat) : buildUriFromTemplate fuel p.text target false = .ok none := by
  rw [buildUriFromTemplate]
  simp only [indexOf_openBrace hp hliterals]
  by_cases hshort : target.length ≤ (front literals).length
  · rw [dif_pos hshort]
  rw [dif_neg hshort]
  by_cases hsegments : (split target).length < (split (withoutWildcard p.text)).length
  · rw [if_pos hsegments]
  rw [if_neg hsegments]
  refine if_neg fun hequal => h ⟨Nat.not_lt.mp hsegments, Nat.not_le.mp hshort, ?_⟩
  rw [expectedUri_eq hp, List.take_left] at hequal
  exact List.prefix_iff_eq_take.mpr hequal

theorem enters_of_builds {uri : Text} (hp : p.segments = literals ++ .parameter name plain :: qs)
    (hliterals : ∀ s ∈ literals, s.isParameter = false)
    (h : Builds p.text target false (.ok (some uri))) : Enters p literals target := by
  by_contra henters
  obtain ⟨k, hk⟩ := h
  have hnone := hk 0
  rw [build_of_not_enters hp hliterals henters] at hnone
  cases hnone

theorem build_of_enters (hp : p.segments = literals ++ .parameter name plain :: qs)
    (hliterals : ∀ s ∈ literals, s.isParameter = false) (h : Enters p literals target) :
    ∃ matchingUri : Buffer, matchingUri.size = target.length ∧
      matchingUri.written = front literals ∧
      ∀ fuel, buildUriFromTemplate fuel p.text target false =
        (expansion p.text target false (front literals).length).loop fuel
          (front literals).length 0 matchingUri := by
  have hfront : (withoutWildcard p.text).take (front literals).length = front literals := by
    rw [expectedUri_eq hp, List.take_left]
  refine ⟨⟨target.length, (withoutWildcard p.text).take (front literals).length,
    (List.length_take_le _ _).trans (Nat.le_of_lt h.long)⟩, rfl, hfront, fun fuel => ?_⟩
  rw [buildUriFromTemplate]
  simp only [indexOf_openBrace hp hliterals]
  rw [dif_neg (Nat.not_le.mpr h.long), if_neg (Nat.not_lt.mpr h.noLonger)]
  refine if_pos ?_
  rw [hfront]
  exact List.prefix_iff_eq_take.mp h.front

theorem withoutWildcard_eq_render : withoutWildcard p.text =
    render (p.segments.map Segment.text ++ p.suffixSegments) := by
  rw [withoutWildcard_text, directory, render_append]

theorem front_append (r : Text) (rs : List Text) :
    front literals ++ (r ++ render rs) = render (literals.map Segment.text ++ r :: rs) := by
  rw [front, render_append, render_cons, List.append_assoc (render _) [slash],
    List.singleton_append, List.cons_append]

theorem Enters.head?_target (h : Enters p literals target) : target.head? = some slash := by
  obtain ⟨rest, hrest⟩ := h.front
  rw [← hrest, Pattern.front]
  cases literals <;> rfl

theorem exists_segments_of_enters (h : Enters p literals target) :
    ∃ r rs, target = front literals ++ (r ++ render rs) ∧ slash ∉ r ∧ (∀ s ∈ rs, slash ∉ s) ∧
      segmentsOf target = literals.map Segment.text ++ r :: rs := by
  obtain ⟨rest, hrest⟩ := h.front
  obtain ⟨r, rs, heq, hr, hrs⟩ := exists_segments rest
  have htarget : target = front literals ++ (r ++ render rs) := by rw [← heq, hrest]
  refine ⟨r, rs, htarget, hr, hrs, ?_⟩
  rw [htarget, front_append]
  refine segmentsOf_render (List.append_ne_nil_of_right_ne_nil _ (List.cons_ne_nil _ _)) ?_
  intro s hs
  rcases List.mem_append.mp hs with hs | hs
  · exact slash_not_mem_texts s hs
  · rcases List.mem_cons.mp hs with rfl | hs
    · exact hr
    · exact hrs s hs

theorem slash_not_mem_all (p : Pattern) :
    ∀ t ∈ p.segments.map Segment.text ++ p.suffixSegments, slash ∉ t := by
  intro t ht
  rcases List.mem_append.mp ht with ht | ht
  · exact slash_not_mem_texts t ht
  · exact p.slash_not_mem_suffixSegments t ht

theorem noLonger_iff (hne : p.segments.map Segment.text ++ p.suffixSegments ≠ [])
    (htarget : target.head? = some slash) : p.NoLonger target ↔
      (trim ([] :: (p.segments.map Segment.text ++ p.suffixSegments))).length ≤
        (trim ([] :: segmentsOf target)).length := by
  obtain ⟨segment, segments, hsegments, hrender, hfree⟩ := exists_segmentsOf htarget
  have hne' : segmentsOf target ≠ [] := hsegments ▸ List.cons_ne_nil _ _
  have hsplit := split_render hne' hfree
  rw [← hrender] at hsplit
  rw [NoLonger, withoutWildcard_eq_render, split_render hne p.slash_not_mem_all, hsplit]

theorem index_lt {r x : Text} {rs ys zs : List Text} (hno : p.NoLonger target)
    (htarget : target.head? = some slash)
    (hsegments : segmentsOf target = literals.map Segment.text ++ r :: rs) (hx : x ≠ [])
    (htexts : p.segments.map Segment.text ++ p.suffixSegments =
      literals.map Segment.text ++ (ys ++ x :: zs)) : ys.length < (trim (r :: rs)).length := by
  have hle := (noLonger_iff (by rw [htexts]; simp) htarget).mp hno
  rw [htexts, hsegments] at hle
  have hlt := lt_length_trim ([] :: (literals.map Segment.text ++ ys)) zs hx
  rw [List.cons_append, List.append_assoc] at hlt
  have hlength : ([] :: (literals.map Segment.text ++ ys)).length =
      ([] :: literals.map Segment.text).length + ys.length := by
    rw [List.length_cons, List.length_cons, List.length_append]
    omega
  have hkept : ([] :: literals.map Segment.text).length <
      (trim (([] :: literals.map Segment.text) ++ r :: rs)).length := by
    rw [List.cons_append]
    omega
  have hwhole := congrArg List.length (trim_append_of_lt hkept)
  rw [List.length_append, List.cons_append] at hwhole
  omega

theorem texts_eq (p : Pattern) (hp : p.segments = literals ++ .parameter name plain :: qs) :
    p.segments.map Segment.text ++ p.suffixSegments = literals.map Segment.text ++
      ([] ++ (Segment.parameter name plain).text :: (qs.map Segment.text ++ p.suffixSegments)) := by
  rw [hp, List.map_append, List.map_cons, List.append_assoc]
  rfl

theorem params_eq {r : Text} {rs : List Text}
    (hp : p.segments = literals ++ .parameter name plain :: qs) (hno : p.NoLonger target)
    (hslash : target.head? = some slash) (hr : slash ∉ r) (hrs : ∀ s ∈ rs, slash ∉ s)
    (hsegments : segmentsOf target = literals.map Segment.text ++ r :: rs)
    (htarget : target = front literals ++ (r ++ render rs)) :
    split (target.drop (front literals).length) = trim (r :: rs) := by
  rw [htarget, List.drop_left, split_eq hr hrs]
  split
  · rename_i hnil
    subst hnil
    have hlt := index_lt hno hslash hsegments (List.cons_ne_nil _ _) (texts_eq p hp)
    have hbegin : trim [r] <+: [r] := List.rdropWhile_prefix _ _
    exact (hbegin.eq_of_length_le hlt).symm
  · rfl

theorem takesAll_fill {e : Expansion} {rs : List Text} {k : Nat}
    (h : ∀ segments name plain more, qs = segments ++ .parameter name plain :: more →
      e.copied false (k + segments.length) = some ((rs.drop segments.length).headD [])) :
    e.TakesAll k qs (fill qs rs) := by
  induction qs generalizing rs k with
  | nil => trivial
  | cons s qs ih =>
      have hrest : e.TakesAll (k + 1) qs (fill qs rs.tail) := by
        refine ih fun segments name plain more heq => ?_
        have hnext := h (s :: segments) name plain more (by rw [heq]; rfl)
        rw [List.length_cons, Nat.add_comm segments.length, ← Nat.add_assoc] at hnext
        rw [hnext, ← List.drop_one, List.drop_drop]
      cases s with
      | literal text plain => exact ⟨rfl, hrest⟩
      | parameter name plain =>
          have hfirst := h [] name plain qs rfl
          rw [List.length_nil, Nat.add_zero, List.drop_zero] at hfirst
          exact ⟨hfirst, hrest⟩

theorem copied_of_lt {e : Expansion} {r : Text} {rs : List Text} {k : Nat}
    (hparams : e.params = trim (r :: rs)) (hk : k < (trim (r :: rs)).length) :
    e.copied false k = some (((r :: rs).drop k).headD []) := by
  have hbegin : trim (r :: rs) <+: r :: rs := List.rdropWhile_prefix _ _
  have hlt := Nat.lt_of_lt_of_le hk hbegin.length_le
  rw [Expansion.copied, if_neg Bool.false_ne_true, hparams, if_neg (Nat.ne_of_lt hk),
    List.getElem?_eq_getElem hk, hbegin.getElem hk, List.drop_eq_getElem_cons hlt,
    List.headD_cons]

structure Entered (p : Pattern) (literals qs : List Segment) (target r : Text) (rs : List Text)
    (e : Expansion) (i : Nat) (matchingUri : Buffer) : Prop where
  targetEq : target = front literals ++ (r ++ render rs)
  first : slash ∉ r
  others : ∀ s ∈ rs, slash ∉ s
  segmentsEq : segmentsOf target = literals.map Segment.text ++ r :: rs
  expansion : e = PathMatcher.expansion p.text target false (front literals).length
  params : e.params = trim (r :: rs)
  size : matchingUri.size = e.targetUri.length
  written : matchingUri.written = front literals ++ r
  drop : e.expectedUri.drop i = render (qs.map Segment.text) ++ render p.suffixSegments
  takes : e.TakesAll 1 qs (fill qs rs)
  builds : ∀ outcome, Builds p.text target false outcome ↔ e.Yields i 0 matchingUri outcome

theorem exists_entered (hp : p.segments = literals ++ .parameter name plain :: qs)
    (hliterals : ∀ s ∈ literals, s.isParameter = false) (h : Enters p literals target) :
    ∃ r rs e i matchingUri, Entered p literals qs target r rs e i matchingUri := by
  obtain ⟨r, rs, htarget, hr, hrs, hsegments⟩ := exists_segments_of_enters h
  have hslash := h.head?_target
  have hparams := params_eq hp h.noLonger hslash hr hrs hsegments htarget
  obtain ⟨matchingUri, hsize, hwritten, hbuild⟩ := build_of_enters hp hliterals h
  generalize he : PathMatcher.expansion p.text target false (front literals).length = e at hbuild
  have hexpected : e.expectedUri = front literals ++ (openBrace :: name ++ [closeBrace] ++
      (render (qs.map Segment.text) ++ render p.suffixSegments)) := by
    rw [← he]
    exact expectedUri_eq hp
  have hparams' : e.params = trim (r :: rs) := by
    rw [← he]
    exact hparams
  have hdrop : e.expectedUri.drop (front literals).length = openBrace :: name ++ [closeBrace] ++
      (render (qs.map Segment.text) ++ render p.suffixSegments) := by
    rw [hexpected, List.drop_left]
  have hall : e.onlyFirstParam = false := by rw [← he]; rfl
  have hfirst : e.copied false 0 = some r := by
    exact copied_of_lt hparams'
      (index_lt h.noLonger hslash hsegments (List.cons_ne_nil _ _) (texts_eq p hp))
  have htargetLength := congrArg List.length htarget
  rw [List.length_append, List.length_append] at htargetLength
  obtain ⟨matchingUri', hext, hsame⟩ := same_parameter hdrop plain hall hfirst (by
    rw [hwritten, hsize]
    omega)
  refine ⟨r, rs, e, (front literals).length + (name.length + 2), matchingUri', htarget, hr, hrs,
    hsegments, he.symm, hparams', ?_, ?_, ?_, ?_, fun outcome => ?_⟩
  · rw [hext.size, hsize, ← he]
    rfl
  · rw [hext.written, hwritten]
  · have hlength : (openBrace :: name ++ [closeBrace]).length = name.length + 2 := by
      rw [List.cons_append, List.length_cons, List.length_append, List.length_singleton]
    rw [← List.drop_drop, hdrop, ← hlength, List.drop_left]
  · refine takesAll_fill fun segments name' plain' more heq => ?_
    have htexts := texts_eq p hp
    rw [heq, List.map_append, List.map_cons, List.append_assoc, List.cons_append,
      ← List.cons_append, List.nil_append] at htexts
    have hlt := index_lt h.noLonger hslash hsegments (List.cons_ne_nil _ _) htexts
    rw [List.length_cons, List.length_map] at hlt
    rw [Nat.add_comm, copied_of_lt hparams' hlt, List.drop_succ_cons]
  · rw [← hsame outcome]
    constructor
    · rintro ⟨k, hk⟩
      exact ⟨k, fun fuel => by rw [← hbuild, hk]⟩
    · rintro ⟨k, hk⟩
      exact ⟨k, fun fuel => by rw [hbuild, hk]⟩

/-! ## When the target itself is given back -/

theorem fill_append (hliterals : ∀ s ∈ literals, s.isParameter = false) (more : List Segment)
    (segments : List Text) : fill (literals ++ more) segments =
      literals.map Segment.text ++ fill more (segments.drop literals.length) := by
  induction literals generalizing segments with
  | nil => rfl
  | cons s literals ih =>
      have hrest := ih (fun t ht => hliterals t (List.mem_cons_of_mem s ht)) segments.tail
      cases s with
      | parameter name plain => cases hliterals _ List.mem_cons_self
      | literal text plain =>
          rw [List.cons_append, fill, hrest, ← List.drop_one, List.drop_drop, List.length_cons,
            Nat.add_comm 1]
          rfl

theorem front_prefix_filled (hp : p.segments = literals ++ .parameter name plain :: qs)
    (hliterals : ∀ s ∈ literals, s.isParameter = false) :
    front literals <+: p.filled target := by
  rw [filled, hp, fill_append hliterals, fill, ← front_append]
  exact List.prefix_append _ _

theorem Entered.filled_eq {r : Text} {rs : List Text} {e : Expansion} {i : Nat}
    {matchingUri : Buffer} (h : Entered p literals qs target r rs e i matchingUri)
    (hp : p.segments = literals ++ .parameter name plain :: qs)
    (hliterals : ∀ s ∈ literals, s.isParameter = false) :
    p.filled target = matchingUri.written ++ render (fill qs rs) := by
  have hdrop : (literals.map Segment.text ++ r :: rs).drop literals.length = r :: rs := by
    rw [← List.length_map Segment.text, List.drop_left]
  rw [filled, hp, fill_append hliterals, h.segmentsEq, hdrop, fill, List.headD_cons,
    List.tail_cons, ← front_append, h.written, List.append_assoc]

theorem enters_of_comparable (hp : p.segments = literals ++ .parameter name plain :: qs)
    (hliterals : ∀ s ∈ literals, s.isParameter = false) (htarget : target.head? = some slash)
    (hno : p.NoLonger target)
    (h : target <+: p.filled target ∨ p.filled target <+: target) : Enters p literals target := by
  have hfront : front literals <+: p.filled target := front_prefix_filled hp hliterals
  by_cases hlong : (front literals).length < target.length
  · refine ⟨hno, hlong, ?_⟩
    rcases h with h | h
    · exact List.prefix_of_prefix_length_le hfront h (Nat.le_of_lt hlong)
    · exact hfront.trans h
  · have hshort : target <+: front literals := by
      rcases h with h | h
      · exact List.prefix_of_prefix_length_le h hfront (Nat.not_lt.mp hlong)
      · have heq := (hfront.trans h).eq_of_length_le (Nat.not_lt.mp hlong)
        exact heq ▸ List.prefix_refl _
    obtain ⟨segment, segments, -, hrender, hfree⟩ := exists_segmentsOf htarget
    have hfront' : front literals = render (literals.map Segment.text ++ [[]]) := by
      rw [render_append, front]
      rfl
    have hfree' : ∀ t ∈ literals.map Segment.text ++ [[]], slash ∉ t := by
      intro t ht
      rcases List.mem_append.mp ht with ht | ht
      · exact slash_not_mem_texts t ht
      · rw [List.mem_singleton.mp ht]
        exact List.not_mem_nil
    have hle : (trim ([] :: segmentsOf target)).length ≤
        (trim ([] :: (literals.map Segment.text ++ [[]]))).length := by
      refine length_trim_mono fun i s hs hne => ?_
      cases i with
      | zero =>
          cases hs
          exact absurd rfl hne
      | succ i =>
          rw [hrender, hfront'] at hshort
          obtain ⟨s', hs', hbegin⟩ := segments_of_isPrefix hfree hfree' hshort hs
          exact ⟨s', hs', fun hnil => hne (List.prefix_nil.mp (hnil ▸ hbegin))⟩
    have hno' := (noLonger_iff (by rw [texts_eq p hp]; simp) htarget).mp hno
    rw [texts_eq p hp, List.nil_append] at hno'
    have hlt := lt_length_trim ([] :: literals.map Segment.text)
      (qs.map Segment.text ++ p.suffixSegments)
      (List.cons_ne_nil openBrace (name ++ [closeBrace]))
    have hshorter : (trim ([] :: (literals.map Segment.text ++ [[]]))).length ≤
        ([] :: literals.map Segment.text).length := by
      rw [← List.cons_append, trim_append]
      exact length_trim_le _
    have hsame : (Segment.parameter name plain).text = openBrace :: (name ++ [closeBrace]) := rfl
    rw [hsame] at hno'
    rw [List.cons_append] at hlt
    omega

theorem finish_of_whole {e : Expansion} {matchingUri : Buffer}
    (hsize : matchingUri.size = e.targetUri.length)
    (hwritten : matchingUri.written = e.targetUri) : e.finish matchingUri =
      if e.targetUri.getLast? = some nul ∧ e.template.getLast? ≠ some wildcard then none
      else some e.targetUri := by
  have hchars : matchingUri.chars = e.targetUri := by
    rw [Buffer.chars, hwritten, hsize, Nat.sub_self, List.replicate_zero, List.append_nil]
  rw [finish, hchars, hwritten, List.drop_length, List.append_nil]
  by_cases hnul : e.targetUri.getLast? = some nul
  · by_cases hwildcard : e.template.getLast? = some wildcard
    · rw [if_pos hnul, if_pos hwildcard, if_neg fun h => h.2 hwildcard]
    · rw [if_pos hnul, if_neg hwildcard, if_pos ⟨hnul, hwildcard⟩]
  · rw [if_neg hnul, if_neg fun h => hnul h.1]

theorem finish_of_short {e : Expansion} {matchingUri : Buffer}
    (hshort : matchingUri.written.length < matchingUri.size) : e.finish matchingUri =
      if e.template.getLast? = some wildcard then
        some (matchingUri.written ++ e.targetUri.drop matchingUri.written.length)
      else none := by
  have hlast : matchingUri.chars.getLast? = some nul := by
    have hne : List.replicate (matchingUri.size - matchingUri.written.length) nul ≠ [] := by
      rw [ne_eq, List.replicate_eq_nil_iff]
      omega
    rw [Buffer.chars, List.getLast?_append_of_ne_nil _ hne, List.getLast?_replicate,
      if_neg (by omega)]
  rw [finish, if_pos hlast]

section

variable {r : Text} {rs : List Text} {e : Expansion} {i : Nat} {matchingUri : Buffer}

theorem Entered.targetUri_eq (h : Entered p literals qs target r rs e i matchingUri) :
    e.targetUri = target := by
  rw [h.expansion]
  rfl

theorem Entered.target_eq (h : Entered p literals qs target r rs e i matchingUri) :
    target = matchingUri.written ++ render rs := by
  rw [h.written, List.append_assoc]
  exact h.targetEq

theorem Entered.template_eq (h : Entered p literals qs target r rs e i matchingUri) :
    e.template = p.text := by
  rw [h.expansion]
  rfl

theorem Entered.onlyFirstParam_eq (h : Entered p literals qs target r rs e i matchingUri) :
    e.onlyFirstParam = false := by
  rw [h.expansion]
  rfl

/-- A target that is the beginning of the filled pattern is given back. -/
theorem Entered.builds_of_isPrefix (h : Entered p literals qs target r rs e i matchingUri)
    (hp : p.segments = literals ++ .parameter name plain :: qs)
    (hliterals : ∀ s ∈ literals, s.isParameter = false) (hbegin : target <+: p.filled target) :
    Builds p.text target false
      (.ok (if target.getLast? = some nul ∧ p.text.getLast? ≠ some wildcard then none
        else some target)) := by
  rw [h.filled_eq hp hliterals] at hbegin
  nth_rewrite 1 [h.target_eq] at hbegin
  rw [List.prefix_append_right_inj] at hbegin
  have htarget : e.targetUri = matchingUri.written ++ render rs := by
    rw [h.targetUri_eq]
    exact h.target_eq
  obtain ⟨last, hsize, hwritten, hyields⟩ := yields_of_isPrefix h.onlyFirstParam_eq h.size h.drop
    h.takes h.others htarget hbegin
  rw [finish_of_whole (hsize.trans h.size) hwritten, h.targetUri_eq, h.template_eq] at hyields
  exact (h.builds _).mpr hyields

/-- A target and the filled pattern agree as far as both go, when the target is given back. -/
theorem Entered.comparable (h : Entered p literals qs target r rs e i matchingUri)
    (hp : p.segments = literals ++ .parameter name plain :: qs)
    (hliterals : ∀ s ∈ literals, s.isParameter = false)
    (hbuilds : Builds p.text target false (.ok (some target))) :
    target <+: p.filled target ∨ p.filled target <+: target := by
  rw [h.filled_eq hp hliterals]
  exact comparable_of_yields h.onlyFirstParam_eq h.size h.drop h.takes ((h.builds _).mp hbuilds)

/-- Where the filled pattern is the beginning of the target, what is left of the target follows
what is left of the pattern. -/
theorem Entered.exists_behind (h : Entered p literals qs target r rs e i matchingUri)
    (hp : p.segments = literals ++ .parameter name plain :: qs)
    (hliterals : ∀ s ∈ literals, s.isParameter = false) (hbegin : p.filled target <+: target) :
    ∃ i' last, Buffer.size last = e.targetUri.length ∧ Buffer.written last = p.filled target ∧
      e.expectedUri.drop i' = render p.suffixSegments ∧
      e.Same i 0 matchingUri i' qs.length last := by
  have hlength := hbegin.length_le
  rw [h.filled_eq hp hliterals, List.length_append] at hlength
  obtain ⟨last, hext, hsame⟩ := same_segments h.onlyFirstParam_eq h.drop h.takes (by
    rw [h.size, h.targetUri_eq]
    exact hlength)
  rw [Nat.zero_add] at hsame
  refine ⟨_, last, hext.size.trans h.size, ?_, ?_, hsame⟩
  · rw [hext.written, h.filled_eq hp hliterals]
  · rw [← List.drop_drop, h.drop, List.drop_left]

end

theorem builds_exact (hp : p.segments = literals ++ .parameter name plain :: qs)
    (hliterals : ∀ s ∈ literals, s.isParameter = false) (htarget : target.head? = some slash)
    (htail : p.tail = .exact) : Builds p.text target false (.ok (some target)) ↔
      p.NoLonger target ∧ target <+: p.filled target ∧ target.getLast? ≠ some nul := by
  have hwildcard : p.text.getLast? ≠ some wildcard := by
    rw [ne_eq, p.getLast?_text, htail]
    exact fun h => by cases h
  have hsuffix : p.suffixSegments = [] := by rw [suffixSegments, htail]
  constructor
  · intro hbuilds
    have henters := enters_of_builds hp hliterals hbuilds
    obtain ⟨r, rs, e, i, matchingUri, h⟩ := exists_entered hp hliterals henters
    have hbegin : target <+: p.filled target := by
      rcases h.comparable hp hliterals hbuilds with hbegin | hbegin
      · exact hbegin
      · obtain ⟨i', last, hsize, hwritten, hdrop, hsame⟩ := h.exists_behind hp hliterals hbegin
        rw [hsuffix, render_nil] at hdrop
        have hyields := (hsame _).mp ((h.builds _).mp hbuilds)
        have heq := Except.ok.inj (hyields.unique (yields_end hdrop))
        by_cases hshort : last.written.length < last.size
        · rw [finish_of_short hshort, h.template_eq, if_neg hwildcard] at heq
          cases heq
        · rw [hwritten, hsize, h.targetUri_eq] at hshort
          have hequal := hbegin.eq_of_length_le (Nat.not_lt.mp hshort)
          exact ⟨[], by rw [List.append_nil, hequal]⟩
    have hwhole := h.builds_of_isPrefix hp hliterals hbegin
    refine ⟨henters.noLonger, hbegin, fun hnul => ?_⟩
    rw [if_pos ⟨hnul, hwildcard⟩] at hwhole
    have heq := hbuilds.unique hwhole
    cases heq
  · rintro ⟨hno, hbegin, hnul⟩
    obtain ⟨r, rs, e, i, matchingUri, h⟩ := exists_entered hp hliterals
      (enters_of_comparable hp hliterals htarget hno (.inl hbegin))
    have hwhole := h.builds_of_isPrefix hp hliterals hbegin
    rw [if_neg fun h => hnul h.1] at hwhole
    exact hwhole

/-- A pattern for everything below a directory gives back the targets that begin the directory or
that it begins. -/
theorem builds_below (hp : p.segments = literals ++ .parameter name plain :: qs)
    (hliterals : ∀ s ∈ literals, s.isParameter = false) (htarget : target.head? = some slash)
    (htail : p.tail = .below) : Builds p.text target false (.ok (some target)) ↔
      p.NoLonger target ∧ (target <+: p.filled target ∨ p.filled target <+: target) := by
  have hwildcard : p.text.getLast? = some wildcard := p.getLast?_text.mpr htail
  have hsuffix : p.suffixSegments = [] := by rw [suffixSegments, htail]
  constructor
  · intro hbuilds
    have henters := enters_of_builds hp hliterals hbuilds
    obtain ⟨r, rs, e, i, matchingUri, h⟩ := exists_entered hp hliterals henters
    exact ⟨henters.noLonger, h.comparable hp hliterals hbuilds⟩
  · rintro ⟨hno, hcomparable⟩
    obtain ⟨r, rs, e, i, matchingUri, h⟩ := exists_entered hp hliterals
      (enters_of_comparable hp hliterals htarget hno hcomparable)
    rcases hcomparable with hbegin | hbegin
    · have hwhole := h.builds_of_isPrefix hp hliterals hbegin
      rw [if_neg fun h => h.2 hwildcard] at hwhole
      exact hwhole
    · obtain ⟨i', last, hsize, hwritten, hdrop, hsame⟩ := h.exists_behind hp hliterals hbegin
      rw [hsuffix, render_nil] at hdrop
      refine (h.builds _).mpr ((hsame _).mpr ?_)
      have hyields : e.Yields i' qs.length last (.ok (e.finish last)) := yields_end hdrop
      obtain ⟨rest, hrest⟩ := hbegin
      by_cases hshort : last.written.length < last.size
      · rw [finish_of_short hshort, h.template_eq, if_pos hwildcard, h.targetUri_eq, hwritten]
          at hyields
        have hbehind : target.drop (p.filled target).length = rest :=
          (congrArg (List.drop (p.filled target).length) hrest).symm.trans List.drop_left
        rw [hbehind, hrest] at hyields
        exact hyields
      · rw [hwritten, hsize, h.targetUri_eq] at hshort
        have hbegin : p.filled target <+: target := ⟨rest, hrest⟩
        have hwhole : last.written = e.targetUri := by
          rw [hwritten, hbegin.eq_of_length_le (Nat.not_lt.mp hshort), h.targetUri_eq]
        rw [finish_of_whole hsize hwhole, h.template_eq, if_neg fun h => h.2 hwildcard,
          h.targetUri_eq] at hyields
        exact hyields

end

end Pattern

end Keycloak.PathMatcher
