import Mathlib.Data.List.Forall2
import Keycloak.Common.SuffixPatterns

/-!
# What a pattern denotes, by its filled path

The path of a pattern with its parameters filled from a target, against the target itself: which
targets are denoted, and that they are no shorter than the pattern.
-/

namespace Keycloak.PathMatcher

theorem fill_take (qs : List Segment) (vs : List Text) :
    fill qs (vs.take qs.length) = fill qs vs := by
  induction qs generalizing vs with
  | nil => rfl
  | cons s qs ih =>
      cases vs with
      | nil => rfl
      | cons v vs =>
          cases s with
          | literal text plain =>
              exact congrArg (text :: ·) (ih vs)
          | parameter name plain => exact congrArg (v :: ·) (ih vs)

theorem filled_take (qs : List Segment) (vs : List Text) :
    Filled qs (vs.take qs.length) ↔ Filled qs vs := by
  induction qs generalizing vs with
  | nil => exact Iff.rfl
  | cons s qs ih =>
      cases vs with
      | nil => exact Iff.rfl
      | cons v vs =>
          cases s with
          | literal text plain => exact ih vs
          | parameter name plain => exact and_congr_right fun _ => ih vs

theorem forall₂_denotes_iff {qs : List Segment} {vs : List Text} :
    List.Forall₂ Segment.Denotes qs vs ↔ vs = fill qs vs ∧ Filled qs vs := by
  induction qs generalizing vs with
  | nil =>
      rw [List.forall₂_nil_left_iff, fill, Filled, and_true]
  | cons s qs ih =>
      cases vs with
      | nil =>
          refine iff_of_false (fun h => by cases h) fun h => ?_
          have hlength := congrArg List.length h.1
          rw [length_fill] at hlength
          cases hlength
      | cons v vs =>
          rw [List.forall₂_cons, ih]
          cases s with
          | literal text plain =>
              rw [fill, Filled, List.tail_cons, List.cons.injEq, and_assoc]
              exact Iff.rfl
          | parameter name plain =>
              rw [fill, Filled, List.tail_cons, List.headD_cons, List.cons.injEq, and_iff_right rfl,
                and_left_comm]
              exact Iff.rfl

theorem Boundary.append {front rest : Text} (h : Boundary front) (hrest : Boundary rest) :
    Boundary (front ++ rest) := by
  cases front with
  | nil => exact hrest
  | cons c front => exact h

theorem prefix_iff_render {segments segments' : List Text} (h : ∀ s ∈ segments, slash ∉ s)
    (h' : ∀ s ∈ segments', slash ∉ s) :
    segments <+: segments' ↔ ∃ rest, render segments' = render segments ++ rest ∧
      Boundary rest := by
  induction segments generalizing segments' with
  | nil => exact iff_of_true List.nil_prefix ⟨_, rfl, boundary_render segments'⟩
  | cons s segments ih =>
      cases segments' with
      | nil =>
          refine iff_of_false (fun hnil => ?_) fun ⟨rest, hrest, _⟩ => by cases hrest
          cases List.prefix_nil.mp hnil
      | cons t segments' =>
          rw [List.cons_prefix_cons, ih (fun u hu => h u (List.mem_cons_of_mem s hu))
            fun u hu => h' u (List.mem_cons_of_mem t hu)]
          constructor
          · rintro ⟨rfl, rest, hrest, hboundary⟩
            refine ⟨rest, ?_, hboundary⟩
            rw [render_cons, render_cons, hrest, List.append_assoc]
          · rintro ⟨rest, hrest, hboundary⟩
            rw [render_cons, render_cons, List.append_assoc, List.cons_append, List.cons_append,
              List.cons.injEq] at hrest
            obtain ⟨heq, hback⟩ := eq_of_append_boundary (h' t List.mem_cons_self)
              (h s List.mem_cons_self) (boundary_render segments')
              ((boundary_render segments).append hboundary) hrest.2
            exact ⟨heq.symm, rest, hback, hboundary⟩

namespace Pattern

variable {p : Pattern} {target : Text}

theorem slash_not_mem_segmentsOf (h : target.head? = some slash) :
    ∀ s ∈ segmentsOf target, slash ∉ s := by
  obtain ⟨-, -, -, -, hfree⟩ := exists_segmentsOf h
  exact hfree

theorem render_segmentsOf (h : target.head? = some slash) :
    render (segmentsOf target) = target := by
  obtain ⟨-, -, -, hrender, -⟩ := exists_segmentsOf h
  exact hrender.symm

theorem take_denotes_iff :
    List.Forall₂ Segment.Denotes p.segments ((segmentsOf target).take p.segments.length) ↔
      fill p.segments (segmentsOf target) <+: segmentsOf target ∧ p.ParametersFilled target := by
  rw [forall₂_denotes_iff, fill_take, filled_take, ParametersFilled]
  refine and_congr_left fun _ => ?_
  rw [List.prefix_iff_eq_take, length_fill]
  exact eq_comm

theorem denotes_below_iff (h : target.head? = some slash) (htail : p.tail = .below) :
    p.Denotes target ↔ (∃ rest, target = p.filled target ++ rest ∧ Boundary rest) ∧
      p.ParametersFilled target := by
  have hfree := slash_not_mem_segmentsOf h
  rw [Denotes, htail]
  dsimp only
  rw [take_denotes_iff, prefix_iff_render (slash_not_mem_fill hfree) hfree, render_segmentsOf h,
    filled]

theorem denotes_exact_iff (h : target.head? = some slash) (htail : p.tail = .exact) :
    p.Denotes target ↔ target = p.filled target ∧ p.ParametersFilled target := by
  have hfree := slash_not_mem_segmentsOf h
  rw [Denotes, htail]
  dsimp only
  rw [forall₂_denotes_iff, ParametersFilled, filled]
  refine and_congr_left fun _ => ?_
  constructor
  · intro heq
    rw [← heq, render_segmentsOf h]
  · intro heq
    refine render_injective hfree (slash_not_mem_fill hfree) ?_
    rw [render_segmentsOf h, ← heq]

theorem below_iff (h : target.head? = some slash) : p.filled target ++ [slash] <+: target ↔
    fill p.segments (segmentsOf target) <+: segmentsOf target ∧
      p.segments.length < (segmentsOf target).length := by
  have hfree := slash_not_mem_segmentsOf h
  constructor
  · intro hbegin
    rw [← render_segmentsOf h, filled, render_segmentsOf h] at hbegin
    obtain ⟨s, rest, hsplit⟩ := exists_behind_of_isPrefix (slash_not_mem_fill hfree) hfree
      (by rw [render_segmentsOf h]; exact hbegin)
    have hlength := congrArg List.length hsplit
    rw [List.length_append, length_fill, List.length_cons] at hlength
    exact ⟨⟨s :: rest, hsplit.symm⟩, by omega⟩
  · rintro ⟨⟨rest, hrest⟩, hlt⟩
    have hlength := congrArg List.length hrest
    rw [List.length_append, length_fill] at hlength
    cases rest with
    | nil =>
        rw [List.length_nil] at hlength
        omega
    | cons s rest =>
        refine ⟨s ++ render rest, ?_⟩
        have hrender := congrArg render hrest
        rw [render_append, render_cons, render_segmentsOf h] at hrender
        rw [filled, List.append_assoc]
        exact hrender

theorem denotes_suffix_iff {extension : Text} {plain : Plain extension}
    (h : target.head? = some slash) (htail : p.tail = .suffix extension plain) :
    p.Denotes target ↔ (p.filled target ++ [slash] <+: target ∧ p.ParametersFilled target) ∧
      (dot :: extension) <:+ target := by
  have hfree := slash_not_mem_segmentsOf h
  rw [Denotes, htail]
  dsimp only
  rw [take_denotes_iff, below_iff h, and_assoc, and_assoc, and_assoc]
  exact and_congr_right fun _ => and_left_comm

/-! ## The lengths of a pattern and of a target that it denotes -/

theorem exists_filled {qs : List Segment} {vs : List Text} (h : Filled qs vs) {i : Nat} {s : Text}
    (hs : (qs.map Segment.text)[i]? = some s) (hne : s ≠ []) :
    ∃ s', (fill qs vs)[i]? = some s' ∧ s' ≠ [] := by
  induction qs generalizing vs i with
  | nil => cases hs
  | cons q qs ih =>
      cases q with
      | literal text plain =>
          cases i with
          | zero =>
              cases hs
              exact ⟨text, rfl, hne⟩
          | succ i => exact ih h hs
      | parameter name plain =>
          cases i with
          | zero => exact ⟨vs.headD [], rfl, h.1⟩
          | succ i => exact ih h.2 hs

theorem texts_ne_nil (h : p.HasParameter) :
    p.segments.map Segment.text ++ p.suffixSegments ≠ [] := by
  obtain ⟨s, hs, -⟩ := h
  exact List.append_ne_nil_of_left_ne_nil (List.ne_nil_of_mem (List.mem_map_of_mem hs)) _

theorem noLonger_of_places (h : target.head? = some slash) (hparameter : p.HasParameter)
    (hsuffix : p.suffixSegments = [])
    (hplaces : ∀ (i : Nat) (s : Text), (p.segments.map Segment.text)[i]? = some s → s ≠ [] →
      ∃ s', (segmentsOf target)[i]? = some s' ∧ s' ≠ []) : p.NoLonger target := by
  rw [noLonger_iff (texts_ne_nil hparameter) h, hsuffix, List.append_nil]
  refine length_trim_mono fun i s hs hne => ?_
  cases i with
  | zero =>
      cases hs
      exact absurd rfl hne
  | succ i => exact hplaces i s hs hne

theorem noLonger_of_filled (h : target.head? = some slash) (hparameter : p.HasParameter)
    (hsuffix : p.suffixSegments = [])
    (hbegin : fill p.segments (segmentsOf target) <+: segmentsOf target)
    (hfilled : p.ParametersFilled target) : p.NoLonger target := by
  refine noLonger_of_places h hparameter hsuffix fun i s hs hne => ?_
  obtain ⟨s', hs', hne'⟩ := exists_filled hfilled hs hne
  obtain ⟨hlt, heq⟩ := List.getElem?_eq_some_iff.mp hs'
  refine ⟨s', ?_, hne'⟩
  rw [← heq, hbegin.getElem hlt]
  exact List.getElem?_eq_getElem _

theorem length_trim_of_getLast (h : target.head? = some slash)
    (hlast : target.getLast? ≠ some slash) :
    (trim (segmentsOf target)).length = (segmentsOf target).length := by
  have hends := trim_append_replicate (segmentsOf target)
  have hle := length_trim_le (segmentsOf target)
  cases hcount : (segmentsOf target).length - (trim (segmentsOf target)).length with
  | zero => omega
  | succ count =>
      rw [hcount] at hends
      have hrender := congrArg render hends
      rw [render_segmentsOf h, render_append, render_replicate] at hrender
      refine absurd ?_ hlast
      have hne : List.replicate (count + 1) slash ≠ [] := List.cons_ne_nil _ _
      rw [hrender, List.getLast?_append_of_ne_nil _ hne, List.getLast?_replicate,
        if_neg count.succ_ne_zero]

theorem getLast?_of_extension {extension : Text} (plain : Plain extension)
    (h : (dot :: extension) <:+ target) : target.getLast? ≠ some slash := by
  obtain ⟨front, rfl⟩ := h
  rw [List.getLast?_append_of_ne_nil _ (List.cons_ne_nil _ _)]
  intro hlast
  rcases List.mem_cons.mp (List.mem_of_getLast? hlast) with heq | hmem
  · exact absurd heq (by decide)
  · exact plain.noSlash hmem

theorem noLonger_of_below {extension : Text} {plain : Plain extension}
    (h : target.head? = some slash) (htail : p.tail = .suffix extension plain)
    (hparameter : p.HasParameter) (hends : (dot :: extension) <:+ target)
    (hbelow : p.filled target ++ [slash] <+: target) : p.NoLonger target := by
  have hcount := length_trim_of_getLast h (getLast?_of_extension plain hends)
  have hlt := ((below_iff h).mp hbelow).2
  rw [noLonger_iff (texts_ne_nil hparameter) h, suffixSegments_eq htail]
  have hbound := length_trim_le
    ([] :: (p.segments.map Segment.text ++ [wildcard :: dot :: extension]))
  rw [List.length_cons, List.length_append, List.length_map, List.length_singleton] at hbound
  have hwhole : (trim ([] :: segmentsOf target)).length = (segmentsOf target).length + 1 := by
    have hpos : (trim (segmentsOf target)).length ≠ 0 := by omega
    have happend := trim_append [[]] (segmentsOf target)
    rw [if_neg fun hempty => hpos (by rw [List.isEmpty_iff.mp hempty]; rfl)] at happend
    rw [List.singleton_append] at happend
    rw [happend, List.length_append, hcount, Nat.add_comm]
    rfl
  omega

/-! ## The directory as a plain text -/

theorem fill_prefix_of_texts {qs : List Segment} {vs : List Text} (h : ∀ s ∈ vs, slash ∉ s)
    (hbegin : render (qs.map Segment.text) <+: render vs) :
    render (fill qs vs) <+: render vs := by
  induction qs generalizing vs with
  | nil => exact List.nil_prefix
  | cons s qs ih =>
      cases vs with
      | nil => cases List.prefix_nil.mp hbegin
      | cons v vs =>
          rw [List.map_cons, render_cons, render_cons, List.cons_append, List.cons_append,
            List.cons_prefix_cons] at hbegin
          cases qs with
          | nil =>
              cases s with
              | literal text plain => exact List.cons_prefix_cons.mpr ⟨rfl, hbegin.2⟩
              | parameter name plain =>
                  rw [fill, fill, render_cons, render_nil, List.append_nil, render_cons]
                  exact List.prefix_append _ _
          | cons q qs =>
              obtain ⟨back, hback⟩ := hbegin.2
              have hboundary : Boundary (render ((q :: qs).map Segment.text) ++ back) := by
                intro c hc
                cases hc
                rfl
              rw [List.append_assoc] at hback
              obtain ⟨heq, hrest⟩ := eq_of_append_boundary s.slash_not_mem
                (h v List.mem_cons_self) hboundary (boundary_render vs) hback
              have hmore := ih (fun u hu => h u (List.mem_cons_of_mem v hu)) ⟨back, hrest⟩
              cases s with
              | literal text plain =>
                  have heq : text = v := heq
                  rw [fill, heq, render_cons, render_cons, List.cons_append, List.cons_append,
                    List.cons_prefix_cons, List.prefix_append_right_inj]
                  exact ⟨rfl, hmore⟩
              | parameter name plain =>
                  rw [fill, List.headD_cons, render_cons, render_cons, List.cons_append,
                    List.cons_append, List.cons_prefix_cons, List.prefix_append_right_inj]
                  exact ⟨rfl, hmore⟩

theorem filled_prefix_of_directory (h : target.head? = some slash)
    (hbegin : p.directory <+: target) : p.filled target <+: target := by
  have hfree := slash_not_mem_segmentsOf h
  have hfill : render (fill p.segments (segmentsOf target)) <+: render (segmentsOf target) :=
    fill_prefix_of_texts hfree (by rw [render_segmentsOf h]; exact hbegin)
  rw [render_segmentsOf h] at hfill
  exact hfill

theorem noLonger_of_directory (h : target.head? = some slash) (hparameter : p.HasParameter)
    (hsuffix : p.suffixSegments = []) (hbegin : p.directory <+: target) :
    p.NoLonger target := by
  refine noLonger_of_places h hparameter hsuffix fun i s hs hne => ?_
  rw [← render_segmentsOf h, directory] at hbegin
  obtain ⟨s', hs', hbegin'⟩ := segments_of_isPrefix slash_not_mem_texts
    (slash_not_mem_segmentsOf h) hbegin hs
  exact ⟨s', hs', fun hnil => hne (List.prefix_nil.mp (hnil ▸ hbegin'))⟩

theorem isParameter_eq_false (h : ¬ p.HasParameter) : ∀ s ∈ p.segments, s.isParameter = false :=
  fun s hs => Bool.eq_false_iff.mpr fun htrue => h ⟨s, hs, htrue⟩

theorem filled_eq_directory (h : ¬ p.HasParameter) : p.filled target = p.directory := by
  have hfill := fill_append (isParameter_eq_false h) [] (segmentsOf target)
  rw [List.append_nil, fill, List.append_nil] at hfill
  rw [filled, hfill, directory]

theorem filled_of_literals {qs : List Segment} {vs : List Text}
    (h : ∀ s ∈ qs, s.isParameter = false) : Filled qs vs := by
  induction qs generalizing vs with
  | nil => trivial
  | cons s qs ih =>
      have hrest : Filled qs vs.tail := ih fun t ht => h t (List.mem_cons_of_mem s ht)
      cases s with
      | literal text plain => exact hrest
      | parameter name plain => cases h _ List.mem_cons_self

theorem hasParameter_of_not_filled (h : ¬ p.ParametersFilled target) : p.HasParameter := by
  by_contra hnone
  exact h (filled_of_literals (isParameter_eq_false hnone))

/-- A target that is the text of the pattern fills the parameters with themselves. -/
theorem fill_texts (qs : List Segment) : fill qs (qs.map Segment.text) = qs.map Segment.text ∧
    Filled qs (qs.map Segment.text) := by
  induction qs with
  | nil => exact ⟨rfl, trivial⟩
  | cons s qs ih =>
      cases s with
      | literal text plain => exact ⟨congrArg (text :: ·) ih.1, ih.2⟩
      | parameter name plain => exact ⟨congrArg (_ :: ·) ih.1, List.cons_ne_nil _ _, ih.2⟩

end Pattern

end Keycloak.PathMatcher
