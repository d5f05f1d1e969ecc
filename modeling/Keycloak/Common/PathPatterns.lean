import Keycloak.Common.TemplateExpansion

/-!
# What a path pattern denotes

Patterns of segments, each a literal or a parameter, that may end in a wildcard for everything
below or for everything below with a suffix; and the targets that such a pattern stands for.
-/

namespace Keycloak.PathMatcher

/-- A text without a character that has a meaning in a pattern. -/
structure Plain (text : Text) : Prop where
  noSlash : slash ∉ text
  noOpenBrace : openBrace ∉ text
  noCloseBrace : closeBrace ∉ text
  noWildcard : wildcard ∉ text

instance (text : Text) : Decidable (Plain text) :=
  decidable_of_iff (slash ∉ text ∧ openBrace ∉ text ∧ closeBrace ∉ text ∧ wildcard ∉ text)
    ⟨fun ⟨h, h', h'', h'''⟩ => ⟨h, h', h'', h'''⟩,
      fun h => ⟨h.noSlash, h.noOpenBrace, h.noCloseBrace, h.noWildcard⟩⟩

inductive Segment where
  | literal (text : Text) (plain : Plain text)
  | parameter (name : Text) (plain : Plain name)

inductive Tail where
  | exact
  | below
  | suffix (extension : Text) (plain : Plain extension)

namespace Segment

def text : Segment → Text
  | literal text _ => text
  | parameter name _ => openBrace :: name ++ [closeBrace]

def isParameter : Segment → Bool
  | literal _ _ => false
  | parameter _ _ => true

/-- A literal denotes itself, a parameter every segment that is not empty. -/
def Denotes : Segment → Text → Prop
  | literal text _, segment => segment = text
  | parameter _ _, segment => segment ≠ []

instance : ∀ (s : Segment) (segment : Text), Decidable (s.Denotes segment)
  | literal text _, segment => inferInstanceAs (Decidable (segment = text))
  | parameter _ _, segment => inferInstanceAs (Decidable (segment ≠ []))

end Segment

def render (segments : List Text) : Text := segments.flatMap (slash :: ·)

def segmentsOf (path : Text) : List Text := path.tail.splitOn slash

structure Pattern where
  segments : List Segment
  tail : Tail
  nonempty : segments = [] → tail ≠ .exact

namespace Pattern

variable (p : Pattern)

def tailText : Text :=
  match p.tail with
  | .exact => []
  | .below => [slash, wildcard]
  | .suffix extension _ => slash :: wildcard :: dot :: extension

def directory : Text := render (p.segments.map Segment.text)

def text : Text := p.directory ++ p.tailText

def HasParameter : Prop := ∃ s ∈ p.segments, s.isParameter = true

instance : Decidable p.HasParameter := inferInstanceAs (Decidable (∃ s ∈ p.segments, _))

def Denotes (target : Text) : Prop :=
  match p.tail with
  | .exact => List.Forall₂ Segment.Denotes p.segments (segmentsOf target)
  | .below =>
      List.Forall₂ Segment.Denotes p.segments ((segmentsOf target).take p.segments.length)
  | .suffix extension _ =>
      List.Forall₂ Segment.Denotes p.segments ((segmentsOf target).take p.segments.length) ∧
        p.segments.length < (segmentsOf target).length ∧ (dot :: extension) <:+ target

end Pattern

/-- Empty, or at a slash. -/
def Boundary (rest : Text) : Prop := ∀ c ∈ rest.head?, c = slash

/-- The segments of a pattern with its parameters replaced by the segments at their places. -/
def fill : List Segment → List Text → List Text
  | [], _ => []
  | .literal text _ :: rest, segments => text :: fill rest segments.tail
  | .parameter _ _ :: rest, segments => segments.headD [] :: fill rest segments.tail

def Filled : List Segment → List Text → Prop
  | [], _ => True
  | .literal _ _ :: rest, segments => Filled rest segments.tail
  | .parameter _ _ :: rest, segments => segments.headD [] ≠ [] ∧ Filled rest segments.tail

def trim (segments : List Text) : List Text := segments.rdropWhile (·.isEmpty)

namespace Pattern

variable (p : Pattern) (target : Text)

/-- The pattern has no more segments than the target, empty ones at the end not counted. -/
def NoLonger : Prop := (split (withoutWildcard p.text)).length ≤ (split target).length

def filled : Text := render (fill p.segments (segmentsOf target))

/-- Read once more behind the target's segments, the pattern's segment at place `n` stands for
nothing.  The wildcard of the pattern is its last segment. -/
def Idle (n : Nat) : Prop :=
  match p.segments[n % (p.segments.length + 1)]? with
  | some (.literal text _) => text = []
  | some (.parameter _ _) =>
      p.segments.length + 1 + n ≤ (trim (segmentsOf target)).length ∧
        ((segmentsOf target)[p.segments.length + 1 + n]?).getD [] = []
  | none => (trim (segmentsOf target)).length ≤ p.segments.length + 1 + n

/-- The target is a path below the directory, and of the slashes at its end, all but the first
two are met by segments that stand for nothing. -/
structure FilledBelow : Prop where
  noLonger : p.NoLonger target
  below : p.filled target ++ [slash] <+: target
  noNul : target.getLast? ≠ some nul
  idle : ∀ n, n + 2 < (segmentsOf target).length - (trim (segmentsOf target)).length →
    p.Idle target n

def ParametersFilled : Prop := Filled p.segments (segmentsOf target)

/-- How a target that the pattern does not denote is matched, or one that it denotes is not. -/
inductive Misread : Prop
  /-- The target ends before the pattern does. -/
  | cutShort (parameter : p.HasParameter) (noLonger : p.NoLonger target)
      (front : target <+: p.filled target) (shorter : target ≠ p.filled target)
      (tail : p.tail = .below ∨ p.tail = .exact ∧ target.getLast? ≠ some nul)
  | emptyParameter (noLonger : p.NoLonger target)
      (tail : p.tail = .below ∧ p.filled target <+: target ∨
        p.tail = .exact ∧ target = p.filled target ∧ target.getLast? ≠ some nul)
      (empty : ¬ p.ParametersFilled target)
  /-- The wildcard starts within a segment. -/
  | offBoundary (tail : p.tail = .below) (noLonger : p.HasParameter → p.NoLonger target)
      (front : p.filled target <+: target)
      (within : ¬ Boundary (target.drop (p.filled target).length))
  | nullCharacter (tail : p.tail = .exact) (parameter : p.HasParameter)
      (equal : target = p.filled target) (filled : p.ParametersFilled target)
      (last : target.getLast? = some nul) (changed : target ≠ p.text)
  /-- The target ends in the extension, but in another directory. -/
  | elsewhere (extension : Text) (plain : Plain extension) (tail : p.tail = .suffix extension plain)
      (ends : (dot :: extension) <:+ target) (expandable : Expandable p.text target false)
      (outside : ¬ (p.filled target ++ [slash] <+: target ∧ p.ParametersFilled target))
  /-- The target does not end in the extension, but the template gives it back. -/
  | otherExtension (extension : Text) (plain : Plain extension)
      (tail : p.tail = .suffix extension plain) (parameter : p.HasParameter)
      (ends : ¬ (dot :: extension) <:+ target) (below : p.FilledBelow target)

end Pattern

/-! ## Paths of segments -/

@[simp] theorem render_nil : render [] = [] := rfl

@[simp] theorem render_cons (segment : Text) (segments : List Text) :
    render (segment :: segments) = slash :: segment ++ render segments := rfl

theorem render_append (segments segments' : List Text) :
    render (segments ++ segments') = render segments ++ render segments' := List.flatMap_append

theorem boundary_render (segments : List Text) : Boundary (render segments) := by
  cases segments with
  | nil => exact fun c h => by cases h
  | cons segment segments =>
      intro c h
      cases h
      rfl

theorem Boundary.of_isPrefix {front rest : Text} (h : Boundary rest) (hfront : front <+: rest) :
    Boundary front := by
  obtain ⟨back, rfl⟩ := hfront
  cases front with
  | nil => exact fun c h => by cases h
  | cons c front => exact fun d hd => h d hd

theorem Boundary.not_cons {c : UInt16} {rest : Text} (h : Boundary (c :: rest)) (hc : c ≠ slash) :
    False := hc (h c rfl)

/-- A segment ends at the first boundary. -/
theorem eq_of_append_boundary {front front' rest rest' : Text} (hfront : slash ∉ front)
    (hfront' : slash ∉ front') (hrest : Boundary rest) (hrest' : Boundary rest')
    (h : front ++ rest = front' ++ rest') : front = front' ∧ rest = rest' := by
  induction front generalizing front' with
  | nil =>
      cases front' with
      | nil => exact ⟨rfl, h⟩
      | cons c front' =>
          have hc : c ≠ slash := fun heq => hfront' (heq ▸ List.mem_cons_self)
          rw [List.nil_append, List.cons_append] at h
          exact (Boundary.not_cons (h ▸ hrest) hc).elim
  | cons c front ih =>
      have hc : c ≠ slash := fun heq => hfront (heq ▸ List.mem_cons_self)
      cases front' with
      | nil =>
          rw [List.nil_append, List.cons_append] at h
          exact (Boundary.not_cons (h.symm ▸ hrest') hc).elim
      | cons d front' =>
          rw [List.cons_append, List.cons_append, List.cons.injEq] at h
          obtain ⟨heq, hrest''⟩ := ih (fun hmem => hfront (List.mem_cons_of_mem c hmem))
            (fun hmem => hfront' (List.mem_cons_of_mem d hmem)) h.2
          exact ⟨by rw [h.1, heq], hrest''⟩

theorem render_injective {segments segments' : List Text} (h : ∀ s ∈ segments, slash ∉ s)
    (h' : ∀ s ∈ segments', slash ∉ s) (heq : render segments = render segments') :
    segments = segments' := by
  induction segments generalizing segments' with
  | nil =>
      cases segments' with
      | nil => rfl
      | cons s segments' => cases heq
  | cons s segments ih =>
      cases segments' with
      | nil => cases heq
      | cons s' segments' =>
          rw [render_cons, render_cons, List.cons_append, List.cons_append,
            List.cons.injEq] at heq
          obtain ⟨hs, hrest⟩ := eq_of_append_boundary (h s List.mem_cons_self)
            (h' s' List.mem_cons_self) (boundary_render _) (boundary_render _) heq.2
          rw [hs, ih (fun t ht => h t (List.mem_cons_of_mem s ht))
            (fun t ht => h' t (List.mem_cons_of_mem s' ht)) hrest]

theorem intercalate_eq (segment : Text) (segments : List Text) :
    [slash].intercalate (segment :: segments) = segment ++ render segments := by
  induction segments generalizing segment with
  | nil => rw [List.intercalate_singleton, render_nil, List.append_nil]
  | cons s segments ih =>
      rw [List.intercalate_cons_cons, ih, render_cons, List.append_assoc]
      rfl

theorem splitOn_eq {segment : Text} {segments : List Text} (h : slash ∉ segment)
    (hall : ∀ s ∈ segments, slash ∉ s) :
    (segment ++ render segments).splitOn slash = segment :: segments := by
  rw [← intercalate_eq]
  refine List.splitOn_intercalate slash ?_ (List.cons_ne_nil _ _)
  intro s hs
  rcases List.mem_cons.mp hs with rfl | hs
  · exact h
  · exact hall s hs

theorem exists_segments (path : Text) : ∃ segment segments, path = segment ++ render segments ∧
    slash ∉ segment ∧ ∀ s ∈ segments, slash ∉ s := by
  obtain ⟨segment, segments, heq⟩ := List.exists_cons_of_ne_nil (List.splitOn_ne_nil slash path)
  refine ⟨segment, segments, ?_, ?_, ?_⟩
  · rw [← intercalate_eq, ← heq, List.intercalate_splitOn]
  · exact Split.not_mem_of_mem_splitOn (heq ▸ List.mem_cons_self)
  · intro s hs
    exact Split.not_mem_of_mem_splitOn (heq ▸ List.mem_cons_of_mem segment hs)

theorem exists_segmentsOf {path : Text} (h : path.head? = some slash) :
    ∃ segment segments, segmentsOf path = segment :: segments ∧ path = render (segmentsOf path) ∧
      ∀ s ∈ segmentsOf path, slash ∉ s := by
  cases path with
  | nil => cases h
  | cons c rest =>
      cases h
      obtain ⟨segment, segments, heq, hsegment, hall⟩ := exists_segments rest
      have hsplit : segmentsOf (slash :: rest) = segment :: segments := by
        rw [segmentsOf, List.tail_cons, heq, splitOn_eq hsegment hall]
      refine ⟨segment, segments, hsplit, ?_, ?_⟩
      · rw [hsplit, render_cons, List.cons_append, ← heq]
      · rw [hsplit]
        intro s hs
        rcases List.mem_cons.mp hs with rfl | hs
        · exact hsegment
        · exact hall s hs

theorem segmentsOf_render {segments : List Text} (hne : segments ≠ [])
    (hall : ∀ s ∈ segments, slash ∉ s) : segmentsOf (render segments) = segments := by
  obtain ⟨segment, rest, rfl⟩ := List.exists_cons_of_ne_nil hne
  rw [segmentsOf, render_cons, List.cons_append, List.tail_cons,
    splitOn_eq (hall segment List.mem_cons_self)
      fun s hs => hall s (List.mem_cons_of_mem segment hs)]

/-! ## Empty segments at the end -/

theorem trim_append (segments segments' : List Text) : trim (segments ++ segments') =
    if (trim segments').isEmpty then trim segments else segments ++ trim segments' := by
  rw [trim, trim, trim, List.rdropWhile, List.rdropWhile, List.rdropWhile, List.reverse_append,
    List.dropWhile_append, List.isEmpty_reverse]
  split
  · rfl
  · rw [List.reverse_append, List.reverse_reverse]

theorem trim_cons_ne_nil {segment : Text} (segments : List Text) (h : segment ≠ []) :
    trim (segment :: segments) ≠ [] := by
  rw [trim, ne_eq, List.rdropWhile_eq_nil_iff]
  intro hall
  exact h (List.isEmpty_iff.mp (hall segment List.mem_cons_self))

theorem length_trim_le (segments : List Text) : (trim segments).length ≤ segments.length :=
  (List.rdropWhile_prefix _ _).length_le

theorem lt_length_trim (segments segments' : List Text) {segment : Text} (h : segment ≠ []) :
    segments.length < (trim (segments ++ segment :: segments')).length := by
  have hne := trim_cons_ne_nil segments' h
  rw [trim_append, if_neg fun hempty => hne (List.isEmpty_iff.mp hempty), List.length_append]
  have hpos := List.length_pos_iff.mpr hne
  omega

theorem trim_append_of_lt {segments segments' : List Text}
    (h : segments.length < (trim (segments ++ segments')).length) :
    trim (segments ++ segments') = segments ++ trim segments' := by
  rw [trim_append] at h ⊢
  split at h
  · have hle := length_trim_le segments
    omega
  · rename_i hne
    rw [if_neg hne]

theorem length_trim_mono {segments segments' : List Text}
    (h : ∀ (i : Nat) (s : Text), segments[i]? = some s → s ≠ [] →
      ∃ s', segments'[i]? = some s' ∧ s' ≠ []) :
    (trim segments).length ≤ (trim segments').length := by
  by_cases hnil : trim segments = []
  · rw [hnil]
    exact Nat.zero_le _
  have hlast : ¬ ((trim segments).getLast hnil).isEmpty = true := List.rdropWhile_last_not _ _ hnil
  have hpos := List.length_pos_iff.mpr hnil
  have hindex : segments[(trim segments).length - 1]? = some ((trim segments).getLast hnil) := by
    have hlt : (trim segments).length - 1 < (trim segments).length := by omega
    have hbegin : trim segments <+: segments := List.rdropWhile_prefix _ _
    rw [List.getLast_eq_getElem, hbegin.getElem hlt]
    exact List.getElem?_eq_getElem (Nat.lt_of_lt_of_le hlt hbegin.length_le)
  obtain ⟨s', hs', hne⟩ := h _ _ hindex fun heq => hlast (List.isEmpty_iff.mpr heq)
  obtain ⟨hlt, hget⟩ := List.getElem?_eq_some_iff.mp hs'
  have hsplit : segments' = segments'.take ((trim segments).length - 1) ++
      s' :: segments'.drop ((trim segments).length - 1 + 1) := by
    rw [← hget, ← List.drop_eq_getElem_cons hlt, List.take_append_drop]
  have hkept := lt_length_trim (segments'.take ((trim segments).length - 1))
    (segments'.drop ((trim segments).length - 1 + 1)) hne
  rw [← hsplit, List.length_take, Nat.min_eq_left (Nat.le_of_lt hlt)] at hkept
  omega

theorem first_of_isPrefix {segment segment' rest rest' : Text} (h : slash ∉ segment)
    (hrest' : Boundary rest') (hbegin : segment ++ rest <+: segment' ++ rest') :
    segment <+: segment' := by
  by_cases hle : segment.length ≤ segment'.length
  · exact List.prefix_of_prefix_length_le ((List.prefix_append _ _).trans hbegin)
      (List.prefix_append _ _) hle
  · obtain ⟨back, hback⟩ := List.prefix_of_prefix_length_le (List.prefix_append segment' rest')
      ((List.prefix_append _ _).trans hbegin) (Nat.le_of_not_le hle)
    rw [← hback, List.append_assoc] at hbegin
    have hboundary := hrest'.of_isPrefix
      ((List.prefix_append back rest).trans ((List.prefix_append_right_inj _).mp hbegin))
    cases back with
    | nil =>
        rw [List.append_nil] at hback
        exact absurd (Nat.le_of_eq (congrArg List.length hback.symm)) hle
    | cons c back =>
        have hc := hboundary c rfl
        exact absurd (hback ▸ List.mem_append_right _ (hc ▸ List.mem_cons_self)) h

theorem within_or_behind {front segment : Text} {rest rest' : List Text} (hfront : slash ∉ front)
    (hsegment : slash ∉ segment) (h : front ++ render rest <+: segment ++ render rest') :
    front ++ render rest <+: segment ∨ segment = front ∧ render rest <+: render rest' := by
  by_cases hshort : (front ++ render rest).length ≤ segment.length
  · exact .inl (List.prefix_of_prefix_length_le h (List.prefix_append _ _) hshort)
  · obtain ⟨back, hback⟩ := List.prefix_of_prefix_length_le (List.prefix_append _ _) h
      (Nat.le_of_not_le hshort)
    have hbegin : back <+: render rest' := by
      rw [← hback, List.prefix_append_right_inj] at h
      exact h
    obtain ⟨heq, hmore⟩ := eq_of_append_boundary hsegment hfront
      ((boundary_render rest').of_isPrefix hbegin) (boundary_render rest) hback
    exact .inr ⟨heq, hmore ▸ hbegin⟩

theorem segments_of_isPrefix {segments segments' : List Text} (h : ∀ s ∈ segments, slash ∉ s)
    (h' : ∀ s ∈ segments', slash ∉ s) (hbegin : render segments <+: render segments')
    {i : Nat} {s : Text} (hs : segments[i]? = some s) :
    ∃ s', segments'[i]? = some s' ∧ s <+: s' := by
  induction segments generalizing segments' i with
  | nil => cases hs
  | cons t segments ih =>
      cases segments' with
      | nil =>
          have hnil := List.prefix_nil.mp hbegin
          cases hnil
      | cons t' segments' =>
          rw [render_cons, render_cons, List.cons_append, List.cons_append,
            List.cons_prefix_cons] at hbegin
          cases i with
          | zero =>
              have heq : t = s := Option.some.inj hs
              subst heq
              exact ⟨t', rfl, first_of_isPrefix (h t List.mem_cons_self) (boundary_render _)
                hbegin.2⟩
          | succ i =>
              refine ih (fun u hu => h u (List.mem_cons_of_mem t hu))
                (fun u hu => h' u (List.mem_cons_of_mem t' hu)) ?_ hs
              obtain ⟨back, hback⟩ := hbegin.2
              have hboundary : Boundary (render segments ++ back) := by
                cases segments with
                | nil => cases hs
                | cons u segments =>
                    intro c hc
                    cases hc
                    rfl
              rw [List.append_assoc] at hback
              obtain ⟨-, hrest⟩ := eq_of_append_boundary (h t List.mem_cons_self)
                (h' t' List.mem_cons_self) hboundary (boundary_render _) hback
              exact ⟨back, hrest⟩

theorem split_eq {segment : Text} {segments : List Text} (h : slash ∉ segment)
    (hall : ∀ s ∈ segments, slash ∉ s) : split (segment ++ render segments) =
      if segments = [] then [segment] else trim (segment :: segments) := by
  rw [split, Split.split, splitOn_eq h hall]
  cases segments with
  | nil =>
      rw [render_nil, List.append_nil, if_neg h, if_pos rfl]
  | cons s segments =>
      have hmem : slash ∈ segment ++ render (s :: segments) :=
        List.mem_append_right _ List.mem_cons_self
      rw [if_pos hmem, if_neg (List.cons_ne_nil _ _)]
      rfl

theorem split_render {segments : List Text} (hne : segments ≠ [])
    (hall : ∀ s ∈ segments, slash ∉ s) : split (render segments) = trim ([] :: segments) := by
  have hsplit : split ([] ++ render segments) =
      if segments = [] then [[]] else trim ([] :: segments) := split_eq List.not_mem_nil hall
  rw [if_neg hne, List.nil_append] at hsplit
  exact hsplit

theorem trim_append_replicate (segments : List Text) : segments =
    trim segments ++ List.replicate (segments.length - (trim segments).length) [] := by
  have hsplit : segments.rdropWhile (·.isEmpty) ++ segments.rtakeWhile (·.isEmpty) = segments :=
    List.rdropWhile_append_rtakeWhile
  have hempty : segments.rtakeWhile (·.isEmpty) =
      List.replicate (segments.rtakeWhile (·.isEmpty)).length [] := by
    refine List.eq_replicate_of_mem fun s hs => ?_
    exact List.isEmpty_iff.mp (List.mem_rtakeWhile_imp hs)
  have hlength := congrArg List.length hsplit
  rw [List.length_append] at hlength
  have hcount : (segments.rtakeWhile (·.isEmpty)).length =
      segments.length - (trim segments).length := by
    rw [trim]
    omega
  rw [hcount] at hempty
  rw [trim, ← trim, ← hempty]
  exact hsplit.symm

theorem exists_of_lt_length_trim {segments : List Text} {j : Nat}
    (h : j < (trim segments).length) : ∃ s ∈ (trim segments).drop j, s ≠ [] := by
  have hne : trim segments ≠ [] := List.length_pos_iff.mp (by omega)
  have hlast : ¬ ((trim segments).getLast hne).isEmpty = true := List.rdropWhile_last_not _ _ hne
  refine ⟨(trim segments).getLast hne, ?_, fun hnil => hlast (List.isEmpty_iff.mpr hnil)⟩
  rw [← List.getLast_drop (List.drop_eq_nil_iff.not.mpr (Nat.not_le.mpr h))]
  exact List.getLast_mem _

theorem append_render_ne_nil {segment s : Text} {segments : List Text}
    (hmem : s ∈ segment :: segments) (h : s ≠ []) : segment ++ render segments ≠ [] := by
  cases segments with
  | nil =>
      rw [render_nil, List.append_nil, ← List.mem_singleton.mp hmem]
      exact h
  | cons t segments =>
      rw [render_cons]
      exact List.append_ne_nil_of_right_ne_nil _ (List.cons_ne_nil _ _)

theorem render_replicate (count : Nat) :
    render (List.replicate count []) = List.replicate count slash := by
  induction count with
  | zero => rfl
  | succ count ih => rw [List.replicate_succ, render_cons, ih, List.replicate_succ]; rfl

theorem exists_behind_of_isPrefix {segments segments' : List Text} (h : ∀ s ∈ segments, slash ∉ s)
    (h' : ∀ s ∈ segments', slash ∉ s) (hbegin : render segments ++ [slash] <+: render segments') :
    ∃ s rest, segments' = segments ++ s :: rest := by
  induction segments generalizing segments' with
  | nil =>
      cases segments' with
      | nil => cases List.prefix_nil.mp hbegin
      | cons s segments' => exact ⟨s, segments', rfl⟩
  | cons t segments ih =>
      cases segments' with
      | nil => cases List.prefix_nil.mp hbegin
      | cons t' segments' =>
          obtain ⟨back, hback⟩ := hbegin
          rw [render_cons, render_cons, List.append_assoc, List.append_assoc] at hback
          have htail : t ++ (render segments ++ ([slash] ++ back)) = t' ++ render segments' :=
            (List.cons.inj hback).2
          have hboundary : Boundary (render segments ++ ([slash] ++ back)) := by
            cases segments with
            | nil =>
                intro c hc
                cases hc
                rfl
            | cons u segments =>
                intro c hc
                cases hc
                rfl
          obtain ⟨heq, hrest⟩ := eq_of_append_boundary (h t List.mem_cons_self)
            (h' t' List.mem_cons_self) hboundary (boundary_render _) htail
          obtain ⟨s, rest, hsplit⟩ := ih (fun u hu => h u (List.mem_cons_of_mem t hu))
            (fun u hu => h' u (List.mem_cons_of_mem t' hu))
            ⟨back, by rw [List.append_assoc]; exact hrest⟩
          exact ⟨s, rest, by rw [heq, hsplit]; rfl⟩

theorem length_fill (segments : List Segment) (texts : List Text) :
    (fill segments texts).length = segments.length := by
  induction segments generalizing texts with
  | nil => rfl
  | cons s segments ih =>
      cases s with
      | literal text plain => rw [fill, List.length_cons, ih, List.length_cons]
      | parameter name plain => rw [fill, List.length_cons, ih, List.length_cons]

theorem slash_not_mem_fill {segments : List Segment} {texts : List Text}
    (h : ∀ t ∈ texts, slash ∉ t) : ∀ t ∈ fill segments texts, slash ∉ t := by
  induction segments generalizing texts with
  | nil => exact fun t ht => absurd ht List.not_mem_nil
  | cons s segments ih =>
      have hrest := ih fun t ht => h t (List.mem_of_mem_tail ht)
      cases s with
      | literal text plain =>
          intro t ht
          rcases List.mem_cons.mp ht with rfl | ht
          · exact plain.noSlash
          · exact hrest t ht
      | parameter name plain =>
          intro t ht
          rcases List.mem_cons.mp ht with rfl | ht
          · cases texts with
            | nil => exact List.not_mem_nil
            | cons u texts => exact h u List.mem_cons_self
          · exact hrest t ht

end Keycloak.PathMatcher
