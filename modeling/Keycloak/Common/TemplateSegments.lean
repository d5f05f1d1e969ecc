import Keycloak.Common.PathPatterns

/-!
# The loop along the segments of a pattern

What the loop of `buildUriFromTemplate` writes for the segments of a pattern, up to the end of
the target.
-/

namespace Keycloak.PathMatcher

namespace Expansion

variable {e : Expansion} {i paramIndex : Nat} {c : UInt16} {rest text name value : Text}
  {matchingUri : Buffer}

def Same (e : Expansion) (i paramIndex : Nat) (matchingUri : Buffer) (i' paramIndex' : Nat)
    (matchingUri' : Buffer) : Prop :=
  ∀ outcome, e.Yields i paramIndex matchingUri outcome ↔
    e.Yields i' paramIndex' matchingUri' outcome

theorem Same.trans {i' paramIndex' i'' paramIndex'' : Nat} {matchingUri' matchingUri'' : Buffer}
    (h : e.Same i paramIndex matchingUri i' paramIndex' matchingUri')
    (h' : e.Same i' paramIndex' matchingUri' i'' paramIndex'' matchingUri'') :
    e.Same i paramIndex matchingUri i'' paramIndex'' matchingUri'' :=
  fun outcome => (h outcome).trans (h' outcome)

theorem Leads.same {i' paramIndex' : Nat} {matchingUri' : Buffer}
    (h : e.Leads i paramIndex matchingUri i' paramIndex' matchingUri') :
    e.Same i paramIndex matchingUri i' paramIndex' matchingUri' := by
  intro outcome
  constructor
  · rintro ⟨k', hk'⟩
    obtain ⟨k, hk⟩ := h
    refine ⟨k', fun fuel => ?_⟩
    rw [← hk, Nat.add_right_comm, hk']
  · exact Yields.of_leads h

theorem same_of_full (i paramIndex i' paramIndex' : Nat)
    (h : matchingUri.size ≤ matchingUri.written.length) :
    e.Same i paramIndex matchingUri i' paramIndex' matchingUri := by
  intro outcome
  have hyields := yields_full (e := e) i paramIndex h
  have hyields' := yields_full (e := e) i' paramIndex' h
  constructor
  · intro h'
    exact h'.unique hyields ▸ hyields'
  · intro h'
    exact h'.unique hyields' ▸ hyields

theorem same_literal (paramIndex : Nat) (h : e.expectedUri.drop i = c :: rest)
    (hc : ¬ (c = openBrace ∨ c = wildcard))
    (hroom : matchingUri.written.length < matchingUri.size) :
    ∃ matchingUri', Extends matchingUri matchingUri' [c] ∧
      e.Same i paramIndex matchingUri (i + 1) (if c = slash then paramIndex + 1 else paramIndex)
        matchingUri' := by
  obtain ⟨matchingUri', hext, hgo⟩ := loop_literal paramIndex h hc hroom
  exact ⟨matchingUri', hext, Leads.same ⟨0, hgo⟩⟩

theorem same_plain (paramIndex : Nat) (h : e.expectedUri.drop i = text ++ rest)
    (hplain : Plain text) (hfits : matchingUri.written.length + text.length ≤ matchingUri.size) :
    ∃ matchingUri', Extends matchingUri matchingUri' text ∧
      e.Same i paramIndex matchingUri (i + text.length) paramIndex matchingUri' := by
  induction text generalizing i matchingUri with
  | nil => exact ⟨matchingUri, ⟨rfl, (List.append_nil _).symm⟩, fun _ => Iff.rfl⟩
  | cons c text ih =>
      have hc : ¬ (c = openBrace ∨ c = wildcard) := by
        rintro (rfl | rfl)
        · exact hplain.noOpenBrace List.mem_cons_self
        · exact hplain.noWildcard List.mem_cons_self
      have hslash : c ≠ slash := fun heq => hplain.noSlash (heq ▸ List.mem_cons_self)
      rw [List.length_cons] at hfits
      have hroom : matchingUri.written.length < matchingUri.size := by omega
      obtain ⟨matchingUri', hext, hsame⟩ := same_literal paramIndex h hc hroom
      rw [if_neg hslash] at hsame
      have hlength := hext.length
      rw [List.length_singleton] at hlength
      obtain ⟨last, hlast, hmore⟩ := ih (drop_succ h)
        ⟨fun hmem => hplain.noSlash (List.mem_cons_of_mem c hmem),
          fun hmem => hplain.noOpenBrace (List.mem_cons_of_mem c hmem),
          fun hmem => hplain.noCloseBrace (List.mem_cons_of_mem c hmem),
          fun hmem => hplain.noWildcard (List.mem_cons_of_mem c hmem)⟩
        (by rw [hlength, hext.size]; omega)
      refine ⟨last, hext.trans hlast, hsame.trans ?_⟩
      rw [List.length_cons, Nat.add_comm text.length, ← Nat.add_assoc]
      exact hmore

theorem put_nil (matchingUri : Buffer) : matchingUri.put [] = some matchingUri := by
  obtain ⟨matchingUri', hput, hsize, hwritten⟩ := exists_put [] matchingUri.fits
  rw [List.append_nil] at hwritten
  rw [hput]
  cases matchingUri
  cases matchingUri'
  cases hsize
  cases hwritten
  rfl

theorem copyParams_param (matchingUri : Buffer) (h : e.copied false paramIndex = some value) :
    copyParams e.params false [paramIndex] matchingUri = .ok (matchingUri.put value) := by
  rw [copied, if_neg Bool.false_ne_true] at h
  rw [copyParams]
  by_cases hk : paramIndex = e.params.length
  · rw [if_pos hk] at h ⊢
    cases h
    rw [put_nil]
  · rw [if_neg hk] at h ⊢
    rw [h]
    dsimp only
    cases matchingUri.put value with
    | none => rfl
    | some matchingUri' => rfl

theorem drop_parameter
    (h : e.expectedUri.drop i = openBrace :: name ++ [closeBrace] ++ rest) :
    e.expectedUri.drop i = openBrace :: (name ++ closeBrace :: rest) := by
  rw [h, List.cons_append, List.cons_append, List.append_assoc, List.singleton_append]

theorem indexOf_parameter
    (h : e.expectedUri.drop i = openBrace :: name ++ [closeBrace] ++ rest) (hplain : Plain name) :
    indexOf closeBrace e.expectedUri i = some (i + (name.length + 1)) := by
  have hskip : closeBrace ∉ openBrace :: name := by
    rw [List.mem_cons, not_or]
    exact ⟨by decide, hplain.noCloseBrace⟩
  exact indexOf_eq_some (drop_parameter h) hskip

theorem same_parameter (h : e.expectedUri.drop i = openBrace :: name ++ [closeBrace] ++ rest)
    (hplain : Plain name) (hall : e.onlyFirstParam = false)
    (hvalue : e.copied false paramIndex = some value)
    (hfits : matchingUri.written.length + value.length ≤ matchingUri.size) :
    ∃ matchingUri', Extends matchingUri matchingUri' value ∧
      e.Same i paramIndex matchingUri (i + (name.length + 2)) paramIndex matchingUri' := by
  obtain ⟨matchingUri', hput, hext⟩ := exists_put value hfits
  refine ⟨matchingUri', hext, ?_⟩
  by_cases hfull : matchingUri.size ≤ matchingUri.written.length
  · have hnil : value = [] := List.length_eq_zero_iff.mp (by omega)
    rw [hnil, put_nil] at hput
    cases hput
    exact same_of_full _ _ _ _ hfull
  · refine Leads.same ⟨0, fun fuel => ?_⟩
    have hcopy : copyParams e.params false (indices e.params false paramIndex) matchingUri =
        .ok (some matchingUri') := by
      rw [← hput]
      exact copyParams_param matchingUri hvalue
    have hfalse : decide (openBrace = wildcard) = false := rfl
    rw [loop_special _ (drop_parameter h) (.inl rfl) (Nat.not_le.mp hfull), indexOf_parameter h
      hplain, hfalse, hcopy]
    dsimp only
    rw [if_neg fun hstop => Bool.false_ne_true (hall.symm.trans hstop.2)]
    rfl

theorem yields_none_of_parameter
    (h : e.expectedUri.drop i = openBrace :: name ++ [closeBrace] ++ rest)
    (hvalue : e.copied false paramIndex = some value)
    (hroom : matchingUri.written.length < matchingUri.size)
    (hlong : matchingUri.size < matchingUri.written.length + value.length) :
    e.Yields i paramIndex matchingUri (.ok none) := by
  refine ⟨1, fun fuel => ?_⟩
  have hcopy : copyParams e.params false (indices e.params false paramIndex) matchingUri =
      .ok none := by
    rw [← put_eq_none value hlong]
    exact copyParams_param matchingUri hvalue
  have hfalse : decide (openBrace = wildcard) = false := rfl
  rw [loop_special _ (drop_parameter h) (.inl rfl) hroom, hfalse, hcopy]

/-! ## Segments -/

def Takes (e : Expansion) (k : Nat) : Segment → Text → Prop
  | .literal text _, value => value = text
  | .parameter _ _, value => e.copied false k = some value

def TakesAll (e : Expansion) : Nat → List Segment → List Text → Prop
  | _, [], [] => True
  | k, s :: rest, value :: values => e.Takes k s value ∧ e.TakesAll (k + 1) rest values
  | _, _, _ => False

theorem finish_of_full {uri : Text} (h : e.finish matchingUri = some uri)
    (hsize : matchingUri.size = e.targetUri.length)
    (hfull : matchingUri.size ≤ matchingUri.written.length) : uri = matchingUri.written := by
  rw [finish] at h
  split at h
  · split at h
    · rw [List.drop_eq_nil_of_le (hsize ▸ hfull), List.append_nil] at h
      exact (Option.some.inj h).symm
    · cases h
  · rw [Buffer.chars, Nat.sub_eq_zero_of_le hfull, List.replicate_zero, List.append_nil] at h
    exact (Option.some.inj h).symm

theorem not_special_slash : ¬ (slash = openBrace ∨ slash = wildcard) := by decide

section

variable {s : Segment} {k : Nat} {vs : List Text} {qs : List Segment} {uri : Text}

theorem same_segment (hall : e.onlyFirstParam = false)
    (h : e.expectedUri.drop i = slash :: s.text ++ rest) (htakes : e.Takes (k + 1) s value)
    (hfits : matchingUri.written.length + (value.length + 1) ≤ matchingUri.size) :
    ∃ matchingUri', Extends matchingUri matchingUri' (slash :: value) ∧
      e.Same i k matchingUri (i + (s.text.length + 1)) (k + 1) matchingUri' := by
  have hroom : matchingUri.written.length < matchingUri.size := by omega
  obtain ⟨matchingUri', hext, hsame⟩ := same_literal k h not_special_slash hroom
  have hlength := hext.length
  have hrest : matchingUri'.written.length + value.length ≤ matchingUri'.size := by
    rw [hlength, hext.size, List.length_singleton]
    omega
  rw [if_pos rfl] at hsame
  rw [Nat.add_comm s.text.length, ← Nat.add_assoc]
  cases s with
  | literal text plain =>
      cases htakes
      obtain ⟨last, hlast, hmore⟩ := same_plain (k + 1) (drop_succ h) plain hrest
      exact ⟨last, hext.trans hlast, hsame.trans hmore⟩
  | parameter name plain =>
      obtain ⟨last, hlast, hmore⟩ := same_parameter (drop_succ h) plain hall htakes hrest
      refine ⟨last, hext.trans hlast, hsame.trans ?_⟩
      have htext : (Segment.parameter name plain).text.length = name.length + 2 := by
        rw [Segment.text, List.cons_append, List.length_cons, List.length_append,
          List.length_singleton]
      rw [htext]
      exact hmore

theorem yields_cut {n : Nat} (plain : Plain text)
    (h : e.expectedUri.drop i = slash :: text ++ rest) (hn : n ≤ text.length)
    (hfull : matchingUri.written.length + (n + 1) = matchingUri.size) :
    ∃ matchingUri', Extends matchingUri matchingUri' (slash :: text.take n) ∧
      e.Yields i k matchingUri (.ok (e.finish matchingUri')) := by
  have hroom : matchingUri.written.length < matchingUri.size := by omega
  obtain ⟨matchingUri', hext, hsame⟩ := same_literal k h not_special_slash hroom
  have hlength := hext.length
  have hsize := hext.size
  rw [List.length_singleton] at hlength
  have htake : (text.take n).length = n := by rw [List.length_take, Nat.min_eq_left hn]
  have hfront : Plain (text.take n) :=
    ⟨fun hmem => plain.noSlash (List.mem_of_mem_take hmem),
      fun hmem => plain.noOpenBrace (List.mem_of_mem_take hmem),
      fun hmem => plain.noCloseBrace (List.mem_of_mem_take hmem),
      fun hmem => plain.noWildcard (List.mem_of_mem_take hmem)⟩
  have hdrop : e.expectedUri.drop (i + 1) = text.take n ++ (text.drop n ++ rest) := by
    rw [← List.append_assoc, List.take_append_drop]
    exact drop_succ h
  have hfits : matchingUri'.written.length + (text.take n).length ≤ matchingUri'.size := by omega
  obtain ⟨last, hlast, hmore⟩ := same_plain (if slash = slash then k + 1 else k) hdrop hfront hfits
  refine ⟨last, hext.trans hlast, ((hsame.trans hmore) _).mpr (yields_full _ _ ?_)⟩
  rw [hlast.length, hlast.size]
  omega

theorem prefix_of_cut (hsize : matchingUri.size = e.targetUri.length)
    (h : e.expectedUri.drop i = slash :: s.text ++ rest) (htakes : e.Takes (k + 1) s value)
    (hlong : matchingUri.size < matchingUri.written.length + (value.length + 1))
    (hyields : e.Yields i k matchingUri (.ok (some uri))) :
    uri <+: matchingUri.written ++ slash :: value := by
  by_cases hfull : matchingUri.size ≤ matchingUri.written.length
  · have heq := Except.ok.inj (hyields.unique (yields_full i k hfull))
    rw [finish_of_full heq.symm hsize hfull]
    exact List.prefix_append _ _
  have hroom := Nat.not_le.mp hfull
  cases s with
  | literal text plain =>
      cases htakes
      have hn : matchingUri.size - matchingUri.written.length - 1 ≤ value.length := by omega
      have hend : matchingUri.written.length +
          (matchingUri.size - matchingUri.written.length - 1 + 1) = matchingUri.size := by omega
      obtain ⟨matchingUri', hext, hcut⟩ := yields_cut (k := k) plain h hn hend
      have heq := Except.ok.inj (hyields.unique hcut)
      have hlength := hext.length
      rw [List.length_cons, List.length_take, Nat.min_eq_left hn] at hlength
      have hfull' : matchingUri'.size ≤ matchingUri'.written.length := by
        rw [hlength, hext.size]
        omega
      rw [finish_of_full heq.symm (hext.size.trans hsize) hfull', hext.written]
      exact List.prefix_append_right_inj _ |>.mpr (List.cons_prefix_cons.mpr
        ⟨rfl, List.take_prefix _ _⟩)
  | parameter name plain =>
      obtain ⟨matchingUri', hext, hsame⟩ := same_literal k h not_special_slash hroom
      have hlength := hext.length
      rw [List.length_singleton] at hlength
      rw [if_pos rfl] at hsame
      have hyields' := (hsame _).mp hyields
      by_cases hfull' : matchingUri'.size ≤ matchingUri'.written.length
      · have heq := Except.ok.inj (hyields'.unique (yields_full _ _ hfull'))
        rw [finish_of_full heq.symm (hext.size.trans hsize) hfull', hext.written]
        exact List.prefix_append_right_inj _ |>.mpr (List.cons_prefix_cons.mpr
          ⟨rfl, List.nil_prefix⟩)
      · have hnone := yields_none_of_parameter (drop_succ h) htakes (Nat.not_le.mp hfull')
          (by rw [hlength, hext.size]; omega)
        have hcontra := hyields'.unique hnone
        cases hcontra

theorem same_segments (hall : e.onlyFirstParam = false)
    (h : e.expectedUri.drop i = render (qs.map Segment.text) ++ rest)
    (htakes : e.TakesAll (k + 1) qs vs)
    (hfits : matchingUri.written.length + (render vs).length ≤ matchingUri.size) :
    ∃ matchingUri', Extends matchingUri matchingUri' (render vs) ∧
      e.Same i k matchingUri (i + (render (qs.map Segment.text)).length) (k + qs.length)
        matchingUri' := by
  induction qs generalizing i k matchingUri vs with
  | nil =>
      cases vs with
      | nil => exact ⟨matchingUri, ⟨rfl, (List.append_nil _).symm⟩, fun _ => Iff.rfl⟩
      | cons v vs => exact htakes.elim
  | cons s qs ih =>
      cases vs with
      | nil => exact htakes.elim
      | cons v vs =>
          rw [List.map_cons, render_cons, List.append_assoc] at h
          rw [render_cons, List.length_append, List.length_cons] at hfits
          have hfirst : matchingUri.written.length + (v.length + 1) ≤ matchingUri.size := by omega
          obtain ⟨matchingUri', hext, hsame⟩ := same_segment hall h htakes.1 hfirst
          have hlength := hext.length
          rw [List.length_cons] at hlength
          have hdrop : e.expectedUri.drop (i + (s.text.length + 1)) =
              render (qs.map Segment.text) ++ rest := by
            rw [← List.drop_drop, h, ← List.length_cons, List.drop_left]
          obtain ⟨last, hlast, hmore⟩ := ih hdrop htakes.2 (by rw [hlength, hext.size]; omega)
          have hcount : i + (s.text.length + 1) + (render (qs.map Segment.text)).length =
              i + (render ((s :: qs).map Segment.text)).length := by
            rw [List.map_cons, render_cons, List.length_append, List.length_cons]
            omega
          rw [hcount, Nat.add_right_comm k 1] at hmore
          refine ⟨last, ?_, hsame.trans hmore⟩
          rw [render_cons]
          exact hext.trans hlast

/-- A result and the values of the segments agree as far as both go. -/
theorem comparable_of_yields (hall : e.onlyFirstParam = false)
    (hsize : matchingUri.size = e.targetUri.length)
    (h : e.expectedUri.drop i = render (qs.map Segment.text) ++ rest)
    (htakes : e.TakesAll (k + 1) qs vs) (hyields : e.Yields i k matchingUri (.ok (some uri))) :
    uri <+: matchingUri.written ++ render vs ∨ matchingUri.written ++ render vs <+: uri := by
  induction qs generalizing i k matchingUri vs with
  | nil =>
      cases vs with
      | nil =>
          rw [render_nil, List.append_nil]
          exact .inr (prefix_of_yields hyields)
      | cons v vs => exact htakes.elim
  | cons s qs ih =>
      cases vs with
      | nil => exact htakes.elim
      | cons v vs =>
          rw [List.map_cons, render_cons, List.append_assoc] at h
          by_cases hfits : matchingUri.written.length + (v.length + 1) ≤ matchingUri.size
          · obtain ⟨matchingUri', hext, hsame⟩ := same_segment hall h htakes.1 hfits
            have hdrop : e.expectedUri.drop (i + (s.text.length + 1)) =
                render (qs.map Segment.text) ++ rest := by
              rw [← List.drop_drop, h, ← List.length_cons, List.drop_left]
            have hcompare := ih (hext.size.trans hsize) hdrop htakes.2 ((hsame _).mp hyields)
            rw [hext.written, List.append_assoc] at hcompare
            rw [render_cons]
            exact hcompare
          · left
            have hcut := prefix_of_cut hsize h htakes.1 (Nat.not_le.mp hfits) hyields
            rw [render_cons, ← List.append_assoc]
            exact hcut.trans (List.prefix_append _ _)

theorem yields_of_isPrefix {rs : List Text} (hall : e.onlyFirstParam = false)
    (hsize : matchingUri.size = e.targetUri.length)
    (h : e.expectedUri.drop i = render (qs.map Segment.text) ++ rest)
    (htakes : e.TakesAll (k + 1) qs (fill qs rs)) (hrs : ∀ r ∈ rs, slash ∉ r)
    (htarget : e.targetUri = matchingUri.written ++ render rs)
    (hbegin : render rs <+: render (fill qs rs)) :
    ∃ matchingUri' : Buffer, matchingUri'.size = matchingUri.size ∧
      matchingUri'.written = e.targetUri ∧
        e.Yields i k matchingUri (.ok (e.finish matchingUri')) := by
  induction qs generalizing i k matchingUri rs with
  | nil =>
      have hnil : render rs = [] := List.prefix_nil.mp hbegin
      rw [hnil, List.append_nil] at htarget
      exact ⟨matchingUri, rfl, htarget.symm, yields_full _ _ (by rw [hsize, htarget])⟩
  | cons s qs ih =>
      cases rs with
      | nil =>
          rw [render_nil, List.append_nil] at htarget
          exact ⟨matchingUri, rfl, htarget.symm, yields_full _ _ (by rw [hsize, htarget])⟩
      | cons r rs =>
          have hr := hrs r List.mem_cons_self
          have hlength := congrArg List.length htarget
          rw [render_cons, List.length_append, List.length_append, List.length_cons] at hlength
          rw [List.map_cons, render_cons, List.append_assoc] at h
          have hdrop : e.expectedUri.drop (i + (s.text.length + 1)) =
              render (qs.map Segment.text) ++ rest := by
            rw [← List.drop_drop, h, ← List.length_cons, List.drop_left]
          -- the rest of the segments, once the first one is written
          have hrest : ∀ matchingUri' : Buffer, Extends matchingUri matchingUri' (slash :: r) →
              e.TakesAll (k + 1 + 1) qs (fill qs rs) → render rs <+: render (fill qs rs) →
              ∃ last : Buffer, last.size = matchingUri.size ∧ last.written = e.targetUri ∧
                e.Yields (i + (s.text.length + 1)) (k + 1) matchingUri'
                  (.ok (e.finish last)) := by
            intro matchingUri' hext htakes' hbegin'
            obtain ⟨last, hlast, hwritten, hyields⟩ := ih (hext.size.trans hsize) hdrop htakes'
              (fun r' hr' => hrs r' (List.mem_cons_of_mem r hr'))
              (by rw [hext.written, List.append_assoc, ← render_cons, ← htarget]) hbegin'
            exact ⟨last, hlast.trans hext.size, hwritten, hyields⟩
          cases s with
          | literal text plain =>
              rw [fill, render_cons, render_cons, List.cons_append, List.cons_append,
                List.cons_prefix_cons] at hbegin
              rcases within_or_behind hr plain.noSlash hbegin.2 with hcut | ⟨rfl, hmore⟩
              · -- the target ends in this literal
                have hend : matchingUri.written.length + ((r ++ render rs).length + 1) =
                    matchingUri.size := by
                  rw [List.length_append]
                  omega
                obtain ⟨last, hext, hyields⟩ := yields_cut (k := k) plain h hcut.length_le hend
                refine ⟨last, hext.size, ?_, hyields⟩
                rw [hext.written, ← List.prefix_iff_eq_take.mp hcut, htarget, render_cons,
                  List.cons_append]
              · have hfits : matchingUri.written.length + (text.length + 1) ≤
                    matchingUri.size := by omega
                obtain ⟨matchingUri', hext, hsame⟩ := same_segment hall h htakes.1 hfits
                obtain ⟨last, hlast, hwritten, hyields⟩ := hrest matchingUri' hext htakes.2 hmore
                exact ⟨last, hlast, hwritten, (hsame _).mpr hyields⟩
          | parameter name plain =>
              rw [fill, render_cons, render_cons, List.headD_cons, List.tail_cons,
                List.prefix_append_right_inj] at hbegin
              have hfits : matchingUri.written.length + (r.length + 1) ≤ matchingUri.size := by
                omega
              obtain ⟨matchingUri', hext, hsame⟩ := same_segment hall h htakes.1 hfits
              obtain ⟨last, hlast, hwritten, hyields⟩ := hrest matchingUri' hext htakes.2 hbegin
              exact ⟨last, hlast, hwritten, (hsame _).mpr hyields⟩

end

end Expansion

end Keycloak.PathMatcher
