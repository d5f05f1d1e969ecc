import Keycloak.Common.PatternExpansion

/-!
# Patterns with a suffix

The wildcard in front of a suffix is not cut off the template.  It has no closing brace behind it,
so that the loop starts again at the beginning of the template, where only slashes at the end of
the target are left to write.
-/

namespace Keycloak.PathMatcher

namespace Expansion

variable {e : Expansion} {i k : Nat} {rest text value : Text} {matchingUri buffer : Buffer}
  {params : List Text}

theorem getElem?_of_drop_params {x : Text} {xs : List Text} (h : params.drop k = x :: xs) :
    k < params.length ∧ params[k]? = some x ∧ params.drop (k + 1) = xs := by
  have hlength := congrArg List.length h
  rw [List.length_drop, List.length_cons] at hlength
  refine ⟨by omega, ?_, ?_⟩
  · rw [← List.head?_drop, h, List.head?_cons]
  · rw [← List.tail_drop, h, List.tail_cons]

theorem copyParams_step {x : Text} {xs : List Text} (h : params.drop k = x :: xs)
    (matchingUri : Buffer) :
    copyParams params true (List.range' k (params.length + 1 - k)) matchingUri =
      match matchingUri.put x with
      | none => .ok none
      | some buffer =>
          copyParams params true (List.range' (k + 1) (params.length + 1 - (k + 1)))
            ((buffer.put [slash]).getD buffer) := by
  obtain ⟨hlt, hget, -⟩ := getElem?_of_drop_params h
  have hrange : params.length + 1 - k = (params.length + 1 - (k + 1)) + 1 := by omega
  rw [hrange, List.range'_succ, copyParams, if_neg (Nat.ne_of_lt hlt), hget]
  rfl

theorem copyParams_last (params : List Text) (matchingUri : Buffer) :
    copyParams params true (List.range' params.length (params.length + 1 - params.length))
      matchingUri = .ok (some matchingUri) := by
  rw [Nat.add_sub_cancel_left, List.range'_one, copyParams, if_pos rfl]

theorem copyParams_wildcard {x : Text} {xs : List Text} (h : params.drop k = x :: xs)
    (hfits : matchingUri.written.length + (x ++ render xs).length ≤ matchingUri.size) :
    ∃ buffer : Buffer,
      copyParams params true (List.range' k (params.length + 1 - k)) matchingUri =
        .ok (some buffer) ∧ buffer.size = matchingUri.size ∧
      buffer.written =
        (matchingUri.written ++ (x ++ render xs ++ [slash])).take matchingUri.size := by
  rw [List.length_append] at hfits
  have hput : matchingUri.written.length + x.length ≤ matchingUri.size := by omega
  obtain ⟨buffer, hx, hext⟩ := exists_put x hput
  have hlength := hext.length
  have hsize := hext.size
  induction xs generalizing k x matchingUri buffer with
  | nil =>
      obtain ⟨hlt, -, hnil⟩ := getElem?_of_drop_params h
      have hk : k + 1 = params.length := by
        have hlen := List.drop_eq_nil_iff.mp hnil
        omega
      rw [copyParams_step h, hx, hk]
      dsimp only
      rw [copyParams_last, render_nil, List.append_nil]
      refine ⟨_, rfl, ?_⟩
      by_cases hslash : buffer.written.length + 1 ≤ buffer.size
      · obtain ⟨buffer', hput', hext'⟩ := exists_put [slash] hslash
        have hall := hext.trans hext'
        rw [hput', Option.getD_some]
        refine ⟨hall.size, ?_⟩
        rw [hall.written, List.take_of_length_le]
        rw [List.length_append, List.length_append, List.length_singleton]
        omega
      · rw [put_eq_none [slash] (Nat.not_le.mp hslash), Option.getD_none]
        refine ⟨hext.size, ?_⟩
        have hexact : (matchingUri.written ++ x).length = matchingUri.size := by
          rw [List.length_append]
          omega
        rw [hext.written, ← List.append_assoc, ← hexact, List.take_left]
  | cons y xs ih =>
      rw [render_cons, List.cons_append, List.length_cons, List.length_append] at hfits
      have hslash : buffer.written.length + 1 ≤ buffer.size := by omega
      obtain ⟨buffer', hput', hext'⟩ := exists_put [slash] hslash
      have hall := hext.trans hext'
      have hlength' := hext'.length
      have hsize' := hext'.size
      rw [List.length_singleton] at hlength'
      obtain ⟨-, -, hmore⟩ := getElem?_of_drop_params h
      have hy : buffer'.written.length + y.length ≤ buffer'.size := by omega
      obtain ⟨buffer'', hyput, hyext⟩ := exists_put y hy
      obtain ⟨last, hcopy, hlast, hwritten⟩ := ih hmore (by omega) hy buffer'' hyput hyext
        hyext.length hyext.size
      refine ⟨last, ?_, by omega, ?_⟩
      · rw [copyParams_step h, hx]
        dsimp only
        rw [hput', Option.getD_some]
        exact hcopy
      · rw [hwritten, hall.written, hsize', hsize, render_cons]
        simp only [List.append_assoc, List.cons_append, List.nil_append]

theorem exists_copied_of_wildcard (hk : k ≤ params.length)
    (h : copyParams params true (List.range' k (params.length + 1 - k)) matchingUri =
      .ok (some buffer)) :
    ∃ text, Extends matchingUri buffer text ∧ ∀ param ∈ params.drop k, param ⊆ text := by
  induction hxs : params.drop k generalizing k matchingUri with
  | nil =>
      have hlen := List.drop_eq_nil_iff.mp hxs
      have heq : k = params.length := by omega
      rw [heq, copyParams_last] at h
      cases h
      exact ⟨[], ⟨rfl, (List.append_nil _).symm⟩, fun param hparam =>
        absurd hparam List.not_mem_nil⟩
  | cons x xs ih =>
      obtain ⟨hlt, -, hmore⟩ := getElem?_of_drop_params hxs
      rw [copyParams_step hxs] at h
      cases hput : matchingUri.put x with
      | none =>
          rw [hput] at h
          cases h
      | some buffer' =>
          rw [hput] at h
          dsimp only at h
          have hext := extends_of_put hput
          obtain ⟨text, hrest, hall⟩ := ih hlt h hmore
          have hslash : ∃ gap, Extends buffer' ((buffer'.put [slash]).getD buffer') gap := by
            cases hgap : buffer'.put [slash] with
            | none => exact ⟨[], rfl, (List.append_nil _).symm⟩
            | some buffer'' => exact ⟨[slash], extends_of_put hgap⟩
          obtain ⟨gap, hgap⟩ := hslash
          refine ⟨x ++ (gap ++ text), hext.trans (hgap.trans hrest), fun param hparam => ?_⟩
          rcases List.mem_cons.mp hparam with rfl | hparam
          · exact List.subset_append_left _ _
          · exact fun c hc =>
              List.mem_append_right _ (List.mem_append_right _ (hall param hparam hc))

/-! ## The loop behind the wildcard -/

theorem leads_of_copy {c : UInt16} (h : e.expectedUri.drop i = c :: rest)
    (hc : c = openBrace ∨ c = wildcard) (hall : e.onlyFirstParam = false)
    (hroom : matchingUri.written.length < matchingUri.size)
    (hcopy : copyParams e.params (c = wildcard) (indices e.params (c = wildcard) k) matchingUri =
      .ok (some buffer)) :
    e.Leads i k matchingUri (following (indexOf closeBrace e.expectedUri i)) k buffer := by
  refine ⟨0, fun fuel => ?_⟩
  rw [loop_special _ h hc hroom, hcopy]
  exact if_neg fun hstop => Bool.false_ne_true (hall.symm.trans hstop.2)

def IdleAt (e : Expansion) : Option Segment → Nat → Prop
  | some (.literal text _), _ => text = []
  | some (.parameter _ _), index => e.copied false index = some []
  | none, index => e.params.length ≤ index

structure SlashesLeft (e : Expansion) (count : Nat) (matchingUri : Buffer) : Prop where
  size : matchingUri.size = e.targetUri.length
  target : e.targetUri = matchingUri.written ++ List.replicate count slash

theorem SlashesLeft.room {count : Nat} (h : SlashesLeft e (count + 1) matchingUri) :
    matchingUri.written.length < matchingUri.size := by
  rw [h.size, h.target, List.length_append, List.length_replicate]
  omega

theorem SlashesLeft.eq_slash {count : Nat} {c : UInt16} (h : SlashesLeft e count matchingUri)
    (hext : Extends matchingUri buffer text) (hbegin : buffer.written <+: e.targetUri)
    (hc : c ∈ text) : c = slash := by
  rw [hext.written, h.target, List.prefix_append_right_inj] at hbegin
  exact List.eq_of_mem_replicate (hbegin.subset hc)

theorem SlashesLeft.put {count : Nat} (h : SlashesLeft e (count + 1) matchingUri)
    (hext : Extends matchingUri buffer [slash]) : SlashesLeft e count buffer := by
  refine ⟨hext.size.trans h.size, ?_⟩
  rw [hext.written, List.append_assoc, h.target, List.replicate_succ]
  rfl

theorem SlashesLeft.extends_nil {count : Nat} (h : SlashesLeft e count matchingUri)
    (hext : Extends matchingUri buffer []) : SlashesLeft e count buffer := by
  refine ⟨hext.size.trans h.size, ?_⟩
  rw [hext.written, List.append_nil]
  exact h.target

theorem SlashesLeft.yields (h : SlashesLeft e 0 matchingUri)
    (hnul : e.targetUri.getLast? ≠ some nul) (i k : Nat) :
    e.Yields i k matchingUri (.ok (some e.targetUri)) := by
  have htarget := h.target
  rw [List.replicate_zero, List.append_nil] at htarget
  have hyields : e.Yields i k matchingUri (.ok (e.finish matchingUri)) :=
    yields_full i k (by rw [h.size, htarget])
  rw [Pattern.finish_of_whole h.size htarget.symm, if_neg fun h => hnul h.1] at hyields
  exact hyields

theorem idle_split {slot : Nat → Option Segment} {count k : Nat} :
    (∀ m, m + 1 < count + 1 + 1 → e.IdleAt (slot m) (k + 1 + m)) ↔
      e.IdleAt (slot 0) (k + 1) ∧
        ∀ m, m + 1 < count + 1 → e.IdleAt (slot (m + 1)) (k + 1 + 1 + m) := by
  constructor
  · intro h
    refine ⟨h 0 (by omega), fun m hm => ?_⟩
    have hnext := h (m + 1) (by omega)
    rw [Nat.add_comm m 1, ← Nat.add_assoc] at hnext
    rw [Nat.add_comm m 1]
    exact hnext
  · rintro ⟨hfirst, hrest⟩ m hm
    cases m with
    | zero => exact hfirst
    | succ m =>
        have hnext := hrest m (by omega)
        rw [Nat.add_comm m 1, ← Nat.add_assoc]
        rw [Nat.add_comm m 1] at hnext
        exact hnext

section

variable {count : Nat} {extension : Text}

theorem same_of_idle {s : Segment} (hall : e.onlyFirstParam = false)
    (h : e.expectedUri.drop i = s.text ++ rest) (hidle : e.IdleAt (some s) k)
    (hleft : SlashesLeft e count matchingUri) :
    ∃ matchingUri', SlashesLeft e count matchingUri' ∧
      e.Same i k matchingUri (i + s.text.length) k matchingUri' := by
  have hfits : matchingUri.written.length + ([] : Text).length ≤ matchingUri.size :=
    matchingUri.fits
  cases s with
  | literal text plain =>
      have hnil : text = [] := hidle
      subst hnil
      exact ⟨matchingUri, hleft, fun _ => Iff.rfl⟩
  | parameter name plain =>
      obtain ⟨matchingUri', hext, hsame⟩ := same_parameter h plain hall hidle hfits
      have hlength : (Segment.parameter name plain).text.length = name.length + 2 := by
        rw [Segment.text, List.cons_append, List.length_cons, List.length_append,
          List.length_singleton]
      rw [hlength]
      exact ⟨matchingUri', hleft.extends_nil hext, hsame⟩

theorem not_yields_of_not_idle {s : Segment} (hall : e.onlyFirstParam = false)
    (h : e.expectedUri.drop i = s.text ++ rest) (hidle : ¬ e.IdleAt (some s) k)
    (hparams : ∀ param ∈ e.params, slash ∉ param)
    (hleft : SlashesLeft e (count + 1) matchingUri) :
    ¬ e.Yields i k matchingUri (.ok (some e.targetUri)) := by
  intro hyields
  cases s with
  | literal text plain =>
      cases text with
      | nil => exact hidle rfl
      | cons c text =>
          have hc : ¬ (c = openBrace ∨ c = wildcard) := by
            rintro (rfl | rfl)
            · exact plain.noOpenBrace List.mem_cons_self
            · exact plain.noWildcard List.mem_cons_self
          obtain ⟨matchingUri', hext, hsame⟩ := same_literal k h hc hleft.room
          have hslash := hleft.eq_slash hext (prefix_of_yields ((hsame _).mp hyields))
            List.mem_cons_self
          exact plain.noSlash (hslash ▸ List.mem_cons_self)
  | parameter name plain =>
      cases hcopied : e.copied false k with
      | none =>
          obtain ⟨steps, hsteps⟩ := hyields
          have hloop := hsteps 1
          rw [Nat.add_comm, loop_special _ (drop_parameter h) (.inl rfl) hleft.room] at hloop
          have hcopy := copyParams_of_not_copied matchingUri hcopied
          have hfalse : decide (openBrace = wildcard) = false := rfl
          rw [hfalse, hcopy] at hloop
          cases hloop
      | some value =>
          cases value with
          | nil => exact hidle hcopied
          | cons c value =>
              by_cases hfits : matchingUri.written.length + (c :: value).length ≤ matchingUri.size
              · obtain ⟨matchingUri', hext, hsame⟩ := same_parameter h plain hall hcopied hfits
                have hslash := hleft.eq_slash hext (prefix_of_yields ((hsame _).mp hyields))
                  List.mem_cons_self
                rw [copied, if_neg Bool.false_ne_true] at hcopied
                split at hcopied
                · cases hcopied
                · exact hparams _ (List.mem_of_getElem? hcopied) (hslash ▸ List.mem_cons_self)
              · have hnone := yields_none_of_parameter h hcopied hleft.room
                  (Nat.not_le.mp hfits)
                have heq := hyields.unique hnone
                cases heq

theorem indexOf_suffix (h : e.expectedUri.drop i = wildcard :: dot :: extension)
    (plain : Plain extension) : indexOf closeBrace e.expectedUri i = none := by
  refine indexOf_eq_none ?_
  rw [h, List.mem_cons, List.mem_cons]
  rintro (h | h | h)
  · exact absurd h (by decide)
  · exact absurd h (by decide)
  · exact plain.noCloseBrace h

theorem same_of_idle_wildcard (hall : e.onlyFirstParam = false)
    (h : e.expectedUri.drop i = wildcard :: dot :: extension) (plain : Plain extension)
    (hidle : e.IdleAt none k) (hleft : SlashesLeft e (count + 1) matchingUri) :
    e.Same i k matchingUri 0 k matchingUri := by
  have hcopy : copyParams e.params true (indices e.params true k) matchingUri =
      .ok (some matchingUri) := by
    show copyParams e.params true (List.range' k (e.params.length + 1 - k)) matchingUri = _
    have hle : e.params.length ≤ k := hidle
    by_cases heq : k = e.params.length
    · rw [heq]
      exact copyParams_last _ _
    · have hzero : e.params.length + 1 - k = 0 := by omega
      rw [hzero]
      rfl
  have hleads := leads_of_copy h (.inr rfl) hall hleft.room hcopy
  rw [indexOf_suffix h plain] at hleads
  exact hleads.same

theorem not_yields_of_wildcard (hall : e.onlyFirstParam = false)
    (h : e.expectedUri.drop i = wildcard :: dot :: extension) (hidle : ¬ e.IdleAt none k)
    (hparams : ∀ param ∈ e.params, slash ∉ param)
    (hkept : ∀ j < e.params.length, ∃ param ∈ e.params.drop j, param ≠ [])
    (hleft : SlashesLeft e (count + 1) matchingUri) :
    ¬ e.Yields i k matchingUri (.ok (some e.targetUri)) := by
  intro hyields
  have hlt : k < e.params.length := Nat.not_le.mp hidle
  cases hcopy : copyParams e.params true (indices e.params true k) matchingUri with
  | error failure =>
      obtain ⟨steps, hsteps⟩ := hyields
      have hloop := hsteps 1
      have htrue : decide (wildcard = wildcard) = true := rfl
      rw [Nat.add_comm, loop_special _ h (.inr rfl) hleft.room, htrue, hcopy] at hloop
      cases hloop
  | ok result =>
      cases result with
      | none =>
          obtain ⟨steps, hsteps⟩ := hyields
          have hloop := hsteps 1
          have htrue : decide (wildcard = wildcard) = true := rfl
          rw [Nat.add_comm, loop_special _ h (.inr rfl) hleft.room, htrue, hcopy] at hloop
          cases hloop
      | some buffer =>
          obtain ⟨text, hext, hwhole⟩ := exists_copied_of_wildcard (Nat.le_of_lt hlt) hcopy
          have hleads := leads_of_copy h (.inr rfl) hall hleft.room hcopy
          have hbegin := prefix_of_yields ((hleads.same _).mp hyields)
          obtain ⟨param, hmem, hne⟩ := hkept k hlt
          obtain ⟨c, value, rfl⟩ := List.exists_cons_of_ne_nil hne
          have hslash := hleft.eq_slash hext hbegin (hwhole _ hmem List.mem_cons_self)
          exact hparams _ (List.mem_of_mem_drop hmem) (hslash ▸ List.mem_cons_self)

end

/-- The slashes at the end of the target are met exactly when all that stands between them is
idle. -/
theorem yields_iff_idle {segments : List Segment} {extension : Text} (plain : Plain extension)
    (hall : e.onlyFirstParam = false)
    (hexpected : e.expectedUri = render (segments.map Segment.text) ++
      slash :: wildcard :: dot :: extension)
    (hnul : e.targetUri.getLast? ≠ some nul) (hparams : ∀ param ∈ e.params, slash ∉ param)
    (hkept : ∀ j < e.params.length, ∃ param ∈ e.params.drop j, param ≠ []) (count : Nat) :
    ∀ (done left : List Segment) (i k : Nat) (matchingUri : Buffer), segments = done ++ left →
      e.expectedUri.drop i = render (left.map Segment.text) ++
        slash :: wildcard :: dot :: extension →
      SlashesLeft e count matchingUri →
      (e.Yields i k matchingUri (.ok (some e.targetUri)) ↔ ∀ m, m + 1 < count →
        e.IdleAt segments[(done.length + m) % (segments.length + 1)]? (k + 1 + m)) := by
  induction count with
  | zero =>
      intro done left i k matchingUri _ _ hleft
      exact iff_of_true (hleft.yields hnul i k) fun m hm => absurd hm (by omega)
  | succ count ih =>
      intro done left i k matchingUri hsegments hdrop hleft
      -- the slash in front of the next segment, or of the wildcard
      obtain ⟨rest, hslash⟩ : ∃ rest, e.expectedUri.drop i = slash :: rest := by
        cases left with
        | nil => exact ⟨_, hdrop⟩
        | cons s left => exact ⟨_, hdrop⟩
      obtain ⟨matchingUri', hext, hsame⟩ := same_literal k hslash not_special_slash hleft.room
      rw [if_pos rfl] at hsame
      have hnext := hleft.put hext
      rw [hsame]
      cases count with
      | zero => exact iff_of_true (hnext.yields hnul _ _) fun m hm => absurd hm (by omega)
      | succ count =>
          rw [idle_split]
          cases left with
          | nil =>
              rw [List.append_nil] at hsegments
              subst hsegments
              have hplace : segments[(segments.length + 0) % (segments.length + 1)]? = none := by
                rw [Nat.add_zero, Nat.mod_eq_of_lt (Nat.lt_succ_self _)]
                exact List.getElem?_eq_none (Nat.le_refl _)
              rw [hplace]
              by_cases hidle : e.IdleAt none (k + 1)
              · have hback := same_of_idle_wildcard hall (drop_succ hdrop) plain hidle hnext
                have hdrop' : e.expectedUri.drop 0 = render (segments.map Segment.text) ++
                    slash :: wildcard :: dot :: extension := by
                  rw [List.drop_zero, hexpected]
                rw [hback, ih [] segments 0 (k + 1) matchingUri' rfl hdrop' hnext,
                  and_iff_right hidle]
                refine forall₂_congr fun m _ => ?_
                have hindex : segments.length + (m + 1) = ([] : List Segment).length + m +
                    (segments.length + 1) := by
                  rw [List.length_nil]
                  omega
                rw [hindex, Nat.add_mod_right]
              · exact iff_of_false (not_yields_of_wildcard hall (drop_succ hdrop) hidle hparams
                  hkept hnext) fun h => hidle h.1
          | cons s left =>
              have hplace : segments[(done.length + 0) % (segments.length + 1)]? = some s := by
                have hlt : done.length < segments.length + 1 := by
                  rw [hsegments, List.length_append, List.length_cons]
                  omega
                rw [Nat.add_zero, Nat.mod_eq_of_lt hlt, hsegments,
                  List.getElem?_append_right (Nat.le_refl _), Nat.sub_self]
                rfl
              have hdrop' : e.expectedUri.drop (i + 1) = s.text ++
                  (render (left.map Segment.text) ++ slash :: wildcard :: dot :: extension) := by
                rw [List.map_cons, render_cons, List.append_assoc] at hdrop
                exact drop_succ hdrop
              rw [hplace]
              by_cases hidle : e.IdleAt (some s) (k + 1)
              · obtain ⟨last, hlast, hpast⟩ := same_of_idle hall hdrop' hidle hnext
                have hdrop'' : e.expectedUri.drop (i + 1 + s.text.length) =
                    render (left.map Segment.text) ++ slash :: wildcard :: dot :: extension := by
                  rw [← List.drop_drop, hdrop', List.drop_left]
                rw [hpast, ih (done ++ [s]) left _ (k + 1) last (by rw [hsegments]; simp) hdrop''
                  hlast, and_iff_right hidle]
                refine forall₂_congr fun m _ => ?_
                rw [List.length_append, List.length_singleton, Nat.add_assoc done.length,
                  Nat.add_comm 1]
              · exact iff_of_false (not_yields_of_not_idle hall hdrop' hidle hparams hnext)
                  fun h => hidle h.1

end Expansion

namespace Pattern

open Expansion

section

variable {p : Pattern} {literals qs : List Segment} {name extension target r : Text}
  {plain : Plain name} {plain' : Plain extension} {rs : List Text} {e : Expansion} {i : Nat}
  {matchingUri : Buffer}

theorem suffixSegments_eq (htail : p.tail = .suffix extension plain') :
    p.suffixSegments = [wildcard :: dot :: extension] := by rw [suffixSegments, htail]

theorem Entered.expected_eq (h : Entered p literals qs target r rs e i matchingUri)
    (htail : p.tail = .suffix extension plain') : e.expectedUri =
      render (p.segments.map Segment.text) ++ slash :: wildcard :: dot :: extension := by
  have hexpected : e.expectedUri = withoutWildcard p.text := by
    rw [h.expansion]
    rfl
  rw [hexpected, withoutWildcard_text, suffixSegments_eq htail, directory, render_cons, render_nil,
    List.append_nil]

theorem Entered.head?_target (h : Entered p literals qs target r rs e i matchingUri) :
    target.head? = some slash := by
  rw [h.targetEq, Pattern.front]
  cases literals <;> rfl

theorem Entered.lt_length_params (h : Entered p literals qs target r rs e i matchingUri)
    (hp : p.segments = literals ++ .parameter name plain :: qs)
    (htail : p.tail = .suffix extension plain') (hno : p.NoLonger target) :
    qs.length + 1 < (trim (r :: rs)).length := by
  have htexts : p.segments.map Segment.text ++ p.suffixSegments = literals.map Segment.text ++
      ((Segment.parameter name plain :: qs).map Segment.text ++
        (wildcard :: dot :: extension) :: []) := by
    rw [hp, List.map_append, suffixSegments_eq htail, List.append_assoc]
  have hlt := index_lt hno h.head?_target h.segmentsEq (List.cons_ne_nil _ _) htexts
  rw [List.length_map, List.length_cons] at hlt
  exact hlt

theorem Entered.length_trim (h : Entered p literals qs target r rs e i matchingUri)
    (hpos : 0 < (trim (r :: rs)).length) :
    (trim (segmentsOf target)).length = literals.length + (trim (r :: rs)).length := by
  have hne : ¬ (trim (r :: rs)).isEmpty = true := fun hempty =>
    List.length_pos_iff.mp hpos (List.isEmpty_iff.mp hempty)
  rw [h.segmentsEq, trim_append, if_neg hne, List.length_append, List.length_map]

theorem Entered.below_of_builds (h : Entered p literals qs target r rs e i matchingUri)
    (hp : p.segments = literals ++ .parameter name plain :: qs)
    (hliterals : ∀ s ∈ literals, s.isParameter = false)
    (htail : p.tail = .suffix extension plain') (hno : p.NoLonger target)
    (hbuilds : Builds p.text target false (.ok (some target))) :
    p.filled target ++ [slash] <+: target := by
  obtain ⟨segment, segments, -, hrender, hfree⟩ := exists_segmentsOf h.head?_target
  -- the target has more segments than the directory
  have hnot : ¬ target <+: p.filled target := by
    intro hbegin
    have hlt := h.lt_length_params hp htail hno
    have hle : (trim (segmentsOf target)).length ≤
        (trim (fill p.segments (segmentsOf target))).length := by
      refine length_trim_mono fun j s hs hne => ?_
      rw [filled] at hbegin
      nth_rewrite 1 [hrender] at hbegin
      obtain ⟨s', hs', hbegin'⟩ := segments_of_isPrefix hfree (slash_not_mem_fill hfree) hbegin hs
      exact ⟨s', hs', fun hnil => hne (List.prefix_nil.mp (hnil ▸ hbegin'))⟩
    have hbound := length_trim_le (fill p.segments (segmentsOf target))
    rw [length_fill] at hbound
    have hcount := congrArg List.length hp
    rw [List.length_append, List.length_cons] at hcount
    have hwhole := h.length_trim (Nat.zero_lt_of_lt hlt)
    omega
  have hbegin := (h.comparable hp hliterals hbuilds).resolve_left hnot
  obtain ⟨i', last, hsize, hwritten, hdrop, hsame⟩ := h.exists_behind hp hliterals hbegin
  have hroom : last.written.length < last.size := by
    rw [hwritten, hsize, h.targetUri_eq]
    by_contra hfull
    have hequal := hbegin.eq_of_length_le (Nat.not_lt.mp hfull)
    exact hnot ⟨[], by rw [List.append_nil, hequal]⟩
  rw [suffixSegments_eq htail] at hdrop
  obtain ⟨last', hext, hsame'⟩ := same_literal qs.length hdrop not_special_slash hroom
  have hresult := prefix_of_yields (((hsame.trans hsame') _).mp ((h.builds _).mp hbuilds))
  rw [hext.written, hwritten] at hresult
  exact hresult

theorem Entered.exists_copied (h : Entered p literals qs target r rs e i matchingUri)
    (hp : p.segments = literals ++ .parameter name plain :: qs)
    (hliterals : ∀ s ∈ literals, s.isParameter = false)
    (htail : p.tail = .suffix extension plain') (hno : p.NoLonger target)
    (hbelow : p.filled target ++ [slash] <+: target) :
    ∃ x xs, e.params.drop (qs.length + 1) = x :: xs ∧ target = p.filled target ++ [slash] ++
      (x ++ render xs ++ List.replicate ((r :: rs).length - (trim (r :: rs)).length) slash) := by
  have hfillFree : ∀ t ∈ fill qs rs, slash ∉ t := slash_not_mem_fill h.others
  have hrestBegin : render (fill qs rs) ++ [slash] <+: render rs := by
    have hwhole := hbelow
    rw [h.filled_eq hp hliterals, List.append_assoc] at hwhole
    rw [h.target_eq] at hwhole
    exact (List.prefix_append_right_inj _).mp hwhole
  obtain ⟨x, xs, hrs⟩ := exists_behind_of_isPrefix hfillFree h.others hrestBegin
  have hsplit : r :: rs = (r :: fill qs rs) ++ x :: xs := congrArg (List.cons r) hrs
  have hlength : (r :: fill qs rs).length = qs.length + 1 := by
    rw [List.length_cons, length_fill]
  have hlt := h.lt_length_params hp htail hno
  rw [hsplit, ← hlength] at hlt
  have htrim := trim_append_of_lt hlt
  rw [htrim, List.length_append] at hlt
  obtain ⟨y, ys, htrimmed⟩ :=
    List.exists_cons_of_ne_nil (List.length_pos_iff.mp (Nat.lt_of_add_lt_add_left hlt))
  have hcount : (r :: rs).length - (trim (r :: rs)).length =
      (x :: xs).length - (trim (x :: xs)).length := by
    rw [hsplit, htrim, List.length_append, List.length_append, Nat.add_sub_add_left]
  have hends := trim_append_replicate (x :: xs)
  rw [← hcount, htrimmed] at hends
  have hrender := congrArg render hends
  rw [render_append, render_replicate, render_cons, render_cons, List.cons_append,
    List.cons_append, List.cons_append, List.cons.injEq] at hrender
  refine ⟨y, ys, ?_, ?_⟩
  · rw [h.params, hsplit, htrim, htrimmed, ← hlength, List.drop_left]
  · have hrest : render rs = render (fill qs rs) ++ ([slash] ++ (y ++ render ys ++
        List.replicate ((r :: rs).length - (trim (r :: rs)).length) slash)) := by
      rw [← hrender.2]
      nth_rewrite 1 [hrs]
      rw [render_append, render_cons]
      rfl
    rw [h.filled_eq hp hliterals, List.append_assoc, List.append_assoc, ← hrest]
    exact h.target_eq

theorem Entered.exists_slashesLeft (h : Entered p literals qs target r rs e i matchingUri)
    (hp : p.segments = literals ++ .parameter name plain :: qs)
    (hliterals : ∀ s ∈ literals, s.isParameter = false)
    (htail : p.tail = .suffix extension plain') (hno : p.NoLonger target)
    (hbelow : p.filled target ++ [slash] <+: target) :
    ∃ last, SlashesLeft e ((r :: rs).length - (trim (r :: rs)).length - 1) last ∧
      e.Same i 0 matchingUri 0 (qs.length + 1) last := by
  obtain ⟨i', last, hsize, hwritten, hdrop, hsame⟩ :=
    h.exists_behind hp hliterals ((List.prefix_append _ _).trans hbelow)
  have hlong := hbelow.length_le
  rw [List.length_append, List.length_singleton] at hlong
  have hroom : last.written.length < last.size := by
    rw [hwritten, hsize, h.targetUri_eq]
    omega
  rw [suffixSegments_eq htail, render_cons, render_nil, List.append_nil] at hdrop
  obtain ⟨last', hext, hsame'⟩ := same_literal qs.length hdrop not_special_slash hroom
  rw [if_pos rfl] at hsame'
  obtain ⟨x, xs, hparams, htarget⟩ := h.exists_copied hp hliterals htail hno hbelow
  generalize (r :: rs).length - (trim (r :: rs)).length = n at htarget
  rw [← hwritten, ← hext.written] at htarget
  have hsize' : last'.size = target.length := by rw [hext.size, hsize, h.targetUri_eq]
  have hlength := congrArg List.length htarget
  rw [List.length_append, List.length_append] at hlength
  obtain ⟨buffer, hcopy, hbuffer, hbufferWritten⟩ :=
    copyParams_wildcard hparams (show last'.written.length + _ ≤ last'.size by omega)
  -- something is copied: the last segment that is kept is not empty
  have hne : x ++ render xs ≠ [] := by
    obtain ⟨s, hs, hs'⟩ := exists_of_lt_length_trim (h.lt_length_params hp htail hno)
    rw [← h.params, hparams] at hs
    exact append_render_ne_nil hs hs'
  have hpos := List.length_pos_iff.mpr hne
  have hleads := leads_of_copy (drop_succ hdrop) (.inr rfl) h.onlyFirstParam_eq (by omega) hcopy
  rw [indexOf_suffix (drop_succ hdrop) plain'] at hleads
  refine ⟨buffer, ⟨by rw [hbuffer, hext.size, hsize], ?_⟩, (hsame.trans hsame').trans hleads.same⟩
  rw [h.targetUri_eq, hbufferWritten, hsize']
  cases n with
  | zero =>
      rw [List.replicate_zero, List.append_nil] at htarget
      rw [← List.append_assoc, ← htarget, List.take_left, List.replicate_zero, List.append_nil]
  | succ n =>
      rw [List.take_of_length_le]
      · rw [Nat.add_sub_cancel, htarget, List.replicate_succ]
        simp only [List.append_assoc, List.cons_append, List.nil_append]
      · have hroom' := hlength
        rw [List.length_replicate] at hroom'
        have hwhole : (last'.written ++ (x ++ render xs ++ [slash])).length =
            last'.written.length + ((x ++ render xs).length + 1) := by
          rw [List.length_append, List.length_append, List.length_singleton]
        omega

theorem copied_eq_nil_iff {k : Nat} (hparams : e.params = trim (r :: rs)) :
    e.copied false k = some [] ↔
      k ≤ (trim (r :: rs)).length ∧ ((r :: rs)[k]?).getD [] = [] := by
  rcases Nat.lt_trichotomy k (trim (r :: rs)).length with hlt | heq | hgt
  · rw [copied_of_lt hparams hlt, Option.some.injEq, and_iff_right (Nat.le_of_lt hlt),
      List.headD_eq_head?_getD, List.head?_drop]
  · have hends := trim_append_replicate (r :: rs)
    have hbehind : (r :: rs)[k]? =
        (List.replicate ((r :: rs).length - (trim (r :: rs)).length) ([] : Text))[0]? := by
      rw [heq]
      nth_rewrite 1 [hends]
      rw [List.getElem?_append_right (Nat.le_refl _), Nat.sub_self]
    rw [copied, if_neg Bool.false_ne_true, hparams, if_pos heq, hbehind, List.getElem?_replicate]
    refine iff_of_true rfl ⟨Nat.le_of_eq heq, ?_⟩
    split <;> rfl
  · rw [copied, if_neg Bool.false_ne_true, hparams, if_neg (Nat.ne_of_gt hgt),
      List.getElem?_eq_none (Nat.le_of_lt hgt)]
    exact iff_of_false (fun hnone => by cases hnone) fun hle => absurd hle.1 (Nat.not_le.mpr hgt)

theorem Entered.idleAt_iff (h : Entered p literals qs target r rs e i matchingUri)
    (hp : p.segments = literals ++ .parameter name plain :: qs)
    (hpos : 0 < (trim (r :: rs)).length) (n : Nat) :
    e.IdleAt p.segments[n % (p.segments.length + 1)]? (qs.length + 1 + 1 + n) ↔
      p.Idle target n := by
  have hcount := congrArg List.length hp
  rw [List.length_append, List.length_cons] at hcount
  have hindex : p.segments.length + 1 + n = literals.length + (qs.length + 1 + 1 + n) := by omega
  rw [Idle, hindex, h.length_trim hpos, h.segmentsEq]
  generalize qs.length + 1 + 1 + n = k
  cases p.segments[n % (p.segments.length + 1)]? with
  | none =>
      rw [IdleAt, h.params]
      exact (Nat.add_le_add_iff_left).symm
  | some s =>
      cases s with
      | literal text plain => exact Iff.rfl
      | parameter name plain =>
          have hlength : (literals.map Segment.text).length = literals.length := List.length_map _
          rw [IdleAt, copied_eq_nil_iff h.params, ← hlength, Nat.add_le_add_iff_left,
            List.getElem?_append_right (Nat.le_add_right _ _), Nat.add_sub_cancel_left]

/-- A target below the directory is given back when it does not end in a null character and the
slashes at its end are met. -/
theorem Entered.builds_iff (h : Entered p literals qs target r rs e i matchingUri)
    (hp : p.segments = literals ++ .parameter name plain :: qs)
    (hliterals : ∀ s ∈ literals, s.isParameter = false)
    (htail : p.tail = .suffix extension plain') (hno : p.NoLonger target)
    (hbelow : p.filled target ++ [slash] <+: target) :
    Builds p.text target false (.ok (some target)) ↔ target.getLast? ≠ some nul ∧
      ∀ n, n + 2 < (segmentsOf target).length - (trim (segmentsOf target)).length →
        p.Idle target n := by
  obtain ⟨last, hleft, hsame⟩ := h.exists_slashesLeft hp hliterals htail hno hbelow
  have hpos : 0 < (trim (r :: rs)).length := Nat.zero_lt_of_lt (h.lt_length_params hp htail hno)
  have hcount : (segmentsOf target).length - (trim (segmentsOf target)).length =
      (r :: rs).length - (trim (r :: rs)).length := by
    rw [h.length_trim hpos, h.segmentsEq, List.length_append, List.length_map,
      Nat.add_sub_add_left]
  rw [hcount, h.builds, hsame]
  generalize (r :: rs).length - (trim (r :: rs)).length = count at hleft
  by_cases hnul : target.getLast? = some nul
  · refine iff_of_false (fun hyields => ?_) fun hend => hend.1 hnul
    have hwildcard : p.text.getLast? ≠ some wildcard := by
      rw [ne_eq, p.getLast?_text, htail]
      exact fun hbelow => by cases hbelow
    have hend := hleft.target
    rw [h.targetUri_eq] at hend
    cases hleftover : count - 1 with
    | zero =>
        rw [hleftover, List.replicate_zero, List.append_nil] at hend
        have hwritten : last.written = e.targetUri := by rw [h.targetUri_eq, ← hend]
        have hnone : e.Yields 0 (qs.length + 1) last (.ok (e.finish last)) :=
          yields_full _ _ (by rw [hleft.size, hwritten])
        rw [finish_of_whole hleft.size hwritten, h.targetUri_eq, h.template_eq,
          if_pos ⟨hnul, hwildcard⟩] at hnone
        cases hyields.unique hnone
    | succ n =>
        rw [hleftover] at hend
        have hne : List.replicate (n + 1) slash ≠ [] := List.cons_ne_nil _ _
        rw [hend, List.getLast?_append_of_ne_nil _ hne, List.getLast?_replicate,
          if_neg n.succ_ne_zero] at hnul
        cases hnul
  · have hparams : ∀ param ∈ e.params, slash ∉ param := by
      intro param hparam
      rw [h.params] at hparam
      have hbegin : trim (r :: rs) <+: r :: rs := List.rdropWhile_prefix _ _
      rcases List.mem_cons.mp (hbegin.subset hparam) with rfl | hmem
      · exact h.first
      · exact h.others param hmem
    have hkept : ∀ j < e.params.length, ∃ param ∈ e.params.drop j, param ≠ [] := by
      rw [h.params]
      exact fun j => exists_of_lt_length_trim
    have hexpected := h.expected_eq htail
    have hiff := yields_iff_idle plain' h.onlyFirstParam_eq hexpected
      (by rw [h.targetUri_eq]; exact hnul) hparams hkept (count - 1) [] p.segments 0
      (qs.length + 1) last rfl (by rw [List.drop_zero, hexpected]) hleft
    rw [h.targetUri_eq] at hiff
    rw [hiff, and_iff_right hnul]
    refine forall_congr' fun n => ?_
    rw [List.length_nil, Nat.zero_add, h.idleAt_iff hp hpos]
    exact imp_congr_left (by omega)

/-- A pattern with a suffix gives back the targets below its directory, as `FilledBelow` says. -/
theorem builds_suffix (hp : p.segments = literals ++ .parameter name plain :: qs)
    (hliterals : ∀ s ∈ literals, s.isParameter = false) (htarget : target.head? = some slash)
    (htail : p.tail = .suffix extension plain') :
    Builds p.text target false (.ok (some target)) ↔ p.FilledBelow target := by
  constructor
  · intro hbuilds
    have henters := enters_of_builds hp hliterals hbuilds
    obtain ⟨r, rs, e, i, matchingUri, h⟩ := exists_entered hp hliterals henters
    have hbelow := h.below_of_builds hp hliterals htail henters.noLonger hbuilds
    obtain ⟨hnul, hidle⟩ :=
      (h.builds_iff hp hliterals htail henters.noLonger hbelow).mp hbuilds
    exact ⟨henters.noLonger, hbelow, hnul, hidle⟩
  · intro hfilled
    obtain ⟨r, rs, e, i, matchingUri, h⟩ := exists_entered hp hliterals
      (enters_of_comparable hp hliterals htarget hfilled.noLonger
        (.inr ((List.prefix_append _ _).trans hfilled.below)))
    exact (h.builds_iff hp hliterals htail hfilled.noLonger hfilled.below).mpr
      ⟨hfilled.noNul, hfilled.idle⟩

end

end Pattern

end Keycloak.PathMatcher
