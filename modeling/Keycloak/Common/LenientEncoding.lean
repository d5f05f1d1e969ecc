import Keycloak.Common.Encode

/-!
# What lenient encoding keeps

The encoding of a text without template parameters, then of a text with them, and when a second
encoding changes nothing.
-/

namespace Keycloak.Common.Encode

/-! ## Texts without template parameters -/

def encodeText (encoding : Encoding) (text : Text) : Text :=
  encodeNonCodes (encodeFromArray text encoding false)

def startsWithHex : Text → Bool
  | [] => false
  | c :: _ => isHex c

theorem startsWithCode_of_not_hex {text : Text} (h : startsWithHex text = false) :
    startsWithCode text = false := by
  cases text with
  | nil => rfl
  | cons a rest =>
      cases rest with
      | nil => rfl
      | cons b rest =>
          have ha : isHex a = false := h
          rw [startsWithCode, ha, Bool.false_and]

theorem encodeNonCodes_cons_of_ne {c : Nat} (h : c ≠ percent) (rest : Text) :
    encodeNonCodes (c :: rest) = c :: encodeNonCodes rest := by
  rw [encodeNonCodes, if_neg fun hc => h hc.1]

theorem isHex_ne_percent {c : Nat} (h : isHex c = true) : c ≠ percent := by
  rintro rfl
  cases h

theorem encodeNonCodes_code {a b : Nat} (ha : isHex a = true) (hb : isHex b = true) (rest : Text) :
    encodeNonCodes (percent :: a :: b :: rest) = percent :: a :: b :: encodeNonCodes rest := by
  have hcode : startsWithCode (a :: b :: rest) = true := by
    rw [startsWithCode, ha, hb, Bool.and_self]
  rw [encodeNonCodes, if_neg (by rw [hcode]; simp), encodeNonCodes_cons_of_ne (isHex_ne_percent ha),
    encodeNonCodes_cons_of_ne (isHex_ne_percent hb)]

theorem encodeNonCodes_codes {codes : Text} (h : Codes codes) (rest : Text) :
    encodeNonCodes (codes ++ rest) = codes ++ encodeNonCodes rest := by
  induction h with
  | nil => rfl
  | cons ha hb _ ih =>
      rw [List.cons_append, List.cons_append, List.cons_append, encodeNonCodes_code ha hb, ih]
      rfl

theorem startsWithHex_of_codes {codes rest : Text} (h : Codes codes) (hne : codes ≠ []) :
    startsWithHex (codes ++ rest) = false := by
  cases h with
  | nil => exact absurd rfl hne
  | cons ha hb _ => rfl

section

variable {encoding : Encoding} (h : Lenient encoding)
variable {c : Nat} {text encoded a b : Text}

theorem encodeFromArray_cons (c : Nat) (text : Text) :
    encodeFromArray (c :: text) encoding false =
      (if c = percent then [c] else (encode c encoding).getD [c]) ++
        encodeFromArray text encoding false := by
  simp [encodeFromArray]

theorem encodeFromArray_append (a b : Text) :
    encodeFromArray (a ++ b) encoding false =
      encodeFromArray a encoding false ++ encodeFromArray b encoding false := by
  simp [encodeFromArray]

include h

theorem Lenient.ne_percent (hc : encode c encoding = none) : c ≠ percent := by
  rintro rfl
  exact h.special percent List.mem_cons_self hc

theorem startsWithHex_encodeFromArray (text : Text) :
    startsWithHex (encodeFromArray text encoding false) = startsWithHex text := by
  cases text with
  | nil => rfl
  | cons c text =>
      rw [encodeFromArray_cons]
      by_cases hpercent : c = percent
      · rw [if_pos hpercent]
        rfl
      · rw [if_neg hpercent]
        cases hc : encode c encoding with
        | none => rfl
        | some x =>
            obtain ⟨hcodes, hne⟩ := h.codes c x hc
            have hhex : isHex c = false := by
              by_contra hhex
              rw [h.hex c (by simpa using hhex)] at hc
              cases hc
            rw [Option.getD_some, startsWithHex_of_codes hcodes hne, startsWithHex, hhex]

theorem startsWithCode_encodeFromArray (text : Text) :
    startsWithCode (encodeFromArray text encoding false) = startsWithCode text := by
  cases text with
  | nil => rfl
  | cons a rest =>
      by_cases ha : isHex a = true
      · have htail := startsWithHex_encodeFromArray h rest
        rw [encodeFromArray_cons, if_neg (isHex_ne_percent ha), h.hex a ha, Option.getD_none,
          List.singleton_append]
        cases rest with
        | nil => rfl
        | cons b rest =>
            cases hencoded : encodeFromArray (b :: rest) encoding false with
            | nil =>
                rw [hencoded] at htail
                have hb : isHex b = false := htail.symm
                rw [startsWithCode, startsWithCode, hb, Bool.and_false]
                simp
            | cons b' rest' =>
                rw [hencoded] at htail
                have hb : isHex b' = isHex b := htail
                rw [startsWithCode, startsWithCode, hb]
      · have hnot : startsWithHex (a :: rest) = false := by simpa [startsWithHex] using ha
        rw [startsWithCode_of_not_hex hnot]
        apply startsWithCode_of_not_hex
        rw [startsWithHex_encodeFromArray h, hnot]

theorem encodeText_allowed (hc : encode c encoding = none) (text : Text) :
    encodeText encoding (c :: text) = c :: encodeText encoding text := by
  rw [encodeText, encodeFromArray_cons, if_neg (h.ne_percent hc), hc, Option.getD_none,
    List.singleton_append, encodeNonCodes_cons_of_ne (h.ne_percent hc), encodeText]

theorem encodeText_escaped {x : Text} (hpercent : c ≠ percent) (hc : encode c encoding = some x)
    (text : Text) : encodeText encoding (c :: text) = x ++ encodeText encoding text := by
  rw [encodeText, encodeFromArray_cons, if_neg hpercent, hc, Option.getD_some,
    encodeNonCodes_codes (h.codes c x hc).1, encodeText]

theorem encodeText_stray (hstray : startsWithCode text = false) :
    encodeText encoding (percent :: text) = units ['%', '2', '5'] ++ encodeText encoding text := by
  rw [encodeText, encodeFromArray_cons, if_pos rfl, List.singleton_append, encodeNonCodes,
    if_pos ⟨rfl, (startsWithCode_encodeFromArray h text).trans hstray⟩, encodeText]

theorem encodeText_code {x y : Nat} (hx : isHex x = true) (hy : isHex y = true) (text : Text) :
    encodeText encoding (percent :: x :: y :: text) =
      percent :: x :: y :: encodeText encoding text := by
  have hcode : startsWithCode (encodeFromArray (x :: y :: text) encoding false) = true := by
    rw [startsWithCode_encodeFromArray h, startsWithCode, hx, hy, Bool.and_self]
  rw [encodeText, encodeFromArray_cons, if_pos rfl, List.singleton_append, encodeNonCodes,
    if_neg (by rw [hcode]; simp)]
  show percent :: encodeText encoding (x :: y :: text) = _
  rw [encodeText_allowed h (h.hex x hx), encodeText_allowed h (h.hex y hy)]

/-- The text is encoded as the claim of the tables has it. -/
theorem encodes_encodeText (text : Text) : Encodes encoding text (encodeText encoding text) := by
  induction hn : text.length using Nat.strong_induction_on generalizing text with
  | _ n ih =>
      cases text with
      | nil => exact Encodes.nil
      | cons c text =>
          have hrest := ih text.length (by rw [← hn, List.length_cons]; omega) text rfl
          by_cases hpercent : c = percent
          · subst hpercent
            cases hcode : startsWithCode text with
            | false =>
                rw [encodeText_stray h hcode]
                exact Encodes.escaped (h.special _ List.mem_cons_self) (fun _ => hcode)
                  (Codes.cons (by decide) (by decide) Codes.nil)
                  (by decide) hrest
            | true =>
                -- the digits behind the sign are there, and kept
                match text, hcode with
                | x :: y :: text, hcode =>
                    rw [startsWithCode, Bool.and_eq_true] at hcode
                    rw [encodeText_code h hcode.1 hcode.2]
                    refine Encodes.code hcode.1 hcode.2 (ih text.length ?_ text rfl)
                    rw [← hn, List.length_cons, List.length_cons, List.length_cons]
                    omega
          · cases hc : encode c encoding with
            | none =>
                rw [encodeText_allowed h hc]
                exact Encodes.allowed hc hrest
            | some x =>
                obtain ⟨hcodes, hne⟩ := h.codes c x hc
                rw [encodeText_escaped h hpercent hc]
                exact Encodes.escaped (by rw [hc]; exact Option.some_ne_none x)
                  (fun heq => absurd heq hpercent) hcodes hne hrest

theorem encodeText_codes_append {codes : Text} (hcodes : Codes codes) (text : Text) :
    encodeText encoding (codes ++ text) = codes ++ encodeText encoding text := by
  induction hcodes with
  | nil => rfl
  | cons ha hb _ ih =>
      rw [List.cons_append, List.cons_append, List.cons_append, encodeText_code h ha hb, ih]
      rfl

theorem encodeText_of_encodes (hencodes : Encodes encoding text encoded) :
    encodeText encoding encoded = encoded := by
  induction hencodes with
  | nil => rfl
  | allowed hc _ ih => rw [encodeText_allowed h hc, ih]
  | code ha hb _ ih => rw [encodeText_code h ha hb, ih]
  | escaped _ _ hcodes _ _ ih => rw [encodeText_codes_append h hcodes, ih]

theorem forall_mem_codes {codes : Text} (hcodes : Codes codes) :
    ∀ c ∈ codes, c = percent ∨ encode c encoding = none := by
  induction hcodes with
  | nil => exact fun c hc => absurd hc List.not_mem_nil
  | cons ha hb _ ih =>
      intro c hc
      rcases List.mem_cons.mp hc with rfl | hc
      · exact .inl rfl
      rcases List.mem_cons.mp hc with rfl | hc
      · exact .inr (h.hex _ ha)
      rcases List.mem_cons.mp hc with rfl | hc
      · exact .inr (h.hex _ hb)
      · exact ih c hc

theorem forall_mem_encoded (hencodes : Encodes encoding text encoded) :
    ∀ c ∈ encoded, c = percent ∨ encode c encoding = none := by
  induction hencodes with
  | nil => exact fun c hc => absurd hc List.not_mem_nil
  | allowed hc _ ih => exact List.forall_mem_cons.mpr ⟨.inr hc, ih⟩
  | code ha hb _ ih =>
      exact List.forall_mem_cons.mpr ⟨.inl rfl, List.forall_mem_cons.mpr ⟨.inr (h.hex _ ha),
        List.forall_mem_cons.mpr ⟨.inr (h.hex _ hb), ih⟩⟩⟩
  | escaped _ _ hcodes _ _ ih =>
      exact List.forall_mem_append.mpr ⟨forall_mem_codes h hcodes, ih⟩

theorem not_mem_encoded (hencodes : Encodes encoding text encoded)
    (hc : c ∈ [openBrace, closeBrace, openCurlyReplacement, closeCurlyReplacement]) :
    c ∉ encoded := by
  intro hmem
  rcases forall_mem_encoded h hencodes c hmem with rfl | hallowed
  · revert hc
    decide
  · exact h.special c (List.mem_cons_of_mem _ hc) hallowed

end

/-- A percent sign in front of a text that starts with no digit is no code. -/
theorem encodeNonCodes_append {a b : Text} (hb : startsWithHex b = false) :
    encodeNonCodes (a ++ b) = encodeNonCodes a ++ encodeNonCodes b := by
  induction a with
  | nil => rfl
  | cons c a ih =>
      have hcode : startsWithCode (a ++ b) = startsWithCode a := by
        cases a with
        | nil => exact startsWithCode_of_not_hex hb
        | cons x a =>
            cases a with
            | nil =>
                cases b with
                | nil => rfl
                | cons y b =>
                    have hy : isHex y = false := hb
                    simp [startsWithCode, hy]
            | cons y a => rfl
      rw [List.cons_append, encodeNonCodes, encodeNonCodes, hcode, ih]
      split_ifs
      · rw [List.append_assoc]
      · rw [List.cons_append]

section

variable {encoding : Encoding} (h : Lenient encoding)
variable {c : Nat} {text encoded a b : Text}

include h

theorem encodeText_allowed_append {w : Text} (hw : ∀ c ∈ w, encode c encoding = none)
    (text : Text) : encodeText encoding (w ++ text) = w ++ encodeText encoding text := by
  induction w with
  | nil => rfl
  | cons c w ih =>
      rw [List.forall_mem_cons] at hw
      rw [List.cons_append, encodeText_allowed h hw.1, ih hw.2]
      rfl

/-- The text for a parameter is kept where it stands. -/
theorem encodeText_append_parameter (a b : Text) :
    encodeText encoding (a ++ (uriParameter ++ b)) =
      encodeText encoding a ++ (uriParameter ++ encodeText encoding b) := by
  have hstart : startsWithHex (encodeFromArray (uriParameter ++ b) encoding false) = false := by
    rw [startsWithHex_encodeFromArray h]
    rfl
  rw [encodeText, encodeFromArray_append, encodeNonCodes_append hstart]
  show encodeText encoding a ++ encodeText encoding (uriParameter ++ b) = _
  rw [encodeText_allowed_append h h.parameter]

theorem encodeText_mark (f : Text → Text) (head : Text) (tail : List (Text × Text)) :
    encodeText encoding (Marker.mark uriParameter head tail) =
      Marker.mark uriParameter (encodeText encoding head)
        (tail.map fun x => (f x.1, encodeText encoding x.2)) := by
  induction tail generalizing head with
  | nil => simp [Marker.mark]
  | cons x tail ih =>
      rw [Marker.mark_cons, encodeText_append_parameter h, ih, List.map_cons, Marker.mark_cons]

theorem begins_of_encodes {w : Text} (hw : ∀ c ∈ w, encode c encoding = none)
    (hencodes : Encodes encoding text encoded) (hbegin : w <+: encoded) : w <+: text := by
  induction hencodes generalizing w with
  | nil => exact hbegin
  | allowed hc _ ih =>
      cases w with
      | nil => exact List.nil_prefix
      | cons x w =>
          obtain ⟨rfl, hrest⟩ := List.cons_prefix_cons.mp hbegin
          exact (List.prefix_cons_inj x).mpr (ih (List.forall_mem_cons.mp hw).2 hrest)
  | code ha hb _ _ =>
      cases w with
      | nil => exact List.nil_prefix
      | cons x w =>
          obtain ⟨rfl, -⟩ := List.cons_prefix_cons.mp hbegin
          exact absurd rfl (h.ne_percent (List.forall_mem_cons.mp hw).1)
  | escaped _ _ hcodes hne _ _ =>
      cases w with
      | nil => exact List.nil_prefix
      | cons x w =>
          cases hcodes with
          | nil => exact absurd rfl hne
          | cons _ _ _ =>
              obtain ⟨rfl, -⟩ := List.cons_prefix_cons.mp hbegin
              exact absurd rfl (h.ne_percent (List.forall_mem_cons.mp hw).1)

omit h in
/-- The text for a parameter starts with no digit and no percent sign, so a code in front of
another text has no part in it. -/
theorem within_of_code {x y : Nat} (hx : isHex x = true) (hy : isHex y = true) {text : Text}
    (hwithin : uriParameter <:+: percent :: x :: y :: text) : uriParameter <:+: text := by
  have hcons : ∀ {c : Nat} {text : Text}, c ≠ 95 → uriParameter <:+: c :: text →
      uriParameter <:+: text := by
    intro c text hc hwithin
    rcases List.infix_cons_iff.mp hwithin with hbegin | hrest
    · exact absurd (List.cons_prefix_cons.mp hbegin).1.symm hc
    · exact hrest
  have hdigit : ∀ {c : Nat}, isHex c = true → c ≠ 95 := by
    rintro c hc rfl
    cases hc
  exact hcons (hdigit hy) (hcons (hdigit hx) (hcons (by decide) hwithin))

omit h in
theorem within_of_codes {codes text : Text} (hcodes : Codes codes)
    (hwithin : uriParameter <:+: codes ++ text) : uriParameter <:+: text := by
  induction hcodes with
  | nil => exact hwithin
  | cons ha hb _ ih => exact ih (within_of_code ha hb hwithin)

/-- Encoding makes no text for a parameter. -/
theorem within_of_encodes (hencodes : Encodes encoding text encoded)
    (hwithin : uriParameter <:+: encoded) : uriParameter <:+: text := by
  induction hencodes with
  | nil => exact hwithin
  | allowed hc hrest ih =>
      rcases List.infix_cons_iff.mp hwithin with hbegin | hwithin
      · exact (begins_of_encodes h h.parameter (Encodes.allowed hc hrest) hbegin).isInfix
      · exact (ih hwithin).trans (List.infix_cons_iff.mpr (.inr (List.infix_refl _)))
  | code ha hb hrest ih =>
      have htext := ih (within_of_code ha hb hwithin)
      exact htext.trans (List.suffix_append [percent, _, _] _).isInfix
  | escaped _ _ hcodes _ hrest ih =>
      have htext := ih (within_of_codes hcodes hwithin)
      exact htext.trans (List.infix_cons_iff.mpr (.inr (List.infix_refl _)))

theorem within_encodeText (hwithin : uriParameter <:+: text) :
    uriParameter <:+: encodeText encoding text := by
  obtain ⟨a, b, rfl⟩ := hwithin
  rw [List.append_assoc, encodeText_append_parameter h]
  exact ⟨encodeText encoding a, encodeText encoding b, by rw [List.append_assoc]⟩

end

/-! ## Replaced braces -/

theorem eq_of_recover {c d : Nat} (hopen : c ≠ openBrace) (hclose : c ≠ closeBrace)
    (h : recover d = c) : d = c := by
  unfold recover at h
  split_ifs at h with hd hd'
  · exact absurd h.symm hopen
  · exact absurd h.symm hclose
  · exact h

theorem recover_of_ne {c : Nat} (hopen : c ≠ openCurlyReplacement)
    (hclose : c ≠ closeCurlyReplacement) : recover c = c := by
  rw [recover, if_neg hopen, if_neg hclose]

theorem isHex_recover (c : Nat) : isHex (recover c) = isHex c := by
  unfold recover
  split_ifs with h h'
  · rw [h]
    rfl
  · rw [h']
    rfl
  · rfl

theorem startsWithCode_recover (text : Text) :
    startsWithCode (text.map recover) = startsWithCode text := by
  match text with
  | [] => rfl
  | [c] => rfl
  | a :: b :: rest => rw [List.map_cons, List.map_cons, startsWithCode, startsWithCode,
      isHex_recover, isHex_recover]

theorem uriParameter_recover : uriParameter.map recover = uriParameter := by decide

theorem within_recover_iff {text : Text} :
    uriParameter <:+: text.map recover ↔ uriParameter <:+: text := by
  constructor
  · rintro ⟨a, b, hsplit⟩
    obtain ⟨ab', b', rfl, hab, -⟩ := List.map_eq_append_iff.mp hsplit.symm
    obtain ⟨a', w, rfl, -, hw⟩ := List.map_eq_append_iff.mp hab
    have hbraces : ∀ c ∈ uriParameter, c ≠ openBrace ∧ c ≠ closeBrace := by decide
    have hsame : w = uriParameter := by
      rw [← hw]
      refine (List.map_id w).symm.trans (List.map_congr_left fun c hc => ?_)
      have hmem : recover c ∈ uriParameter := hw ▸ List.mem_map_of_mem hc
      exact eq_of_recover (hbraces _ hmem).1 (hbraces _ hmem).2 rfl
    exact ⟨a', b', by rw [hsame]⟩
  · intro hwithin
    have hmap := List.IsInfix.map recover hwithin
    rwa [uriParameter_recover] at hmap

theorem Lenient.eq_of_recover {encoding : Encoding} (h : Lenient encoding) {c d : Nat}
    (hc : encode c encoding = none) (hrecover : recover d = recover c) : d = c := by
  have hspecial : ∀ x ∈ [percent, openBrace, closeBrace, openCurlyReplacement,
      closeCurlyReplacement], c ≠ x := fun x hx heq => h.special x hx (heq ▸ hc)
  rw [recover_of_ne (hspecial _ (by decide)) (hspecial _ (by decide))] at hrecover
  exact Encode.eq_of_recover (hspecial _ (by decide)) (hspecial _ (by decide)) hrecover

/-- Texts that differ only in braces and their replacements have the same encodings. -/
theorem Encodes.of_recover {encoding : Encoding} (h : Lenient encoding)
    {text text' encoded : Text} (hencodes : Encodes encoding text encoded)
    (hrecover : text'.map recover = text.map recover) : Encodes encoding text' encoded := by
  have hplain : ∀ {c d : Nat}, c ≠ openBrace → c ≠ closeBrace → c ≠ openCurlyReplacement →
      c ≠ closeCurlyReplacement → recover d = recover c → d = c := by
    intro c d h1 h2 h3 h4 hd
    rw [recover_of_ne h3 h4] at hd
    exact Encode.eq_of_recover h1 h2 hd
  induction hencodes generalizing text' with
  | nil =>
      rw [List.map_eq_nil_iff.mp hrecover]
      exact Encodes.nil
  | allowed hc _ ih =>
      obtain ⟨d, rest, rfl, hd, hrest⟩ := List.map_eq_cons_iff.mp hrecover
      obtain rfl := h.eq_of_recover hc hd
      exact Encodes.allowed hc (ih hrest)
  | code ha hb _ ih =>
      obtain ⟨d, rest₁, rfl, hd, hrest₁⟩ := List.map_eq_cons_iff.mp hrecover
      obtain ⟨x, rest₂, rfl, hx, hrest₂⟩ := List.map_eq_cons_iff.mp hrest₁
      obtain ⟨y, rest, rfl, hy, hrest⟩ := List.map_eq_cons_iff.mp hrest₂
      obtain rfl := hplain (by decide) (by decide) (by decide) (by decide) hd
      obtain rfl := h.eq_of_recover (h.hex _ ha) hx
      obtain rfl := h.eq_of_recover (h.hex _ hb) hy
      exact Encodes.code ha hb (ih hrest)
  | escaped hc hpercent hcodes hne _ ih =>
      obtain ⟨d, rest, rfl, hd, hrest⟩ := List.map_eq_cons_iff.mp hrecover
      refine Encodes.escaped (fun hnone => ?_) (fun heq => ?_) hcodes hne (ih hrest)
      · rw [← h.eq_of_recover hnone hd.symm] at hnone
        exact hc hnone
      · subst heq
        have hsign := hplain (by decide) (by decide) (by decide) (by decide) hd.symm
        rw [← startsWithCode_recover, hrest, startsWithCode_recover]
        exact hpercent hsign

end Keycloak.Common.Encode
