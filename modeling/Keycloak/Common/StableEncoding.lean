import Keycloak.Common.EncodedTemplates
import Mathlib.Data.List.Forall2

/-!
# When lenient encoding is total and stable

The encoding of a path, of a segment or of a query succeeds, keeps the template parameters and
is not changed by another encoding, unless a piece beside a parameter has the text that stands
in for parameters, or a parameter has one of the characters that stand in for braces.
-/

namespace Keycloak.Common.Encode

/-- The encoded text has the template parameters of the text, and encodings of what is between
them. -/
def Kept (encoding : Encoding) (text encoded : Text) : Prop :=
  ∃ head tail, Encodes encoding (templates text).1 head ∧
    List.Forall₂ (fun x y => y.1 = x.1 ∧ Encodes encoding x.2 y.2) (templates text).2 tail ∧
    encoded = Marker.join head tail

/-- The text is encoded, its parameters are kept, and another encoding changes nothing. -/
def Stable (encode : Text → Option Text) (encoding : Encoding) (text : Text) : Prop :=
  ∃ encoded, encode text = some encoded ∧ Kept encoding text encoded ∧
    encode encoded = some encoded

/-- A piece has the text that stands in for a template parameter. -/
def Marked (pieces : Pieces) : Prop :=
  uriParameter <:+: pieces.1 ∨ ∃ x ∈ pieces.2, uriParameter <:+: x.2

/-- The template parameters have none of the characters that stand in for braces. -/
def Uncontrolled (pieces : Pieces) : Prop :=
  ∀ x ∈ pieces.2, openCurlyReplacement ∉ x.1 ∧ closeCurlyReplacement ∉ x.1

/-- What the encodings rely on: if there are parameters at all, no other piece looks like one,
and their braces can be told from control characters. -/
def Separable (text : Text) : Prop :=
  ((templates text).2 ≠ [] → ¬ Marked (templates text)) ∧ Uncontrolled (templates text)

theorem exists_related {α β : Type*} {R : α → β → Prop} {xs : List α} {ys : List β}
    (h : List.Forall₂ R xs ys) {x : α} (hx : x ∈ xs) : ∃ y ∈ ys, R x y := by
  induction h with
  | nil => exact absurd hx List.not_mem_nil
  | @cons a b _ _ hab _ ih =>
      rcases List.mem_cons.mp hx with rfl | hx
      · exact ⟨b, List.mem_cons_self, hab⟩
      · obtain ⟨y, hy, hxy⟩ := ih hx
        exact ⟨y, List.mem_cons_of_mem b hy, hxy⟩

def found (text : Text) : Pieces := matchTemplates none (replaceEnclosedCurlyBraces text)

theorem map_recover_found (text : Text) :
    (found text).map recover = (templates text).map recover :=
  (matchTemplates_replaceFrom text).1 0

theorem marked_map_recover_iff (pieces : Pieces) :
    Marked (pieces.map recover) ↔ Marked pieces := by
  simp [Marked, Pieces.map, within_recover_iff]

theorem marked_found_iff (text : Text) : Marked (found text) ↔ Marked (templates text) := by
  rw [← marked_map_recover_iff, map_recover_found, marked_map_recover_iff]

theorem forall₂_of_map_recover {pieces pieces' : Pieces}
    (h : pieces.map recover = pieces'.map recover) :
    List.Forall₂ (fun x y => x.1.map recover = y.1.map recover ∧
      x.2.map recover = y.2.map recover) pieces.2 pieces'.2 := by
  have htail : (pieces.map recover).2 = (pieces'.map recover).2 := congrArg Prod.snd h
  rw [← List.forall₂_eq_eq_eq] at htail
  unfold Pieces.map at htail
  rw [List.forall₂_map_left_iff, List.forall₂_map_right_iff] at htail
  exact htail.imp fun x y hxy => Prod.mk.inj hxy

theorem found_eq_nil_iff (text : Text) : (found text).2 = [] ↔ (templates text).2 = [] := by
  have hlength := (forall₂_of_map_recover (map_recover_found text)).length_eq
  rw [← List.length_eq_zero_iff, hlength, List.length_eq_zero_iff]

theorem map_recover_eq_self {text : Text}
    (h : openCurlyReplacement ∉ text ∧ closeCurlyReplacement ∉ text) :
    text.map recover = text := by
  refine (List.map_congr_left fun c hc => ?_).trans (List.map_id text)
  exact recover_of_ne (fun heq => h.1 (heq ▸ hc)) fun heq => h.2 (heq ▸ hc)

theorem eq_of_map_recover {a b : Text} (h : a.map recover = b.map recover) (hb : Unbraced b)
    (hcontrols : openCurlyReplacement ∉ b ∧ closeCurlyReplacement ∉ b) : a = b := by
  rw [map_recover_eq_self hcontrols] at h
  refine ((List.map_id a).symm.trans (List.map_congr_left fun c hc => ?_)).trans h
  have hmem : recover c ∈ b := h ▸ List.mem_map_of_mem hc
  exact eq_of_recover (fun heq => hb.1 (heq ▸ hmem)) (fun heq => hb.2 (heq ▸ hmem)) rfl

theorem recover_ne (c : Nat) :
    recover c ≠ openCurlyReplacement ∧ recover c ≠ closeCurlyReplacement := by
  unfold recover
  split_ifs with hopen hclose
  · decide
  · decide
  · exact ⟨hopen, hclose⟩

theorem unbordered_uriParameter : Marker.Unbordered uriParameter := by decide

section

variable {encoding : Encoding} (h : Lenient encoding)
variable {text encoded : Text}

include h

/-! ## The encoding of a text with template parameters -/

theorem unbraced_encoded (hencodes : Encodes encoding text encoded) : Unbraced encoded :=
  ⟨not_mem_encoded h hencodes (by decide), not_mem_encoded h hencodes (by decide)⟩

theorem not_mem_controls_encoded (hencodes : Encodes encoding text encoded) :
    openCurlyReplacement ∉ encoded ∧ closeCurlyReplacement ∉ encoded :=
  ⟨not_mem_encoded h hencodes (by decide), not_mem_encoded h hencodes (by decide)⟩

def encodedPieces (encoding : Encoding) (pieces : Pieces) : Pieces :=
  (encodeText encoding pieces.1,
    pieces.2.map fun x => (x.1.map recover, encodeText encoding x.2))

omit h in
theorem encodeValue_of_found_eq_nil (hnil : (found text).2 = []) :
    encodeValue text encoding = some (encodeText encoding text) := by
  have hsaved : (savePathParams text).2 = [] := List.map_eq_nil_iff.mpr hnil
  rw [encodeValue, if_pos hsaved, encodeText]

theorem encodeValue_of_found (hne : (found text).2 ≠ []) :
    encodeValue text encoding =
      Marker.weave (Marker.cut uriParameter (Marker.mark uriParameter
        (encodedPieces encoding (found text)).1 (encodedPieces encoding (found text)).2))
        ((encodedPieces encoding (found text)).2.map Prod.fst) := by
  have hsaved : (savePathParams text).2 ≠ [] := fun hnil => hne (List.map_eq_nil_iff.mp hnil)
  have hparams : (savePathParams text).2 =
      (encodedPieces encoding (found text)).2.map Prod.fst := by
    rw [encodedPieces, List.map_map]
    rfl
  rw [encodeValue, if_neg hsaved, pathParamReplacement, hparams]
  show Marker.weave (Marker.cut uriParameter (encodeText encoding
    (Marker.mark uriParameter (found text).1 (found text).2))) _ = _
  rw [encodeText_mark h (List.map recover)]
  rfl

theorem marked_encodedPieces_iff (pieces : Pieces) :
    Marked (encodedPieces encoding pieces) ↔ Marked pieces := by
  have hwithin : ∀ text, uriParameter <:+: encodeText encoding text ↔ uriParameter <:+: text :=
    fun text => ⟨within_of_encodes h (encodes_encodeText h text), within_encodeText h⟩
  simp [Marked, encodedPieces, hwithin]

theorem encodeValue_of_not_marked (hne : (found text).2 ≠ []) (hmarked : ¬ Marked (found text)) :
    encodeValue text encoding = some (Marker.join (encodedPieces encoding (found text)).1
      (encodedPieces encoding (found text)).2) := by
  rw [← marked_encodedPieces_iff h, Marked, not_or, not_exists] at hmarked
  rw [encodeValue_of_found h hne]
  exact Marker.weave_cut_mark unbordered_uriParameter hmarked.1 fun x hx hwithin =>
    hmarked.2 x ⟨hx, hwithin⟩

theorem encodeValue_of_marked (hne : (found text).2 ≠ []) (hmarked : Marked (found text)) :
    encodeValue text encoding = none := by
  rw [← marked_encodedPieces_iff h] at hmarked
  rw [encodeValue_of_found h hne]
  exact Marker.weave_cut_mark_eq_none unbordered_uriParameter hmarked

theorem not_mem_encodedPieces (pieces : Pieces) {c : Nat}
    (hc : c = openCurlyReplacement ∨ c = closeCurlyReplacement) :
    c ∉ Marker.join (encodedPieces encoding pieces).1 (encodedPieces encoding pieces).2 := by
  have hencoded : ∀ text, c ∉ encodeText encoding text := fun text => by
    have hcontrols := not_mem_controls_encoded h (encodes_encodeText h text)
    rcases hc with rfl | rfl
    · exact hcontrols.1
    · exact hcontrols.2
  have hrecover : ∀ text : Text, c ∉ text.map recover := by
    intro text hmem
    obtain ⟨x, -, hx⟩ := List.mem_map.mp hmem
    rcases hc with rfl | rfl
    · exact (recover_ne x).1 hx
    · exact (recover_ne x).2 hx
  intro hmem
  rw [Marker.join, encodedPieces, List.mem_append, List.mem_flatMap] at hmem
  rcases hmem with hmem | ⟨y, hy, hmem⟩
  · exact hencoded _ hmem
  · obtain ⟨x, -, rfl⟩ := List.mem_map.mp hy
    rcases List.mem_append.mp hmem with hmem | hmem
    · exact hrecover _ hmem
    · exact hencoded _ hmem

/-! ## What is kept -/

theorem forall₂_encodedPieces {found tail : List (Text × Text)}
    (hrecover : List.Forall₂ (fun x y => x.1.map recover = y.1.map recover ∧
      x.2.map recover = y.2.map recover) found tail)
    (hcontrols : ∀ x ∈ tail, openCurlyReplacement ∉ x.1 ∧ closeCurlyReplacement ∉ x.1) :
    List.Forall₂ (fun x y => y.1 = x.1 ∧ Encodes encoding x.2 y.2) tail
      (found.map fun x => (x.1.map recover, encodeText encoding x.2)) := by
  induction hrecover with
  | nil => exact List.Forall₂.nil
  | @cons x y found tail hxy _ ih =>
      obtain ⟨hy, htail⟩ := List.forall_mem_cons.mp hcontrols
      refine List.Forall₂.cons ⟨?_, ?_⟩ (ih htail)
      · exact hxy.1.trans (map_recover_eq_self hy)
      · exact (encodes_encodeText h x.2).of_recover h hxy.2.symm

theorem kept_encodedPieces (hcontrols : Uncontrolled (templates text)) :
    Kept encoding text (Marker.join (encodedPieces encoding (found text)).1
      (encodedPieces encoding (found text)).2) := by
  have hrecover := map_recover_found text
  have hhead : (found text).1.map recover = (templates text).1.map recover :=
    congrArg Prod.fst hrecover
  exact ⟨_, _, (encodes_encodeText h _).of_recover h hhead.symm,
    forall₂_encodedPieces h (forall₂_of_map_recover hrecover) hcontrols, rfl⟩

theorem kept_encodeText (hnil : (templates text).2 = []) :
    Kept encoding text (encodeText encoding text) := by
  have htext : (templates text).1 = text := by
    have hjoin := join_templates text
    rw [hnil] at hjoin
    simpa [Marker.join] using hjoin
  refine ⟨encodeText encoding text, [], ?_, ?_, (List.append_nil _).symm⟩
  · rw [htext]
    exact encodes_encodeText h text
  · rw [hnil]
    exact List.Forall₂.nil

omit h in
theorem mem_of_kept (hkept : Kept encoding text encoded) {x : Text × Text}
    (hx : x ∈ (templates text).2) {c : Nat} (hc : c ∈ x.1) : c ∈ encoded := by
  obtain ⟨head, tail, -, htail, rfl⟩ := hkept
  obtain ⟨y, hy, heq, -⟩ := exists_related htail hx
  refine List.mem_append_right head (List.mem_flatMap.mpr ⟨y, hy, ?_⟩)
  exact List.mem_append_left y.2 (heq ▸ hc)

/-! ## The second encoding -/

theorem encodedPieces_of_kept {head : Text} {tail : List (Text × Text)}
    (hhead : Encodes encoding text head)
    (htail : ∀ y ∈ tail, (openCurlyReplacement ∉ y.1 ∧ closeCurlyReplacement ∉ y.1) ∧
      ∃ piece, Encodes encoding piece y.2)
    {pieces : Pieces} (hrecover : pieces.map recover = Pieces.map recover (head, tail)) :
    encodedPieces encoding pieces = (head, tail) := by
  have hsame : ∀ {a piece b : Text}, Encodes encoding piece b → a.map recover = b.map recover →
      encodeText encoding a = b := by
    intro a piece b hencodes heq
    rw [eq_of_map_recover heq (unbraced_encoded h hencodes) (not_mem_controls_encoded h hencodes)]
    exact encodeText_of_encodes h hencodes
  have hfirst : pieces.1.map recover = head.map recover := congrArg Prod.fst hrecover
  have hrest := forall₂_of_map_recover hrecover
  have hall : ∀ {found tail : List (Text × Text)},
      List.Forall₂ (fun x y => x.1.map recover = y.1.map recover ∧
        x.2.map recover = y.2.map recover) found tail →
      (∀ y ∈ tail, (openCurlyReplacement ∉ y.1 ∧ closeCurlyReplacement ∉ y.1) ∧
        ∃ piece, Encodes encoding piece y.2) →
      (found.map fun x => (x.1.map recover, encodeText encoding x.2)) = tail := by
    intro found tail hfound htail
    induction hfound with
    | nil => rfl
    | @cons x y found tail hxy _ ih =>
        obtain ⟨⟨hcontrols, piece, hpiece⟩, htail⟩ := List.forall_mem_cons.mp htail
        rw [List.map_cons, ih htail, hxy.1, map_recover_eq_self hcontrols, hsame hpiece hxy.2]
  rw [encodedPieces, hsame hhead hfirst, hall hrest htail]

theorem encodeValue_of_kept (hkept : Kept encoding text encoded) (hseparable : Separable text) :
    encodeValue encoded encoding = some encoded := by
  obtain ⟨head, tail, hhead, htail, rfl⟩ := hkept
  obtain ⟨hmarked, hcontrols⟩ := hseparable
  have hpieces : ∀ y ∈ tail, ∃ x ∈ (templates text).2, y.1 = x.1 ∧ Encodes encoding x.2 y.2 :=
    fun y hy => exists_related (List.Forall₂.flip htail) hy
  have hread : templates (Marker.join head tail) = (head, tail) := by
    refine templates_join (unbraced_encoded h hhead) fun y hy => ?_
    obtain ⟨x, hx, hparam, hencodes⟩ := hpieces y hy
    exact ⟨hparam ▸ isTemplate_of_mem_templates hx, unbraced_encoded h hencodes⟩
  have hrecover := map_recover_found (Marker.join head tail)
  rw [hread] at hrecover
  have hencoded : encodedPieces encoding (found (Marker.join head tail)) = (head, tail) := by
    refine encodedPieces_of_kept h hhead (fun y hy => ?_) hrecover
    obtain ⟨x, hx, hparam, hencodes⟩ := hpieces y hy
    exact ⟨hparam ▸ hcontrols x hx, x.2, hencodes⟩
  by_cases hnil : tail = []
  · have hfound : (found (Marker.join head tail)).2 = [] := by
      rw [found_eq_nil_iff, hread, hnil]
    have hhead' : Marker.join head tail = head := by
      rw [hnil]
      exact List.append_nil head
    rw [encodeValue_of_found_eq_nil hfound, hhead', encodeText_of_encodes h hhead]
  · have hfound : (found (Marker.join head tail)).2 ≠ [] := by
      rwa [ne_eq, found_eq_nil_iff, hread]
    have hne : (templates text).2 ≠ [] := by
      intro heq
      rw [heq, List.forall₂_nil_left_iff] at htail
      exact hnil htail
    have hfree : ¬ Marked (found (Marker.join head tail)) := by
      rw [marked_found_iff, hread]
      rintro (hwithin | ⟨y, hy, hwithin⟩)
      · exact hmarked hne (.inl (within_of_encodes h hhead hwithin))
      · obtain ⟨x, hx, -, hencodes⟩ := hpieces y hy
        exact hmarked hne (.inr ⟨x, hx, within_of_encodes h hencodes hwithin⟩)
    rw [encodeValue_of_not_marked h hfound hfree, hencoded]

/-- A text is encoded for good if and only if its pieces can be told apart. -/
theorem stable_encodeValue_iff (text : Text) :
    Stable (fun text => encodeValue text encoding) encoding text ↔ Separable text := by
  constructor
  · rintro ⟨encoded, hencode, hkept, -⟩
    have hmarked : (templates text).2 ≠ [] → ¬ Marked (templates text) := by
      intro hne hmarked
      rw [ne_eq, ← found_eq_nil_iff] at hne
      have hnone := encodeValue_of_marked h hne ((marked_found_iff text).mpr hmarked)
      exact Option.some_ne_none encoded (hencode.symm.trans hnone)
    refine ⟨hmarked, fun x hx => ?_⟩
    have hne : (templates text).2 ≠ [] := List.ne_nil_of_mem hx
    have hfree := fun hfound => hmarked hne ((marked_found_iff text).mp hfound)
    rw [ne_eq, ← found_eq_nil_iff] at hne
    have hresult := hencode.symm.trans (encodeValue_of_not_marked h hne hfree)
    rw [Option.some.injEq] at hresult
    have hnot : ∀ c, c = openCurlyReplacement ∨ c = closeCurlyReplacement → c ∉ x.1 := by
      intro c hc hmem
      have hencoded := mem_of_kept hkept hx hmem
      rw [hresult] at hencoded
      exact not_mem_encodedPieces h _ hc hencoded
    exact ⟨hnot _ (.inl rfl), hnot _ (.inr rfl)⟩
  · intro hseparable
    by_cases hnil : (templates text).2 = []
    · have hkept := kept_encodeText h hnil
      exact ⟨_, encodeValue_of_found_eq_nil ((found_eq_nil_iff text).mpr hnil), hkept,
        encodeValue_of_kept h hkept hseparable⟩
    · have hfree := fun hfound => hseparable.1 hnil ((marked_found_iff text).mp hfound)
      have hkept := kept_encodedPieces h hseparable.2
      rw [← found_eq_nil_iff] at hnil
      exact ⟨_, encodeValue_of_not_marked h hnil hfree, hkept,
        encodeValue_of_kept h hkept hseparable⟩

end

/-- The encodings of paths, segments and queries succeed, keep what is to be kept and are stable
if and only if the pieces of the text can be told apart. -/
theorem stable_iff (text : Text) :
    (Stable encodePath pathEncoding text ↔ Separable text) ∧
    (Stable encodePathSegment pathSegmentEncoding text ↔ Separable text) ∧
    (Stable encodeQueryString queryStringEncoding text ↔ Separable text) :=
  ⟨stable_encodeValue_iff lenient_pathEncoding text,
    stable_encodeValue_iff lenient_pathSegmentEncoding text,
    stable_encodeValue_iff lenient_queryStringEncoding text⟩

/-- The text that stands in for parameters, behind a parameter, is too much for the encoding. -/
theorem not_stable_of_parameter :
    encodePath (units "{a}_resteasy_uri_parameter".toList) = none ∧
    ¬ Stable encodePath pathEncoding (units "{a}_resteasy_uri_parameter".toList) := by
  have hnone : encodePath (units "{a}_resteasy_uri_parameter".toList) = none := by decide +kernel
  refine ⟨hnone, ?_⟩
  rintro ⟨encoded, hencode, -⟩
  exact Option.some_ne_none encoded (hencode.symm.trans hnone)

end Keycloak.Common.Encode
