import Keycloak.Common.FormDecoding
import Keycloak.Common.KeycloakUriBuilder

/-!
# Query parameters of a builder

A parameter that is added to an encoded query is read back behind the old ones, and a parameter
that is replaced is read back instead of the old ones of its name.  Both need characters of one
unit; the second compares names as they are written, and needs old names that are written as the
new one is.
-/

namespace Keycloak.Common.QueryParams

open Encode (Text units openBrace closeBrace)
open GenericUri (question hash noneOf strip)
open KeycloakUriBuilder FormDecoding

/-! ## Encoded queries -/

/-- A name and a value that can be read from a query. -/
structure EncodedPair where
  name : Text
  value : Text
  name_plain : ∀ c ∈ [38, 61, openBrace, closeBrace, hash], c ∉ name
  value_plain : ∀ c ∈ [38, openBrace, closeBrace, hash], c ∉ value
  name_decodes : (decodeText name).isSome = true
  value_decodes : (decodeText value).isSome = true

namespace EncodedPair

def text (pair : EncodedPair) : Text := pair.name ++ 61 :: pair.value

def decoded (pair : EncodedPair) : List Char × List Char :=
  ((decodeText pair.name).get pair.name_decodes, (decodeText pair.value).get pair.value_decodes)

end EncodedPair

def queryText (pairs : List EncodedPair) : Text := [38].intercalate (pairs.map EncodedPair.text)

def Lists (query : Option Text) (pairs : List EncodedPair) : Prop :=
  query.getD [] = queryText pairs

/-! ## What is claimed -/

/-- The query of what the builder builds, whatever the values of template parameters, decodes to
the pairs. -/
def Arrives (builder : KeycloakUriBuilder) (pairs : List (List Char × List Char)) : Prop :=
  ∀ paramMap, ∃ query, queryString paramMap builder = some (question :: query) ∧ hash ∉ query ∧
    formDecode query = some pairs

/-- The parameter arrives behind the old pairs, or instead of those of its name. -/
def ParamArrives (builder : KeycloakUriBuilder) (old : List EncodedPair)
    (name value : List Char) : Prop :=
  Arrives (builder.queryParam (Utf16.encode name) [Utf16.encode value])
      (old.map EncodedPair.decoded ++ [(name, value)]) ∧
    ∃ replaced,
      builder.replaceQueryParam (Utf16.encode name) (some [Utf16.encode value]) = some replaced ∧
      Arrives replaced
        ((old.map EncodedPair.decoded).filter (fun pair => pair.1 ≠ name) ++ [(name, value)])

/-- All characters are of one unit. -/
def Basic (text : List Char) : Prop := ∀ c ∈ text, c.toNat < 65536

/-- Where there are old pairs, the encoding of the name succeeds, and just those that decode to
the name are written like that. -/
def NamesAgree (old : List EncodedPair) (name : List Char) : Prop :=
  old = [] ∨ ∃ replacedName, Encode.encodeQueryParam (Utf16.encode name) = some replacedName ∧
    ∀ pair ∈ old, pair.name = replacedName ↔ pair.decoded.1 = name

/-! ## Pieces of a query -/

def joined : List Text → Option Text
  | [] => none
  | piece :: pieces => some ([38].intercalate (piece :: pieces))

theorem intercalate_concat {pieces : List Text} (hne : pieces ≠ []) (piece : Text) :
    [38].intercalate (pieces ++ [piece]) = [38].intercalate pieces ++ (38 :: piece) := by
  induction pieces with
  | nil => exact absurd rfl hne
  | cons first pieces ih =>
      cases pieces with
      | nil =>
          rw [List.cons_append, List.nil_append, List.intercalate_cons_cons,
            List.intercalate_singleton, List.intercalate_singleton]
          simp
      | cons second pieces =>
          have hrest := ih (List.cons_ne_nil second pieces)
          rw [List.cons_append] at hrest
          rw [List.cons_append, List.cons_append, List.intercalate_cons_cons, hrest,
            List.intercalate_cons_cons]
          simp

theorem joined_concat (pieces : List Text) (piece : Text) :
    some (withSeparator (joined pieces) ++ piece) = joined (pieces ++ [piece]) := by
  have hmark : units ['&'] = [38] := by decide
  cases pieces with
  | nil =>
      rw [List.nil_append, joined, joined, List.intercalate_singleton]
      rfl
  | cons first pieces =>
      rw [joined, List.cons_append, joined, ← List.cons_append,
        intercalate_concat (List.cons_ne_nil first pieces), withSeparator, hmark,
        List.append_assoc]
      rfl

def paramPiece (name value : List Char) : Text :=
  Encode.encodeQueryParamAsIs (Utf16.encode name) ++
    61 :: Encode.encodeQueryParamAsIs (Utf16.encode value)

theorem queryParam_joined {builder : KeycloakUriBuilder} {pieces : List Text}
    (hquery : builder.query = joined pieces) (name value : List Char) :
    builder.queryParam (Utf16.encode name) [Utf16.encode value] =
      { builder with query := joined (pieces ++ [paramPiece name value]) } := by
  have hmark : units ['='] = [61] := by decide
  rw [queryParam, List.foldl_cons, List.foldl_nil, addQueryParam, hquery, ← joined_concat, hmark,
    paramPiece]
  rfl

theorem foldl_keepParam (replacedName : Text) (pieces kept : List Text) :
    pieces.foldl (keepParam replacedName) (joined kept) =
      joined (kept ++ pieces.filter fun piece => piece.takeWhile (noneOf [61]) ≠ replacedName) := by
  induction pieces generalizing kept with
  | nil => rw [List.filter_nil, List.append_nil, List.foldl_nil]
  | cons piece pieces ih =>
      rw [List.foldl_cons, keepParam]
      by_cases hname : piece.takeWhile (noneOf [61]) = replacedName
      · rw [if_pos hname, ih, List.filter_cons_of_neg (by simp [hname])]
      · rw [if_neg hname, joined_concat, ih, List.filter_cons_of_pos (by simp [hname]),
          List.append_assoc, List.singleton_append]

/-! ## Decoding the pieces -/

theorem EncodedPair.takeWhile_text (pair : EncodedPair) :
    pair.text.takeWhile (noneOf [61]) = pair.name := by
  refine GenericUri.takeWhile_stop (fun c hc => GenericUri.noneOf_iff.mpr fun hmark => ?_) ?_
  · rw [List.mem_singleton] at hmark
    exact pair.name_plain 61 (by decide) (hmark ▸ hc)
  · rintro c ⟨⟩
    decide

theorem EncodedPair.decodePair_text (pair : EncodedPair) :
    decodePair pair.text = some pair.decoded := by
  have hdrop : pair.text.dropWhile (noneOf [61]) = 61 :: pair.value := by
    refine GenericUri.dropWhile_stop (fun c hc => GenericUri.noneOf_iff.mpr fun hmark => ?_) ?_
    · rw [List.mem_singleton] at hmark
      exact pair.name_plain 61 (by decide) (hmark ▸ hc)
    · rintro c ⟨⟩
      decide
  have hname : decodeText pair.name = some pair.decoded.1 := (Option.some_get _).symm
  have hvalue : decodeText pair.value = some pair.decoded.2 := (Option.some_get _).symm
  rw [decodePair, pair.takeWhile_text, hdrop, List.drop_one, List.tail_cons, hname, hvalue]
  rfl

theorem decodePair_paramPiece (name value : List Char) :
    decodePair (paramPiece name value) = some (shown name, shown value) := by
  have hfront : ∀ c ∈ Encode.encodeQueryParamAsIs (Utf16.encode name), noneOf [61] c = true := by
    intro c hc
    rw [GenericUri.noneOf_iff, List.mem_singleton]
    rintro rfl
    exact not_mem_encodeQueryParamAsIs _ (by decide) hc
  have hstop : ∀ (rest : Text), ∀ c ∈ (61 :: rest).head?, noneOf [61] c = false := by
    rintro rest c ⟨⟩
    decide
  rw [decodePair, paramPiece, GenericUri.takeWhile_stop hfront (hstop _),
    GenericUri.dropWhile_stop hfront (hstop _), List.drop_one, List.tail_cons, decodeText_encoded,
    decodeText_encoded]
  rfl

theorem formDecode_joined {pieces : List Text} (hne : pieces ≠ [])
    (hpieces : ∀ piece ∈ pieces, 38 ∉ piece) :
    formDecode ([38].intercalate pieces) = (pieces.filter (· ≠ [])).mapM decodePair := by
  rw [formDecode, List.splitOn_intercalate 38 hpieces hne]

theorem mapM_decodePair (pairs : List EncodedPair) :
    (pairs.map EncodedPair.text).mapM decodePair = some (pairs.map EncodedPair.decoded) := by
  induction pairs with
  | nil => rfl
  | cons pair pairs ih =>
      rw [List.map_cons, List.mapM_cons, pair.decodePair_text, ih]
      rfl

/-! ## Pieces without marks -/

def Plain (piece : Text) : Prop := ∀ c ∈ [38, openBrace, closeBrace, hash], c ∉ piece

theorem EncodedPair.plain_text (pair : EncodedPair) : Plain pair.text := by
  have hname : ∀ c ∈ [38, openBrace, closeBrace, hash],
      c ∈ [38, 61, openBrace, closeBrace, hash] ∧ c ≠ 61 := by decide
  intro c hc hmem
  rcases List.mem_append.mp hmem with hmem | hmem
  · exact pair.name_plain c (hname c hc).1 hmem
  · rcases List.mem_cons.mp hmem with heq | hmem
    · exact (hname c hc).2 heq
    · exact pair.value_plain c hc hmem

theorem EncodedPair.text_ne_nil (pair : EncodedPair) : pair.text ≠ [] :=
  List.append_ne_nil_of_right_ne_nil _ (List.cons_ne_nil _ _)

theorem plain_paramPiece (name value : List Char) : Plain (paramPiece name value) := by
  have hclass : ∀ c ∈ [38, openBrace, closeBrace, hash],
      c ∈ [38, 61, openBrace, closeBrace, hash] ∧ c ≠ 61 := by decide
  intro c hc hmem
  rcases List.mem_append.mp hmem with hmem | hmem
  · exact not_mem_encodeQueryParamAsIs _ (hclass c hc).1 hmem
  · rcases List.mem_cons.mp hmem with heq | hmem
    · exact (hclass c hc).2 heq
    · exact not_mem_encodeQueryParamAsIs _ (hclass c hc).1 hmem

theorem paramPiece_ne_nil (name value : List Char) : paramPiece name value ≠ [] :=
  List.append_ne_nil_of_right_ne_nil _ (List.cons_ne_nil _ _)

theorem mem_intercalate {c : Nat} {pieces : List Text} (h : c ∈ [38].intercalate pieces) :
    c = 38 ∨ ∃ piece ∈ pieces, c ∈ piece := by
  induction pieces with
  | nil => exact absurd h List.not_mem_nil
  | cons first pieces ih =>
      cases pieces with
      | nil =>
          rw [List.intercalate_singleton] at h
          exact .inr ⟨first, List.mem_cons_self, h⟩
      | cons second pieces =>
          rw [List.intercalate_cons_cons, List.append_assoc, List.mem_append, List.mem_append,
            List.mem_singleton] at h
          rcases h with h | h | h
          · exact .inr ⟨first, List.mem_cons_self, h⟩
          · exact .inl h
          · refine (ih h).imp id ?_
            rintro ⟨piece, hpiece, hmem⟩
            exact ⟨piece, List.mem_cons_of_mem first hpiece, hmem⟩

theorem joined_of_ne_nil {pieces : List Text} (hne : pieces ≠ []) :
    joined pieces = some ([38].intercalate pieces) := by
  cases pieces with
  | nil => exact absurd rfl hne
  | cons first pieces => rfl

theorem arrives_iff_of_joined {builder : KeycloakUriBuilder} {pieces : List Text}
    (hquery : builder.query = joined pieces) (hne : pieces ≠ [])
    (hplain : ∀ piece ∈ pieces, Plain piece) (pairs : List (List Char × List Char)) :
    Arrives builder pairs ↔ (pieces.filter (· ≠ [])).mapM decodePair = some pairs := by
  have hnot : ∀ c ∈ [openBrace, closeBrace, hash], c ∉ [38].intercalate pieces := by
    have hclass : ∀ c ∈ [openBrace, closeBrace, hash],
        c ∈ [38, openBrace, closeBrace, hash] ∧ c ≠ 38 := by decide
    intro c hc hmem
    rcases mem_intercalate hmem with heq | ⟨piece, hpiece, hmem⟩
    · exact (hclass c hc).2 heq
    · exact hplain piece hpiece c (hclass c hc).1 hmem
  have hprinted : ∀ paramMap, queryString paramMap builder =
      some (question :: [38].intercalate pieces) := by
    intro paramMap
    rw [queryString, hquery, joined_of_ne_nil hne]
    simp only [replaceQueryStringParameter_unbraced paramMap (hnot openBrace (by decide))
      (hnot closeBrace (by decide)), Option.map_some]
  have hdecode := formDecode_joined hne fun piece hpiece => hplain piece hpiece 38 (by decide)
  constructor
  · intro harrives
    obtain ⟨query, hstring, -, hpairs⟩ := harrives fun _ => none
    rw [hprinted, Option.some.injEq, List.cons.injEq] at hstring
    rwa [← hstring.2, hdecode] at hpairs
  · intro hpairs paramMap
    exact ⟨_, hprinted paramMap, hnot hash (by decide), hdecode.trans hpairs⟩

/-! ## The old query -/

theorem queryText_eq_nil_iff (old : List EncodedPair) : queryText old = [] ↔ old = [] := by
  cases old with
  | nil => exact iff_of_true rfl rfl
  | cons pair old =>
      have hne : queryText (pair :: old) ≠ [] := by
        rw [queryText, List.map_cons]
        cases old with
        | nil =>
            rw [List.map_nil, List.intercalate_singleton]
            exact pair.text_ne_nil
        | cons next old =>
            rw [List.map_cons, List.intercalate_cons_cons, List.append_assoc]
            exact List.append_ne_nil_of_left_ne_nil pair.text_ne_nil _
      exact iff_of_false hne (List.cons_ne_nil pair old)

theorem filter_ne_nil_map_text (pairs : List EncodedPair) :
    (pairs.map EncodedPair.text).filter (· ≠ []) = pairs.map EncodedPair.text := by
  rw [List.filter_eq_self]
  intro piece hpiece
  obtain ⟨pair, -, rfl⟩ := List.mem_map.mp hpiece
  exact decide_eq_true pair.text_ne_nil

theorem plain_map_text (pairs : List EncodedPair) :
    ∀ piece ∈ pairs.map EncodedPair.text, Plain piece := by
  intro piece hpiece
  obtain ⟨pair, -, rfl⟩ := List.mem_map.mp hpiece
  exact pair.plain_text

theorem exists_pieces {query : Option Text} {old : List EncodedPair} (h : Lists query old) :
    ∃ pieces, query = joined pieces ∧ pieces.filter (· ≠ []) = old.map EncodedPair.text ∧
      ∀ piece ∈ pieces, Plain piece := by
  by_cases hold : old = []
  · subst hold
    cases query with
    | none => exact ⟨[], rfl, rfl, fun piece hpiece => absurd hpiece List.not_mem_nil⟩
    | some query =>
        have hnil : query = [] := h
        subst hnil
        refine ⟨[[]], rfl, rfl, fun piece hpiece c _ => ?_⟩
        rw [List.mem_singleton.mp hpiece]
        exact List.not_mem_nil
  · have hne : query.getD [] ≠ [] := by
      rw [h]
      exact fun hnil => hold ((queryText_eq_nil_iff old).mp hnil)
    cases query with
    | none => exact absurd rfl hne
    | some query =>
        have hquery : query = queryText old := h
        refine ⟨old.map EncodedPair.text, ?_, filter_ne_nil_map_text old, plain_map_text old⟩
        rw [hquery, queryText, joined_of_ne_nil (by simpa using hold)]

/-- Pairs are kept by their written names as they are by their decoded names, if and only if
the two agree on the old pairs. -/
theorem filter_decoded_iff {old : List EncodedPair} {replacedName : Text} {name : List Char} :
    (old.filter fun pair => pair.name ≠ replacedName).map EncodedPair.decoded =
        (old.map EncodedPair.decoded).filter (fun pair => pair.1 ≠ name) ↔
      ∀ pair ∈ old, pair.name = replacedName ↔ pair.decoded.1 = name := by
  have hmap : (old.map EncodedPair.decoded).filter (fun pair => pair.1 ≠ name) =
      (old.filter fun pair => pair.decoded.1 ≠ name).map EncodedPair.decoded := by
    rw [List.filter_map]
    rfl
  rw [hmap]
  constructor
  · intro heq
    -- a pair of the name cannot be among those that are kept
    have hdropped : ∀ pair ∈ old, pair.decoded.1 = name → pair.name = replacedName := by
      intro pair hpair hname
      by_contra hne
      have hmem : pair.decoded ∈
          (old.filter fun pair => pair.name ≠ replacedName).map EncodedPair.decoded :=
        List.mem_map_of_mem (List.mem_filter.mpr ⟨hpair, decide_eq_true hne⟩)
      rw [heq] at hmem
      obtain ⟨other, hother, hdecoded⟩ := List.mem_map.mp hmem
      have hkept := of_decide_eq_true (List.mem_filter.mp hother).2
      exact hkept (by rw [hdecoded, hname])
    -- the kept ones are among those of other names, and as many
    have hsub : ((old.filter fun pair => pair.decoded.1 ≠ name).filter
        fun pair => pair.name ≠ replacedName) =
        old.filter fun pair => pair.name ≠ replacedName := by
      rw [List.filter_filter]
      refine List.filter_congr fun pair hpair => ?_
      by_cases hname : pair.name = replacedName
      · simp [hname]
      · simp [hname, mt (hdropped pair hpair) hname]
    have hlength := congrArg List.length heq
    rw [List.length_map, List.length_map, ← hsub] at hlength
    have hall := List.length_filter_eq_length_iff.mp hlength
    refine fun pair hpair => ⟨fun hname => ?_, hdropped pair hpair⟩
    by_contra hne
    have hkept := hall pair (List.mem_filter.mpr ⟨hpair, decide_eq_true hne⟩)
    exact of_decide_eq_true hkept hname
  · intro hagree
    congr 1
    refine List.filter_congr fun pair hpair => ?_
    simp [hagree pair hpair]

/-! ## Adding and replacing a parameter -/

theorem arrives_concat_iff {builder : KeycloakUriBuilder} {pieces : List Text}
    {pairs : List EncodedPair} {name value : List Char}
    (hquery : builder.query = joined (pieces ++ [paramPiece name value]))
    (hpieces : pieces.filter (· ≠ []) = pairs.map EncodedPair.text)
    (hplain : ∀ piece ∈ pieces, Plain piece) (arrived : List (List Char × List Char)) :
    Arrives builder arrived ↔
      pairs.map EncodedPair.decoded ++ [(shown name, shown value)] = arrived := by
  have hall : ∀ piece ∈ pieces ++ [paramPiece name value], Plain piece := by
    intro piece hpiece
    rcases List.mem_append.mp hpiece with hpiece | hpiece
    · exact hplain piece hpiece
    · rw [List.mem_singleton.mp hpiece]
      exact plain_paramPiece name value
  have hne : pieces ++ [paramPiece name value] ≠ [] :=
    List.append_ne_nil_of_right_ne_nil _ (List.cons_ne_nil _ _)
  have hkept : [paramPiece name value].filter (· ≠ []) = [paramPiece name value] := by
    rw [List.filter_eq_self]
    intro piece hpiece
    rw [List.mem_singleton.mp hpiece]
    exact decide_eq_true (paramPiece_ne_nil name value)
  rw [arrives_iff_of_joined hquery hne hall, List.filter_append, hpieces, hkept,
    List.mapM_append, mapM_decodePair, List.mapM_cons, List.mapM_nil, decodePair_paramPiece]
  exact Option.some_inj

theorem basic_iff {name value : List Char} :
    (shown name, shown value) = (name, value) ↔ Basic name ∧ Basic value := by
  rw [Prod.mk.injEq, shown_eq_iff, shown_eq_iff]
  rfl

section

variable {builder : KeycloakUriBuilder} {old : List EncodedPair}
variable (hquery : Lists builder.query old) (name value : List Char)

include hquery

theorem arrives_queryParam_iff :
    Arrives (builder.queryParam (Utf16.encode name) [Utf16.encode value])
        (old.map EncodedPair.decoded ++ [(name, value)]) ↔ Basic name ∧ Basic value := by
  obtain ⟨pieces, hjoined, hpieces, hplain⟩ := exists_pieces hquery
  rw [queryParam_joined hjoined, arrives_concat_iff rfl hpieces hplain,
    List.append_cancel_left_eq, List.cons.injEq, basic_iff]
  simp

theorem replaceQueryParam_of_nil (hold : old = []) :
    builder.replaceQueryParam (Utf16.encode name) (some [Utf16.encode value]) =
      some (builder.queryParam (Utf16.encode name) [Utf16.encode value]) := by
  have hnil : builder.query.getD [] = [] := by
    rw [hquery, queryText_eq_nil_iff]
    exact hold
  rw [replaceQueryParam]
  simp only [hnil, if_true]

theorem replaceQueryParam_of_ne_nil (hold : old ≠ []) :
    builder.replaceQueryParam (Utf16.encode name) (some [Utf16.encode value]) =
      (Encode.encodeQueryParam (Utf16.encode name)).map fun replacedName =>
        { builder with
          query := joined ((old.filter fun pair => pair.name ≠ replacedName).map
            EncodedPair.text ++ [paramPiece name value]) } := by
  have hne : builder.query.getD [] ≠ [] := by
    rw [hquery, ne_eq, queryText_eq_nil_iff]
    exact hold
  have hpieces : old.map EncodedPair.text ≠ [] := by simpa using hold
  have hlast : (old.map EncodedPair.text).getLast hpieces ≠ [] := by
    obtain ⟨pair, -, hpair⟩ := List.mem_map.mp (List.getLast_mem hpieces)
    rw [← hpair]
    exact pair.text_ne_nil
  have hsplit : Split.split 38 (builder.query.getD []) = old.map EncodedPair.text := by
    rw [hquery, queryText]
    exact Split.split_intercalate hpieces
      (fun piece hpiece => plain_map_text old piece hpiece 38 (by decide)) hlast
  rw [replaceQueryParam]
  simp only [if_neg hne, hsplit]
  congr 1
  funext replacedName
  have hfold := foldl_keepParam replacedName (old.map EncodedPair.text) []
  have hfilter : (old.map EncodedPair.text).filter
      (fun piece => piece.takeWhile (noneOf [61]) ≠ replacedName) =
        (old.filter fun pair => pair.name ≠ replacedName).map EncodedPair.text := by
    rw [List.filter_map]
    congr 1
    refine List.filter_congr fun pair _ => ?_
    rw [Function.comp_apply, pair.takeWhile_text]
  rw [List.nil_append, hfilter] at hfold
  exact queryParam_joined hfold name value

/-! ## When parameters arrive -/

/-- A parameter arrives if and only if its characters are of one unit, and the names of the old
pairs are written as the new one just where they are the same. -/
theorem paramArrives_iff :
    ParamArrives builder old name value ↔ (Basic name ∧ Basic value) ∧ NamesAgree old name := by
  rw [ParamArrives, arrives_queryParam_iff hquery]
  refine and_congr_right fun hbasic => ?_
  have hshown : (shown name, shown value) = (name, value) := basic_iff.mpr hbasic
  by_cases hold : old = []
  · subst hold
    refine iff_of_true ⟨_, replaceQueryParam_of_nil hquery name value rfl, ?_⟩ (.inl rfl)
    rw [List.map_nil, List.filter_nil]
    exact (arrives_queryParam_iff hquery name value).mpr hbasic
  · have harrives : ∀ replacedName, Arrives { builder with
          query := joined ((old.filter fun pair => pair.name ≠ replacedName).map
            EncodedPair.text ++ [paramPiece name value]) }
          ((old.map EncodedPair.decoded).filter (fun pair => pair.1 ≠ name) ++ [(name, value)]) ↔
        ∀ pair ∈ old, pair.name = replacedName ↔ pair.decoded.1 = name := by
      intro replacedName
      rw [arrives_concat_iff rfl (filter_ne_nil_map_text _) (plain_map_text _), hshown,
        List.append_cancel_right_eq, filter_decoded_iff]
    rw [replaceQueryParam_of_ne_nil hquery name value hold, NamesAgree]
    constructor
    · rintro ⟨replaced, hreplaced, hpairs⟩
      obtain ⟨replacedName, hname, rfl⟩ := Option.map_eq_some_iff.mp hreplaced
      exact .inr ⟨replacedName, hname, (harrives replacedName).mp hpairs⟩
    · rintro (hnil | ⟨replacedName, hname, hagree⟩)
      · exact absurd hnil hold
      · refine ⟨_, ?_, (harrives replacedName).mpr hagree⟩
        rw [hname, Option.map_some]

end

def encodedPair (name value : List Char) : EncodedPair where
  name := Encode.encodeQueryParamAsIs (Utf16.encode name)
  value := Encode.encodeQueryParamAsIs (Utf16.encode value)
  name_plain _ hc := not_mem_encodeQueryParamAsIs _ hc
  value_plain _ hc :=
    not_mem_encodeQueryParamAsIs _ ((by decide : [38, openBrace, closeBrace, hash] ⊆
      [38, 61, openBrace, closeBrace, hash]) hc)
  name_decodes := by
    rw [decodeText_encoded]
    rfl
  value_decodes := by
    rw [decodeText_encoded]
    rfl

theorem decoded_encodedPair (name value : List Char) :
    (encodedPair name value).decoded = (shown name, shown value) := by
  simp only [EncodedPair.decoded, encodedPair, decodeText_encoded, Option.get_some]

theorem paramArrives_of_letter :
    ParamArrives { query := some (queryText [encodedPair ['a'] ['1']]) }
      [encodedPair ['a'] ['1']] ['a'] ['2'] := by
  have hname : Encode.encodeQueryParam (Utf16.encode ['a']) = some [97] := by decide
  have hold : (encodedPair ['a'] ['1']).name = [97] := by decide
  have hquery : Lists ({ query := some (queryText [encodedPair ['a'] ['1']]) } :
      KeycloakUriBuilder).query [encodedPair ['a'] ['1']] := rfl
  have hbasic : Basic ['a'] ∧ Basic ['2'] :=
    ⟨List.forall_mem_singleton.mpr (by decide), List.forall_mem_singleton.mpr (by decide)⟩
  refine (paramArrives_iff hquery ['a'] ['2']).mpr ⟨hbasic, .inr ⟨[97], hname, ?_⟩⟩
  intro pair hpair
  rw [List.mem_singleton.mp hpair, hold, decoded_encodedPair]
  exact iff_of_true rfl rfl

/-- A character of two units arrives as two question marks. -/
theorem not_paramArrives_of_pair :
    Lists ({} : KeycloakUriBuilder).query [] ∧
    (({} : KeycloakUriBuilder).queryParam (Utf16.encode ['😀']) [Utf16.encode []]).query =
      some (units "%3F%3F=".toList) ∧
    ¬ ParamArrives {} [] ['😀'] [] := by
  have hquery : Lists ({} : KeycloakUriBuilder).query [] := rfl
  refine ⟨hquery, by decide, fun harrives => ?_⟩
  have hbasic := (arrives_queryParam_iff hquery ['😀'] []).mp harrives.1
  exact absurd (hbasic.1 '😀' List.mem_cons_self) (by decide)

/-! ## The query of the built URI -/

section

variable {paramMap : Text → Option Text} {encodeSlash : Bool} {builder : KeycloakUriBuilder}

end

end Keycloak.Common.QueryParams
