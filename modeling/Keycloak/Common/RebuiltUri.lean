import Keycloak.Common.KeycloakUriBuilder
import Keycloak.Common.StableEncoding

/-!
# A URI built from a URI

A builder takes the components of an absolute URI and builds a URI from them.  The result is the
URI it was given, perhaps without a default port, unless the URI has an empty query, a port that
is not printed as it was written, or an address that the parser of the result does not know.
-/

namespace Keycloak.Common.RebuiltUri

open Encode (units openBrace closeBrace Unbraced)
open GenericUri KeycloakUriBuilder

/-! ## The same URI -/

def lower (text : Text) : Text := text.map fun c => if 65 ≤ c ∧ c ≤ 90 then c + 32 else c

def DefaultPort (scheme digits : Text) : Prop :=
  (lower scheme = http ∧ value digits = 80) ∨
    (lower scheme = https ∧ value digits = 443)

def withoutPort (uri : AbsoluteUri) : Text :=
  assemble uri.scheme (authorityText uri.userInfo uri.host.text none) uri.path uri.query
    uri.fragment

/-- The text of the URI, where a default port may be missing. -/
def SameUri (uri : AbsoluteUri) (text : Text) : Prop :=
  text = uri.text ∨ (∃ digits ∈ uri.port, DefaultPort uri.scheme digits) ∧ text = withoutPort uri

def Rebuilt (uri : AbsoluteUri) : Prop :=
  ∃ text, (fromUri uri.text).bind (fun builder => builder.build []) = some text ∧ SameUri uri text

/-- Digits that are printed as they were written, or stand for a default port. -/
def PortKept (scheme digits : Text) : Prop :=
  digits = [] ∨ DefaultPort scheme digits ∨
    ((scheme = http ∨ scheme = https) ∧
      (digits.head? = some 48 → digits = [48]) ∧ value digits < 2 ^ 31)

/-- The URIs that a builder keeps. -/
def Kept (uri : AbsoluteUri) : Prop :=
  uri.query ≠ some [] ∧
    match uri.host with
    | .name _ => ∀ digits ∈ uri.port, PortKept uri.scheme digits
    | .literal address => isIPv6 address = true ∧ ∀ digits ∈ uri.port, value digits < 2 ^ 31

/-! ## Components are encoded already -/

theorem isHex_eq (c : Nat) : GenericUri.isHex c = Encode.isHex c := by
  rw [Bool.eq_iff_iff]
  simp only [GenericUri.isHex, GenericUri.isDigit, Encode.isHex, Bool.or_eq_true,
    Bool.and_eq_true, decide_eq_true_eq]
  omega

section

variable {encoding : Encode.Encoding} {allowed : Nat → Bool} {text : Text}

theorem encodes_of_escaped (hallowed : ∀ c, allowed c = true → Encode.encode c encoding = none)
    (htext : escaped allowed text = true) : Encode.Encodes encoding text text := by
  refine escaped_induction (motive := fun text => Encode.Encodes encoding text text) htext
    Encode.Encodes.nil (fun c text _ hc ih => ?_) fun a b text ha hb ih => ?_
  · exact Encode.Encodes.allowed (hallowed c hc) ih
  · exact Encode.Encodes.code ((isHex_eq a).symm.trans ha) ((isHex_eq b).symm.trans hb) ih

theorem templates_unbraced (h : Unbraced text) : (Encode.templates text).2 = [] := by
  have htail : ∀ x ∈ ([] : List (Text × Text)), Encode.IsTemplate x.1 ∧ Unbraced x.2 :=
    fun x hx => absurd hx List.not_mem_nil
  have hread := Encode.templates_join h htail
  rw [Marker.join, List.flatMap_nil, List.append_nil] at hread
  rw [hread]

theorem encodeValue_of_escaped (h : Encode.Lenient encoding)
    (hallowed : ∀ c, allowed c = true → Encode.encode c encoding = none)
    (htext : escaped allowed text = true) : Encode.encodeValue text encoding = some text := by
  have hencodes := encodes_of_escaped hallowed htext
  have hunbraced := Encode.unbraced_encoded h hencodes
  rw [Encode.encodeValue_of_found_eq_nil
      ((Encode.found_eq_nil_iff text).mpr (templates_unbraced hunbraced)),
    Encode.encodeText_of_encodes h hencodes]

end

theorem encode_of_isName {kept : List Char} {c : Nat} (h : isName c = true)
    (hrest : nameMarks.all
      (fun c => Encode.encode c (Encode.table kept (units ['%', '2', '0'])) == none) = true) :
    Encode.encode c (Encode.table kept (units ['%', '2', '0'])) = none := by
  have halnum : ∀ c, GenericUri.isAlphanum c = true →
      (Encode.encode c (Encode.table kept (units ['%', '2', '0'])) == none) = true := by
    intro c hc
    have hboth : Encode.isAlphanum c = true ∧ c < 128 := by
      simp only [GenericUri.isAlphanum, isAlpha, isDigit, Encode.isAlphanum, Bool.or_eq_true,
        Bool.and_eq_true, decide_eq_true_eq] at hc ⊢
      omega
    rw [beq_iff_eq, Encode.encode, if_pos hboth.2, Encode.table, hboth.1]
    rfl
  have hclass : (Encode.encode c (Encode.table kept (units ['%', '2', '0'])) == none) = true :=
    of_isName halnum hrest h
  exact beq_iff_eq.mp hclass

theorem encode_of_isPath {c : Nat} (h : isPath c = true) :
    Encode.encode c Encode.pathEncoding = none := by
  rw [isPath, Bool.or_eq_true, List.contains_eq_mem, decide_eq_true_eq] at h
  rcases h with h | h
  · exact encode_of_isName h (by decide)
  · have hmarks : ∀ c ∈ [colon, commercialAt, slash],
        Encode.encode c Encode.pathEncoding = none := by
      decide
    exact hmarks c h

theorem encode_of_isQuery {c : Nat} (h : isQuery c = true) :
    Encode.encode c Encode.queryStringEncoding = none := by
  rw [isQuery, Bool.or_eq_true, List.contains_eq_mem, decide_eq_true_eq] at h
  rcases h with h | h
  · exact encode_of_isName h (by decide)
  · have hmarks : ∀ c ∈ [colon, commercialAt, slash, question],
        Encode.encode c Encode.queryStringEncoding = none := by
      decide
    exact hmarks c h

theorem encodePath_of_escaped {path : Text} (h : escaped isPath path = true) :
    Encode.encodePath path = some path :=
  encodeValue_of_escaped Encode.lenient_pathEncoding (fun _ => encode_of_isPath) h

theorem encodeQueryString_of_escaped {query : Text} (h : escaped isQuery query = true) :
    Encode.encodeQueryString query = some query :=
  encodeValue_of_escaped Encode.lenient_queryStringEncoding (fun _ => encode_of_isQuery) h

theorem encodeFragment_of_escaped {fragment : Text} (h : escaped isQuery fragment = true) :
    Encode.encodeFragment fragment = some fragment :=
  encodeValue_of_escaped Encode.lenient_queryStringEncoding (fun _ => encode_of_isQuery) h

/-! ## The components that the builder takes -/

theorem matchScheme_assemble {scheme authority path : Text} {query fragment : Option Text}
    (h : isScheme scheme = true) :
    matchScheme (assemble scheme authority path query fragment) =
      some (scheme, slash :: slash ::
        (authority ++ (path ++ (behind question query ++ behind hash fragment)))) := by
  have hmarks := forall_noneOf_of_isScheme h
  have hstop : ∀ (rest : Text), ∀ c ∈ (colon :: rest).head?,
      noneOf [colon, slash, question, hash] c = false := by
    rintro rest c ⟨⟩
    decide
  rw [matchScheme, assemble, dropWhile_stop hmarks (hstop _), takeWhile_stop hmarks (hstop _),
    strip_self, Option.bind_some, if_neg (isScheme_ne_nil h)]

theorem matchHierarchical_assemble {authority path : Text} {query fragment : Option Text}
    (h : Delimited authority path query)
    (hfragment : ∀ x ∈ fragment, escaped isQuery x = true) :
    matchHierarchical (slash :: slash ::
        (authority ++ (path ++ (behind question query ++ behind hash fragment)))) =
      some ⟨some authority, path, query, fragment⟩ := by
  have hlines : ((fragment.getD []).any isLineTerminator) = false := by
    have hnot : ∀ c, isLineTerminator c = true →
        (c != percent && !GenericUri.isHex c && !isQuery c) = true := by
      intro c hc
      have hall : ∀ c ∈ [10, 13, 133, 8232, 8233],
          (c != percent && !GenericUri.isHex c && !isQuery c) = true := by decide
      exact hall c (by simpa [isLineTerminator] using hc)
    cases fragment with
    | none => rfl
    | some x =>
        rw [Option.getD_some, List.any_eq_false]
        exact fun c hc hline =>
          not_mem_of_escaped (hfragment x rfl) (hnot c hline) hc
  have hquery : ((strip question (behind question query ++ behind hash fragment)).map
      fun query => query.takeWhile (noneOf [hash])) = query := by
    rw [strip_question_tail]
    cases hx : query with
    | none => rfl
    | some x =>
        rw [Option.map_some, Option.map_some, h.takeWhile_query hx]
  unfold matchHierarchical
  simp only [strip_self, Option.bind_some, Option.map_some, Option.getD_some,
    h.takeWhile_authority, h.dropWhile_authority, h.takeWhile_path, h.dropWhile_path,
    h.dropWhile_tail, strip_hash_behind, hquery, hlines]
  rfl

/-- The host and the port that are taken from an authority without user information. -/
def hostAndPort (text : Text) : Option (Text × Int) :=
  match matchHostPort text with
  | some (host, digits) => (parseInt digits).map fun port => (host, port)
  | none => some (text, -1)

def taken (uri : AbsoluteUri) (host : Text) (port : Int) : KeycloakUriBuilder where
  scheme := some uri.scheme
  userInfo := uri.userInfo
  host := some host
  port := port
  path := if uri.path = [] then none else some uri.path
  query := uri.query.filter (· ≠ [])
  fragment := uri.fragment

section

variable (uri : AbsoluteUri)

theorem forall_noneOf_host :
    ∀ c ∈ uri.host.text, noneOf [slash, question, hash, commercialAt] c = true :=
  Host.forall_noneOf uri.host_valid

theorem delimited {port : Option Text} (hport : ∀ x ∈ port, x.all GenericUri.isDigit = true)
    {query : Option Text} (hquery : ∀ x ∈ query, escaped isQuery x = true) :
    Delimited (authorityText uri.userInfo uri.host.text port) uri.path query where
  authority := forall_noneOf_authorityText uri.userInfo_valid (forall_noneOf_host uri) hport
  begins := uri.path_begins
  path := forall_noneOf_of_escaped [question, hash] uri.path_valid (by decide)
  query x hx := forall_noneOf_of_escaped [hash] (hquery x hx) (by decide)

theorem setAuthority_text (builder : KeycloakUriBuilder)
    (hbuilder : builder.userInfo = none ∧ builder.port = -1) :
    builder.setAuthority (authorityText uri.userInfo uri.host.text uri.port) =
      (hostAndPort (uri.host.text ++ behind colon uri.port)).map fun x =>
        { builder with
          authority := none, userInfo := uri.userInfo, host := some x.1, port := x.2 } := by
  have hstrip := strip_at_authorityText uri.userInfo_valid (forall_noneOf_host uri) uri.port_valid
  have huserInfo : (if (uri.userInfo.map fun _ => uri.host.text ++ behind colon uri.port).isSome
      then some ((authorityText uri.userInfo uri.host.text uri.port).takeWhile
        (noneOf [commercialAt]))
      else builder.userInfo) = uri.userInfo := by
    cases hx : uri.userInfo with
    | none => exact hbuilder.1
    | some x =>
        have htake : (authorityText uri.userInfo uri.host.text uri.port).takeWhile
            (noneOf [commercialAt]) = x := takeWhile_at_authorityText uri.userInfo_valid hx
        rw [hx] at htake
        rw [htake]
        rfl
  have hhost : (uri.userInfo.map fun _ => uri.host.text ++ behind colon uri.port).getD
      (authorityText uri.userInfo uri.host.text uri.port) =
      uri.host.text ++ behind colon uri.port := by
    cases hx : uri.userInfo with
    | none => rfl
    | some x => rfl
  unfold setAuthority
  simp only [hstrip, huserInfo, hhost]
  unfold hostAndPort
  cases matchHostPort (uri.host.text ++ behind colon uri.port) with
  | none =>
      simp only [Option.map_some]
      rw [← hbuilder.2]
  | some x =>
      simp only [Option.map_map]
      rfl

theorem takePath_text (builder : KeycloakUriBuilder) (hbuilder : builder.path = none) :
    builder.takePath (some uri.scheme) uri.path =
      some { builder with path := if uri.path = [] then none else some uri.path } := by
  rw [takePath, if_neg (by simp)]
  by_cases hnil : uri.path = []
  · rw [if_neg (not_not.mpr hnil), if_pos hnil, ← hbuilder]
  · rw [if_pos hnil, if_neg hnil, replacePath, encodePath_of_escaped uri.path_valid,
      Option.map_some]

theorem takeFound_query (builder : KeycloakUriBuilder) (hbuilder : builder.query = none) :
    builder.takeFound (fun builder query => builder.replaceQuery (some query)) uri.query =
      some { builder with query := uri.query.filter (· ≠ []) } := by
  cases hquery : uri.query with
  | none => rw [takeFound, Option.filter_none, ← hbuilder]
  | some query =>
      rw [takeFound, replaceQuery]
      by_cases hnil : query = []
      · rw [if_pos hnil, hnil]
        rfl
      · rw [if_neg hnil, encodeQueryString_of_escaped (uri.query_valid query hquery),
          Option.map_some, Option.filter_some, if_pos (decide_eq_true hnil)]

theorem takeFound_fragment (builder : KeycloakUriBuilder) (hbuilder : builder.fragment = none) :
    builder.takeFound (fun builder fragment => builder.setFragment (some fragment)) uri.fragment =
      some { builder with fragment := uri.fragment } := by
  cases hfragment : uri.fragment with
  | none => rw [takeFound, ← hbuilder]
  | some fragment =>
      rw [takeFound, setFragment, encodeFragment_of_escaped (uri.fragment_valid fragment hfragment),
        Option.map_some]

theorem fromUri_text :
    fromUri uri.text = (hostAndPort (uri.host.text ++ behind colon uri.port)).map fun x =>
      taken uri x.1 x.2 := by
  have hslashes : isOpaque (slash :: slash :: (authorityText uri.userInfo uri.host.text uri.port ++
      (uri.path ++ (behind question uri.query ++ behind hash uri.fragment)))) = false := rfl
  rw [fromUri, uriTemplate, AbsoluteUri.text, matchScheme_assemble uri.scheme_valid]
  simp only [hslashes, Bool.false_eq_true, if_false]
  rw [matchHierarchical_assemble (delimited uri uri.port_valid uri.query_valid)
    uri.fragment_valid, Option.bind_some, parseHierarchicalUri]
  simp only [Option.isSome_some, if_true, takeFound.eq_1]
  rw [setAuthority_text uri _ ⟨rfl, rfl⟩]
  cases hostAndPort (uri.host.text ++ behind colon uri.port) with
  | none => rfl
  | some x =>
      rw [Option.map_some, Option.bind_some, takePath_text uri _ rfl, Option.bind_some,
        takeFound_query uri _ rfl, Option.bind_some, takeFound_fragment uri _ rfl, Option.map_some]
      rfl

/-! ## The text that the builder prints -/

theorem unbraced_of_escaped {allowed : Nat → Bool} {text : Text} (h : escaped allowed text = true)
    (hbraces : (!allowed openBrace && !allowed closeBrace) = true) : Unbraced text := by
  rw [Bool.and_eq_true, Bool.not_eq_true', Bool.not_eq_true'] at hbraces
  exact ⟨not_mem_of_escaped h (by rw [hbraces.1]; decide),
    not_mem_of_escaped h (by rw [hbraces.2]; decide)⟩

theorem unbraced_scheme : Unbraced uri.scheme := by
  have hnot : ∀ c ∈ [openBrace, closeBrace], c ∉ uri.scheme := by
    intro c hc hmem
    have hclass : ∀ c ∈ [openBrace, closeBrace], isAlpha c = false ∧
        (GenericUri.isAlphanum c || [43, 45, 46].contains c) = false := by decide
    have hvalid := uri.scheme_valid
    cases hscheme : uri.scheme with
    | nil =>
        rw [hscheme] at hmem
        cases hmem
    | cons d scheme =>
        rw [hscheme, isScheme, Bool.and_eq_true, List.all_eq_true] at hvalid
        rw [hscheme] at hmem
        rcases List.mem_cons.mp hmem with rfl | hmem
        · exact Bool.false_ne_true ((hclass c hc).1.symm.trans hvalid.1)
        · exact Bool.false_ne_true ((hclass c hc).2.symm.trans (hvalid.2 c hmem))
  exact ⟨hnot openBrace (by decide), hnot closeBrace (by decide)⟩

theorem unbraced_filter_query : ∀ x ∈ uri.query.filter (· ≠ []), Unbraced x := by
  intro x hx
  obtain ⟨hquery, -⟩ := Option.filter_eq_some_iff.mp hx
  exact unbraced_of_escaped (uri.query_valid x hquery) (by decide)

theorem unbraced_path : ∀ x ∈ (if uri.path = [] then none else some uri.path), Unbraced x := by
  intro x hx
  by_cases hnil : uri.path = []
  · rw [if_pos hnil] at hx
    cases hx
  · rw [if_neg hnil] at hx
    cases hx
    exact unbraced_of_escaped uri.path_valid (by decide)

variable {host : Text} {port : Int}

theorem params_taken (hhost : Unbraced host) :
    (taken uri host port).getPathParamNamesInDeclarationOrder = [] := by
  have hparams : ∀ string : Option Text, (∀ x ∈ string, Unbraced x) →
      paramsFrom 0 (Encode.replaceEnclosedCurlyBraces (string.getD [])) = [] := by
    intro string hstring
    cases string with
    | none => rfl
    | some x =>
        have hx := hstring x rfl
        rw [Option.getD_some, Encode.replaceEnclosedCurlyBraces,
          replaceFrom_unbraced 0 hx.1 hx.2, paramsFrom_unbraced hx.1]
  have hnil : ([some uri.scheme, uri.userInfo, some host,
      if uri.path = [] then none else some uri.path, uri.query.filter (· ≠ []),
      uri.fragment].flatMap fun string =>
        paramsFrom 0 (Encode.replaceEnclosedCurlyBraces (string.getD []))) = [] := by
    rw [List.flatMap_eq_nil_iff]
    intro string hstring
    refine hparams string ?_
    simp only [List.mem_cons, List.not_mem_nil, or_false] at hstring
    rcases hstring with rfl | rfl | rfl | rfl | rfl | rfl
    · rintro x ⟨⟩
      exact unbraced_scheme uri
    · exact fun x hx => unbraced_of_escaped (uri.userInfo_valid x hx) (by decide)
    · rintro x ⟨⟩
      exact hhost
    · exact unbraced_path uri
    · exact unbraced_filter_query uri
    · exact fun x hx => unbraced_of_escaped (uri.fragment_valid x hx) (by decide)
  rw [getPathParamNamesInDeclarationOrder, taken, hnil]
  rfl

section

variable (paramMap : Text → Option Text) (encodeSlash : Bool)

theorem replaceParameter_of_unbraced {string : Text} (h : Unbraced string) :
    replaceParameter paramMap encodeSlash string = some string :=
  replaceParameter_unbraced paramMap encodeSlash h.1 h.2

theorem schemeString_taken :
    schemeString paramMap encodeSlash (taken uri host port) = some (uri.scheme ++ [colon]) := by
  rw [schemeString, taken]
  simp only [replaceParameter_of_unbraced paramMap encodeSlash (unbraced_scheme uri),
    Option.map_some]

theorem userInfoString_taken :
    userInfoString paramMap encodeSlash (taken uri host port) =
      some (inFront commercialAt uri.userInfo) := by
  rw [userInfoString, taken]
  cases huserInfo : uri.userInfo with
  | none => rfl
  | some x =>
      have hx := unbraced_of_escaped (uri.userInfo_valid x huserInfo) (by decide)
      simp only [replaceParameter_of_unbraced paramMap encodeSlash hx, Option.map_some]
      rfl

theorem authorityString_taken (hne : host ≠ []) (hhost : Unbraced host) :
    authorityString paramMap encodeSlash (taken uri host port) =
      some (slash :: slash ::
        (inFront commercialAt uri.userInfo ++ (host ++ portString (taken uri host port)))) := by
  have hhostString : hostString paramMap encodeSlash (taken uri host port) = some host := by
    rw [hostString, taken]
    simp only [if_neg hne, replaceParameter_of_unbraced paramMap encodeSlash hhost]
  have hsome : (taken uri host port).userInfo ≠ none ∨ (taken uri host port).host ≠ none ∨
      (taken uri host port).port ≠ -1 := .inr (.inl (Option.some_ne_none host))
  have hssp : (taken uri host port).ssp = none := rfl
  rw [authorityString, hssp]
  simp only [if_pos hsome, userInfoString_taken, hhostString, Option.bind_eq_bind,
    Option.bind_some, Option.pure_def]

theorem pathString_taken :
    pathString paramMap encodeSlash (taken uri host port) = some uri.path := by
  have hpath : (taken uri host port).path = if uri.path = [] then none else some uri.path := rfl
  rw [pathString, hpath]
  by_cases hnil : uri.path = []
  · rw [if_pos hnil, hnil]
  · have hbegins : uri.path.head? = some slash := uri.path_begins.resolve_left hnil
    have hunbraced := unbraced_path uri uri.path (by rw [if_neg hnil]; rfl)
    rw [if_neg hnil]
    simp only [replaceParameter_of_unbraced paramMap encodeSlash hunbraced, Option.map_some,
      hbegins, ne_eq, not_true_eq_false, and_false, if_false]

theorem queryString_taken :
    queryString paramMap (taken uri host port) =
      some (behind question (uri.query.filter (· ≠ []))) := by
  have hquery : (taken uri host port).query = uri.query.filter (· ≠ []) := rfl
  rw [queryString, hquery]
  cases hx : uri.query.filter (· ≠ []) with
  | none => rfl
  | some x =>
      have hunbraced := unbraced_filter_query uri x hx
      simp only [replaceQueryStringParameter_unbraced paramMap hunbraced.1 hunbraced.2,
        Option.map_some]
      rfl

theorem fragmentString_taken :
    fragmentString paramMap encodeSlash (taken uri host port) =
      some (behind hash uri.fragment) := by
  rw [fragmentString, taken]
  cases hfragment : uri.fragment with
  | none => rfl
  | some x =>
      have hx := unbraced_of_escaped (uri.fragment_valid x hfragment) (by decide)
      simp only [replaceParameter_of_unbraced paramMap encodeSlash hx, Option.map_some]
      rfl

end

/-- The components are printed, and the parser decides whether the text is a URI. -/
theorem build_taken (hne : host ≠ []) (hhost : Unbraced host) :
    (taken uri host port).build [] =
      (some (assemble uri.scheme
        (inFront commercialAt uri.userInfo ++ (host ++ portString (taken uri host port)))
        uri.path (uri.query.filter (· ≠ [])) uri.fragment)).filter JavaUri.accepts := by
  have hstring : ∀ paramMap, buildString paramMap true (taken uri host port) =
      some (assemble uri.scheme
        (inFront commercialAt uri.userInfo ++ (host ++ portString (taken uri host port)))
        uri.path (uri.query.filter (· ≠ [])) uri.fragment) := by
    intro paramMap
    rw [buildString, schemeString_taken, authorityString_taken uri paramMap true hne hhost,
      pathString_taken, queryString_taken, fragmentString_taken]
    simp only [Option.bind_eq_bind, Option.bind_some, Option.pure_def, assemble]
    simp
  rw [build, buildFromValues, params_taken uri hhost]
  simp only [hstring, List.length_nil, lt_self_iff_false, if_false]

/-! ## The port that is printed -/

def printedPort (scheme : Text) (port : Nat) : Option Text :=
  if (scheme = http ∧ port ≠ 80) ∨ (scheme = https ∧ port ≠ 443) then
    some (decimal port)
  else none

/-- The port in what is built, none if it does not fit into an `int`. -/
def shownPort : Option (Option Text) :=
  match uri.port with
  | none => some none
  | some digits =>
      if digits = [] ∨ colon ∈ uri.host.text then some (some digits)
      else if value digits < 2 ^ 31 then some (printedPort uri.scheme (value digits))
      else none

def shownText (port : Option Text) : Text :=
  assemble uri.scheme (authorityText uri.userInfo uri.host.text port) uri.path
    (uri.query.filter (· ≠ [])) uri.fragment

theorem host_ne_nil : uri.host.text ≠ [] := by
  have hvalid := uri.host_valid
  cases hhost : uri.host with
  | name text =>
      rw [hhost, Host.valid, Bool.and_eq_true, bne_iff_ne] at hvalid
      exact hvalid.1
  | literal address => exact List.cons_ne_nil _ _

theorem unbraced_host : Unbraced uri.host.text := by
  have hvalid := uri.host_valid
  cases hhost : uri.host with
  | name text =>
      rw [hhost, Host.valid, Bool.and_eq_true] at hvalid
      exact unbraced_of_escaped hvalid.2 (by decide)
  | literal address =>
      rw [hhost] at hvalid
      have hnot : ∀ c ∈ [openBrace, closeBrace], c ∉ (Host.literal address).text := by
        intro c hc hmem
        have hclass : ∀ c ∈ [openBrace, closeBrace], c ≠ openBracket ∧ c ≠ closeBracket ∧
            isUserInfo c = false := by decide
        obtain ⟨hopen, hclose, huserInfo⟩ := hclass c hc
        rw [Host.text, List.cons_append, List.mem_cons, List.mem_append, List.mem_singleton] at hmem
        rcases hmem with heq | hmem | heq
        · exact hopen heq
        · exact Bool.false_ne_true (huserInfo.symm.trans (forall_mem_literal hvalid c hmem))
        · exact hclose heq
      exact ⟨hnot openBrace (by decide), hnot closeBrace (by decide)⟩

theorem matchHostPort_of_colon (hcolon : colon ∈ uri.host.text) (rest : Text) :
    matchHostPort (uri.host.text ++ rest) = none := by
  have hvalid := uri.host_valid
  cases hhost : uri.host with
  | name text =>
      rw [hhost, Host.valid, Bool.and_eq_true] at hvalid
      rw [hhost] at hcolon
      exact absurd hcolon (not_mem_of_escaped hvalid.2 (by decide))
  | literal address =>
      rw [hhost] at hvalid hcolon
      have hmem : colon ∈ address := by
        rw [Host.text, List.cons_append, List.mem_cons, List.mem_append, List.mem_singleton]
          at hcolon
        rcases hcolon with heq | hmem | heq
        · exact absurd heq (by decide)
        · exact hmem
        · exact absurd heq (by decide)
      obtain ⟨a, b, rfl, hfirst⟩ := List.eq_append_cons_of_mem hmem
      have hfront : ∀ c ∈ openBracket :: a, noneOf [slash, colon] c = true := by
        refine List.forall_mem_cons.mpr ⟨by decide, fun c hc => ?_⟩
        have hclass := forall_mem_literal hvalid c (List.mem_append_left _ hc)
        rw [noneOf_iff]
        intro hmark
        have hmarks : ∀ c ∈ [slash, colon], c = slash ∨ c = colon := by decide
        rcases hmarks c hmark with rfl | rfl
        · exact absurd hclass (by decide)
        · exact hfirst hc
      have hstop : ∀ (rest : Text), ∀ c ∈ (colon :: rest).head?,
          noneOf [slash, colon] c = false := by
        rintro rest c ⟨⟩
        decide
      have hsplit : (Host.literal (a ++ colon :: b)).text ++ rest =
          (openBracket :: a) ++ colon :: (b ++ closeBracket :: rest) := by
        simp [Host.text]
      have hdigits : (b ++ closeBracket :: rest).all GenericUri.isDigit = false := by
        rw [List.all_eq_false]
        exact ⟨closeBracket, List.mem_append_right b List.mem_cons_self, by decide⟩
      rw [hsplit, matchHostPort, dropWhile_stop hfront (hstop _), strip_self, Option.bind_some,
        hdigits]
      simp

theorem matchHostPort_of_not_colon (hcolon : colon ∉ uri.host.text) :
    matchHostPort (uri.host.text ++ behind colon uri.port) =
      uri.port.bind fun digits => if digits = [] then none else some (uri.host.text, digits) := by
  have hfront : ∀ c ∈ uri.host.text, noneOf [slash, colon] c = true := by
    intro c hc
    rw [noneOf_iff]
    intro hmark
    have hmarks : ∀ c ∈ [slash, colon],
        c ∈ [slash, question, hash, commercialAt] ∨ c = colon := by decide
    rcases hmarks c hmark with hmark | rfl
    · exact noneOf_iff.mp (forall_noneOf_host uri c hc) hmark
    · exact hcolon hc
  have hstop : ∀ c ∈ (behind colon uri.port).head?, noneOf [slash, colon] c = false := by
    intro c hc
    rw [head?_behind c hc]
    decide
  rw [matchHostPort, dropWhile_stop hfront hstop, takeWhile_stop hfront hstop]
  cases hport : uri.port with
  | none => rfl
  | some digits =>
      rw [behind_some, strip_self, Option.bind_some, Option.bind_some]
      by_cases hnil : digits = []
      · rw [if_pos hnil, if_neg fun h => h.2.1 hnil]
      · rw [if_neg hnil, if_pos ⟨host_ne_nil uri, hnil, uri.port_valid digits hport⟩]

theorem portString_taken_none (host : Text) : portString (taken uri host (-1)) = [] := by
  rw [portString, if_neg fun h => h.1 rfl]

theorem portString_taken (host : Text) (n : Nat) :
    portString (taken uri host n) = behind colon (printedPort uri.scheme n) := by
  have hport : (taken uri host n).port = n := rfl
  have hscheme : (taken uri host n).scheme = some uri.scheme := rfl
  have hcond : ((n : Int) ≠ -1 ∧ (some uri.scheme = none ∨
      (some uri.scheme = some http ∧ (n : Int) ≠ 80) ∨
      (some uri.scheme = some https ∧ (n : Int) ≠ 443))) ↔
      (uri.scheme = http ∧ n ≠ 80) ∨ (uri.scheme = https ∧ n ≠ 443) := by
    have hne : (n : Int) ≠ -1 := by omega
    have h80 : (n : Int) ≠ 80 ↔ n ≠ 80 := by omega
    have h443 : (n : Int) ≠ 443 ↔ n ≠ 443 := by omega
    simp [hne, h80, h443]
  have hnat : ¬ (n : Int) < 0 := by omega
  rw [portString, hport, hscheme, printedPort]
  by_cases hprinted :
      (uri.scheme = http ∧ n ≠ 80) ∨ (uri.scheme = https ∧ n ≠ 443)
  · rw [if_pos (hcond.mpr hprinted), if_pos hprinted, if_neg hnat, Int.natAbs_natCast]
    rfl
  · rw [if_neg fun h => hprinted (hcond.mp h), if_neg hprinted]
    rfl

theorem rebuilt_eq :
    ((fromUri uri.text).bind fun builder => builder.build []) =
      (shownPort uri).bind fun port =>
        (some (shownText uri port)).filter JavaUri.accepts := by
  have hwhole : Unbraced (uri.host.text ++ behind colon uri.port) := by
    have hunbraced := unbraced_host uri
    have hnot : ∀ c ∈ [openBrace, closeBrace], c ∉ behind colon uri.port := by
      intro c hc hmem
      cases hport : uri.port with
      | none =>
          rw [hport] at hmem
          cases hmem
      | some digits =>
          have hclass : ∀ c ∈ [openBrace, closeBrace], c ≠ colon ∧
              GenericUri.isDigit c = false := by decide
          rw [hport, behind_some] at hmem
          rcases List.mem_cons.mp hmem with heq | hmem
          · exact (hclass c hc).1 heq
          · have hdigit := List.all_eq_true.mp (uri.port_valid digits hport) c hmem
            exact Bool.false_ne_true ((hclass c hc).2.symm.trans hdigit)
    refine ⟨fun hmem => ?_, fun hmem => ?_⟩
    · exact (List.mem_append.mp hmem).elim hunbraced.1 (hnot openBrace (by decide))
    · exact (List.mem_append.mp hmem).elim hunbraced.2 (hnot closeBrace (by decide))
  -- the host keeps a port that was not found
  have hkeep : matchHostPort (uri.host.text ++ behind colon uri.port) = none →
      ((fromUri uri.text).bind fun builder => builder.build []) =
        (some (shownText uri uri.port)).filter JavaUri.accepts := by
    intro hnone
    have hne : uri.host.text ++ behind colon uri.port ≠ [] :=
      List.append_ne_nil_of_left_ne_nil (host_ne_nil uri) _
    rw [fromUri_text, hostAndPort, hnone, Option.map_some, Option.bind_some,
      build_taken uri hne hwhole, portString_taken_none, List.append_nil]
    rfl
  rw [shownPort]
  by_cases hcolon : colon ∈ uri.host.text
  · rw [hkeep (matchHostPort_of_colon uri hcolon _)]
    cases hport : uri.port with
    | none => rfl
    | some digits =>
        simp only [hcolon, or_true, if_true]
        rfl
  · have hmatch := matchHostPort_of_not_colon uri hcolon
    cases hport : uri.port with
    | none =>
        rw [hport] at hmatch hkeep
        rw [hkeep hmatch]
        rfl
    | some digits =>
        rw [hport, Option.bind_some] at hmatch
        by_cases hnil : digits = []
        · rw [if_pos hnil] at hmatch
          rw [hport] at hkeep
          rw [hkeep hmatch]
          simp only [hnil, true_or, if_true]
          rfl
        · rw [if_neg hnil] at hmatch
          rw [fromUri_text, hostAndPort, hport, hmatch]
          simp only [hnil, hcolon, or_self, if_false, parseInt]
          by_cases hfits : value digits < 2 ^ 31
          · rw [if_pos hfits, if_pos hfits, Option.map_some, Option.map_some, Option.bind_some,
              Option.bind_some, build_taken uri (host_ne_nil uri) (unbraced_host uri),
              portString_taken]
            rfl
          · rw [if_neg hfits, if_neg hfits]
            rfl

/-! ## When the same URI is built -/

theorem shownPort_digits {port : Option Text} (h : shownPort uri = some port) :
    ∀ x ∈ port, x.all GenericUri.isDigit = true := by
  have hport := uri.port_valid
  rw [shownPort] at h
  cases hdigits : uri.port with
  | none =>
      rw [hdigits] at h
      cases h
      exact fun x hx => by cases hx
  | some digits =>
      simp only [hdigits] at h
      split_ifs at h with hkeep hfits
      · cases h
        rwa [hdigits] at hport
      · cases h
        intro x hx
        rw [printedPort] at hx
        split_ifs at hx with hprinted
        · cases hx
          exact all_isDigit_decimal _
        · cases hx

theorem accepts_shownText {port : Option Text}
    (hport : ∀ x ∈ port, x.all GenericUri.isDigit = true) :
    JavaUri.accepts (shownText uri port) = true ↔
      match uri.host with
      | .name _ => True
      | .literal address => isIPv6 address = true ∧ ∀ digits ∈ port, value digits < 2 ^ 31 := by
  have hquery : ∀ x ∈ uri.query.filter (· ≠ []), escaped isQuery x = true := by
    intro x hx
    exact uri.query_valid x (Option.filter_eq_some_iff.mp hx).1
  have hne : authorityText uri.userInfo uri.host.text port ≠ [] := by
    intro hnil
    rw [authorityText, List.append_eq_nil_iff, List.append_eq_nil_iff] at hnil
    exact host_ne_nil uri hnil.2.1
  have hvalid := uri.host_valid
  rw [shownText, JavaUri.accepts_assemble uri.scheme_valid hne (delimited uri hport hquery)
    uri.path_valid hquery uri.fragment_valid]
  cases hhost : uri.host with
  | name text =>
      rw [hhost, Host.valid, Bool.and_eq_true] at hvalid
      have haccepted := JavaUri.authorityAccepted_name uri.userInfo_valid hvalid.2 hport
      exact iff_of_true haccepted trivial
  | literal address =>
      rw [hhost] at hvalid
      rw [JavaUri.authorityAccepted_literal uri.userInfo_valid hvalid hport, Bool.and_eq_true,
        decide_eq_true_iff]

theorem authorityText_inj {port port' : Option Text}
    (h : authorityText uri.userInfo uri.host.text port =
      authorityText uri.userInfo uri.host.text port') : port = port' :=
  behind_injective colon (List.append_cancel_left (List.append_cancel_left h))

/-- Two texts with the components of the URI are the same if their ports and queries are. -/
theorem assemble_inj {port port' query query' : Option Text}
    (hport : ∀ x ∈ port, x.all GenericUri.isDigit = true)
    (hport' : ∀ x ∈ port', x.all GenericUri.isDigit = true)
    (hquery : ∀ x ∈ query, escaped isQuery x = true)
    (hquery' : ∀ x ∈ query', escaped isQuery x = true)
    (h : assemble uri.scheme (authorityText uri.userInfo uri.host.text port) uri.path query
        uri.fragment =
      assemble uri.scheme (authorityText uri.userInfo uri.host.text port') uri.path query'
        uri.fragment) : port = port' ∧ query = query' := by
  have hrest := List.tail_eq_of_cons_eq (List.tail_eq_of_cons_eq (List.tail_eq_of_cons_eq
    (List.append_cancel_left h)))
  have hdelimited := delimited uri hport hquery
  have hauthority : (authorityText uri.userInfo uri.host.text port ++
      (uri.path ++ (behind question query ++ behind hash uri.fragment))).takeWhile
        (noneOf [slash, question, hash]) = authorityText uri.userInfo uri.host.text port :=
    hdelimited.takeWhile_authority
  rw [hrest, (delimited uri hport' hquery').takeWhile_authority] at hauthority
  obtain rfl := authorityText_inj uri hauthority
  have htail := List.append_cancel_left (List.append_cancel_left hrest)
  exact ⟨rfl, behind_injective question (List.append_cancel_right htail)⟩

theorem sameUri_shownText_iff {port : Option Text}
    (hport : ∀ x ∈ port, x.all GenericUri.isDigit = true) :
    SameUri uri (shownText uri port) ↔ uri.query ≠ some [] ∧
      (port = uri.port ∨ port = none ∧ ∃ digits ∈ uri.port, DefaultPort uri.scheme digits) := by
  have hquery : ∀ x ∈ uri.query.filter (· ≠ []), escaped isQuery x = true := by
    intro x hx
    exact uri.query_valid x (Option.filter_eq_some_iff.mp hx).1
  have hfilter : uri.query.filter (· ≠ []) = uri.query ↔ uri.query ≠ some [] := by
    cases uri.query with
    | none => simp
    | some x => simp [Option.filter_some]
  have hnone : ∀ x ∈ (none : Option Text), x.all GenericUri.isDigit = true :=
    fun x hx => by cases hx
  constructor
  · rintro (htext | ⟨hdefault, htext⟩)
    · obtain ⟨heq, hq⟩ := assemble_inj uri hport uri.port_valid hquery uri.query_valid htext
      exact ⟨hfilter.mp hq, .inl heq⟩
    · obtain ⟨heq, hq⟩ := assemble_inj uri hport hnone hquery uri.query_valid htext
      exact ⟨hfilter.mp hq, .inr ⟨heq, hdefault⟩⟩
  · rintro ⟨hq, hkept⟩
    rw [SameUri, shownText, hfilter.mpr hq]
    rcases hkept with rfl | ⟨rfl, hdefault⟩
    · exact .inl rfl
    · exact .inr ⟨hdefault, rfl⟩

theorem rebuilt_iff_shownPort :
    Rebuilt uri ↔ ∃ port, shownPort uri = some port ∧
      JavaUri.accepts (shownText uri port) = true ∧ SameUri uri (shownText uri port) := by
  rw [Rebuilt, rebuilt_eq]
  constructor
  · rintro ⟨text, htext, hsame⟩
    obtain ⟨port, hport, hfilter⟩ := Option.bind_eq_some_iff.mp htext
    obtain ⟨heq, haccepts⟩ := Option.filter_eq_some_iff.mp hfilter
    obtain rfl := Option.some.inj heq
    exact ⟨port, hport, haccepts, hsame⟩
  · rintro ⟨port, hport, haccepts, hsame⟩
    refine ⟨_, ?_, hsame⟩
    rw [hport, Option.bind_some]
    exact Option.filter_eq_some_iff.mpr ⟨rfl, haccepts⟩

theorem http_ne_https : http ≠ https := by decide

theorem lower_http : lower http = http := by decide

theorem lower_https : lower https = https := by decide

/-- A default port is not printed, whatever the case of the scheme. -/
theorem printedPort_of_default {scheme digits : Text} (h : DefaultPort scheme digits) :
    printedPort scheme (value digits) = none := by
  refine if_neg ?_
  rintro (⟨rfl, hne⟩ | ⟨rfl, hne⟩)
  · rcases h with ⟨-, hvalue⟩ | ⟨hscheme, -⟩
    · exact hne hvalue
    · exact http_ne_https (lower_http.symm.trans hscheme)
  · rcases h with ⟨hscheme, -⟩ | ⟨-, hvalue⟩
    · exact http_ne_https (hscheme.symm.trans lower_https)
    · exact hne hvalue

/-- The digits of a host without colons are kept, or printed the same, or stand for a port that
need not be printed. -/
theorem portKept_iff {scheme digits : Text} (hdigits : digits.all GenericUri.isDigit = true)
    (hne : digits ≠ []) :
    PortKept scheme digits ↔ value digits < 2 ^ 31 ∧
      (printedPort scheme (value digits) = some digits ∨
        printedPort scheme (value digits) = none ∧ DefaultPort scheme digits) := by
  constructor
  · rintro (hnil | hdefault | ⟨hscheme, hzero, hfits⟩)
    · exact absurd hnil hne
    · have hfits : value digits < 2 ^ 31 := by
        rcases hdefault with ⟨-, hvalue⟩ | ⟨-, hvalue⟩ <;> omega
      exact ⟨hfits, .inr ⟨printedPort_of_default hdefault, hdefault⟩⟩
    · refine ⟨hfits, ?_⟩
      by_cases hdefault : DefaultPort scheme digits
      · exact .inr ⟨printedPort_of_default hdefault, hdefault⟩
      · rw [printedPort, if_pos, decimal_value hdigits hzero hne]
        · exact .inl rfl
        · rcases hscheme with rfl | rfl
          · exact .inl ⟨rfl, fun hvalue => hdefault (.inl ⟨lower_http, hvalue⟩)⟩
          · exact .inr ⟨rfl, fun hvalue => hdefault (.inr ⟨lower_https, hvalue⟩)⟩
  · rintro ⟨hfits, hprinted | ⟨-, hdefault⟩⟩
    · rw [printedPort] at hprinted
      split_ifs at hprinted with hscheme
      · have hdecimal := Option.some.inj hprinted
        refine .inr (.inr ⟨hscheme.imp And.left And.left, fun hzero => ?_, hfits⟩)
        rw [← hdecimal] at hzero ⊢
        exact decimal_head? hzero
    · exact .inr (.inl hdefault)

theorem shownPort_of_colon (hcolon : colon ∈ uri.host.text) : shownPort uri = some uri.port := by
  rw [shownPort]
  cases uri.port with
  | none => rfl
  | some digits => simp only [hcolon, or_true, if_true]

theorem shownPort_of_digits (hcolon : colon ∉ uri.host.text) {digits : Text}
    (hport : uri.port = some digits) (hne : digits ≠ []) :
    shownPort uri = if value digits < 2 ^ 31 then some (printedPort uri.scheme (value digits))
      else none := by
  rw [shownPort, hport]
  simp only [hne, hcolon, or_self, if_false]

theorem colon_mem_literal {address : Text} (h : isIPv6 address = true) :
    colon ∈ (Host.literal address).text :=
  List.mem_cons_of_mem _ (List.mem_append_left _ (colon_mem_of_isIPv6 h))

theorem rebuilt_iff_of_literal {address : Text} (hhost : uri.host = .literal address) :
    Rebuilt uri ↔ uri.query ≠ some [] ∧ isIPv6 address = true ∧
      ∀ digits ∈ uri.port, value digits < 2 ^ 31 := by
  have haccepts : ∀ {port : Option Text}, (∀ x ∈ port, x.all GenericUri.isDigit = true) →
      (JavaUri.accepts (shownText uri port) = true ↔
        isIPv6 address = true ∧ ∀ digits ∈ port, value digits < 2 ^ 31) := by
    intro port hport
    have hiff := accepts_shownText uri hport
    rwa [hhost] at hiff
  have hshown : isIPv6 address = true → shownPort uri = some uri.port := by
    intro hv6
    exact shownPort_of_colon uri (hhost ▸ colon_mem_literal hv6)
  rw [rebuilt_iff_shownPort]
  constructor
  · rintro ⟨port, hport, haccepted, hsame⟩
    obtain ⟨hv6, hfits⟩ := (haccepts (shownPort_digits uri hport)).mp haccepted
    obtain rfl := Option.some.inj ((hshown hv6).symm.trans hport)
    exact ⟨((sameUri_shownText_iff uri uri.port_valid).mp hsame).1, hv6, hfits⟩
  · rintro ⟨hquery, hv6, hfits⟩
    exact ⟨uri.port, hshown hv6, (haccepts uri.port_valid).mpr ⟨hv6, hfits⟩,
      (sameUri_shownText_iff uri uri.port_valid).mpr ⟨hquery, .inl rfl⟩⟩

theorem rebuilt_iff_of_name {text : Text} (hhost : uri.host = .name text) :
    Rebuilt uri ↔ uri.query ≠ some [] ∧ ∀ digits ∈ uri.port, PortKept uri.scheme digits := by
  have haccepts : ∀ {port : Option Text}, (∀ x ∈ port, x.all GenericUri.isDigit = true) →
      JavaUri.accepts (shownText uri port) = true := by
    intro port hport
    have hiff := accepts_shownText uri hport
    rw [hhost] at hiff
    exact hiff.mpr trivial
  have hcolon : colon ∉ uri.host.text := by
    have hvalid := uri.host_valid
    rw [hhost, Host.valid, Bool.and_eq_true] at hvalid
    rw [hhost]
    exact not_mem_of_escaped hvalid.2 (by decide)
  -- without digits the port is kept
  have hempty : (∀ digits ∈ uri.port, digits = []) → shownPort uri = some uri.port := by
    intro hnil
    rw [shownPort]
    cases hport : uri.port with
    | none => rfl
    | some digits => simp only [hnil digits hport, true_or, if_true]
  rw [rebuilt_iff_shownPort]
  constructor
  · rintro ⟨port, hport, -, hsame⟩
    obtain ⟨hquery, hkept⟩ :=
      (sameUri_shownText_iff uri (shownPort_digits uri hport)).mp hsame
    refine ⟨hquery, fun digits hdigits => ?_⟩
    by_cases hnil : digits = []
    · exact .inl hnil
    · rw [portKept_iff (uri.port_valid digits hdigits) hnil]
      rw [shownPort_of_digits uri hcolon hdigits hnil] at hport
      split_ifs at hport with hfits
      obtain rfl := Option.some.inj hport
      refine ⟨hfits, hkept.imp (fun heq => heq.trans hdigits) fun hnone => ⟨hnone.1, ?_⟩⟩
      obtain ⟨x, hx, hdefault⟩ := hnone.2
      obtain rfl := Option.some.inj (hdigits.symm.trans hx)
      exact hdefault
  · rintro ⟨hquery, hkept⟩
    by_cases hnil : ∀ digits ∈ uri.port, digits = []
    · exact ⟨uri.port, hempty hnil, haccepts uri.port_valid,
        (sameUri_shownText_iff uri uri.port_valid).mpr ⟨hquery, .inl rfl⟩⟩
    · push Not at hnil
      obtain ⟨digits, hdigits, hne⟩ := hnil
      obtain ⟨hfits, hprinted⟩ :=
        (portKept_iff (uri.port_valid digits hdigits) hne).mp (hkept digits hdigits)
      have hport := shownPort_of_digits uri hcolon hdigits hne
      rw [if_pos hfits] at hport
      refine ⟨_, hport, haccepts (shownPort_digits uri hport),
        (sameUri_shownText_iff uri (shownPort_digits uri hport)).mpr ⟨hquery, ?_⟩⟩
      exact hprinted.imp (fun heq => heq.trans hdigits.symm) fun hnone =>
        ⟨hnone.1, digits, hdigits, hnone.2⟩

/-- A URI is built from itself if and only if it is one of those that a builder keeps. -/
theorem rebuilt_iff : Rebuilt uri ↔ Kept uri := by
  rw [Kept]
  cases hhost : uri.host with
  | name text => exact rebuilt_iff_of_name uri hhost
  | literal address => exact rebuilt_iff_of_literal uri hhost

end

def customUri : AbsoluteUri where
  scheme := units ['a', 'p', 'p']
  userInfo := none
  host := .name (units ['h', 'o', 's', 't'])
  port := some (units ['8', '0', '8', '0'])
  path := units ['/', 'c', 'a', 'l', 'l', 'b', 'a', 'c', 'k']
  query := none
  fragment := none
  scheme_valid := by decide
  userInfo_valid x hx := by cases hx
  host_valid := by decide
  port_valid x hx := by
    cases hx
    decide
  path_begins := .inr (by decide)
  path_valid := by decide
  query_valid x hx := by cases hx
  fragment_valid x hx := by cases hx

/-- The port of a redirect URI with a custom scheme is lost. -/
theorem not_rebuilt_of_custom_scheme :
    (fromUri (units "app://host:8080/callback".toList)).bind (fun builder => builder.build []) =
      some (units "app://host/callback".toList) ∧
    customUri.text = units "app://host:8080/callback".toList ∧ ¬ Rebuilt customUri := by
  have htext : customUri.text = units "app://host:8080/callback".toList := by decide +kernel
  have hshown : shownPort customUri = some none := by decide
  have hresult : shownText customUri none = units "app://host/callback".toList := by decide +kernel
  have haccepts : JavaUri.accepts (shownText customUri none) = true :=
    (accepts_shownText customUri fun x hx => by cases hx).mpr trivial
  have hbuilt := rebuilt_eq customUri
  rw [htext, hshown, Option.bind_some, Option.filter_some, if_pos haccepts, hresult] at hbuilt
  refine ⟨hbuilt, htext, ?_⟩
  rintro ⟨text, hresult, hsame⟩
  rw [htext, hbuilt] at hresult
  obtain rfl := Option.some.inj hresult
  rcases hsame with hsame | ⟨⟨digits, hdigits, hdefault⟩, -⟩
  · rw [htext] at hsame
    revert hsame
    decide +kernel
  · cases hdigits
    revert hdefault
    unfold DefaultPort
    decide

end Keycloak.Common.RebuiltUri
