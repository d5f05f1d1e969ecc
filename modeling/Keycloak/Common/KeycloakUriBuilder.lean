import Keycloak.Common.Encode
import Keycloak.Lib.JavaUri
import Keycloak.Lib.Split

/-!
# The URI builder

A builder has the components of a URI; it takes them from a URI, sets query parameters, and
builds a URI with values for its template parameters.  Operations that throw yield none.
-/

namespace Keycloak.Common

open Encode (Text units openBrace closeBrace)
open GenericUri (hash slash colon question commercialAt noneOf strip)

structure KeycloakUriBuilder where
  host : Option Text := none
  scheme : Option Text := none
  port : Int := -1
  userInfo : Option Text := none
  path : Option Text := none
  query : Option Text := none
  fragment : Option Text := none
  ssp : Option Text := none
  authority : Option Text := none

namespace KeycloakUriBuilder

def http : Text := units ['h', 't', 't', 'p']

def https : Text := units ['h', 't', 't', 'p', 's']

/-! ## Template parameters -/

def isSpace (c : Nat) : Bool := c == 32 || (9 ≤ c && c ≤ 13)

def isWord (c : Nat) : Bool := Encode.isAlphanum c || c == 95

def inName (c : Nat) : Bool := isWord c || c == 45 || c == 46

def isUnbraced (c : Nat) : Bool := c != openBrace && c != closeBrace

/-- A match of `URI_PARAM_PATTERN`, behind its open brace: the name, and what follows. -/
def matchParam (text : Text) : Option (Text × Text) :=
  let name := (text.dropWhile isSpace).takeWhile inName
  let rest := ((text.dropWhile isSpace).dropWhile inName).dropWhile isSpace
  if (name.head?.any isWord) then
    match strip closeBrace rest with
    | some after => some (name, after)
    | none =>
        (strip colon rest).bind fun regex =>
          if regex.takeWhile isUnbraced = [] then none
          else (strip closeBrace (regex.dropWhile isUnbraced)).map fun after => (name, after)
  else none

def findParam (c : Nat) (rest : Text) : Option (Text × Text) :=
  if c = openBrace then matchParam rest else none

/-- The names of the matches; `skip` is what remains of the present match. -/
def paramsFrom : Nat → Text → List Text
  | _, [] => []
  | skip + 1, _ :: rest => paramsFrom skip rest
  | 0, c :: rest =>
      match findParam c rest with
      | some (name, after) => name :: paramsFrom (rest.length - after.length) rest
      | none => paramsFrom 0 rest

def replaceFrom (replacement : Text → Option Text) : Nat → Text → Option Text
  | _, [] => some []
  | skip + 1, _ :: rest => replaceFrom replacement skip rest
  | 0, c :: rest =>
      match findParam c rest with
      | some (name, after) => do
          let value ← replacement name
          let rest ← replaceFrom replacement (rest.length - after.length) rest
          return value ++ rest
      | none => (replaceFrom replacement 0 rest).map (c :: ·)

def replaceParameter (paramMap : Text → Option Text) (encodeSlash : Bool) (string : Text) :
    Option Text :=
  replaceFrom (fun param => (paramMap param).map fun value =>
    if encodeSlash then Encode.encodePathSegmentAsIs value else Encode.encodePathAsIs value) 0
    (Encode.replaceEnclosedCurlyBraces string)

def replaceQueryStringParameter (paramMap : Text → Option Text) (string : Text) : Option Text :=
  replaceFrom (fun param => (paramMap param).map Encode.encodeQueryParamAsIs) 0
    (Encode.replaceEnclosedCurlyBraces string)

/-! ## Building -/

section

variable (paramMap : Text → Option Text) (encodeSlash : Bool) (builder : KeycloakUriBuilder)

def schemeString : Option Text :=
  match builder.scheme with
  | none => some []
  | some scheme => (replaceParameter paramMap encodeSlash scheme).map (· ++ [colon])

def userInfoString : Option Text :=
  match builder.userInfo with
  | none => some []
  | some userInfo => (replaceParameter paramMap encodeSlash userInfo).map (· ++ [commercialAt])

def hostString : Option Text :=
  match builder.host with
  | none => some []
  | some host => if host = [] then none else replaceParameter paramMap encodeSlash host

/-- The port is printed for two schemes, and where there is none. -/
def portString : Text :=
  if builder.port ≠ -1 ∧ (builder.scheme = none ∨
      (builder.scheme = some http ∧ builder.port ≠ 80) ∨
      (builder.scheme = some https ∧ builder.port ≠ 443)) then
    colon :: (if builder.port < 0 then [45] else []) ++ GenericUri.decimal builder.port.natAbs
  else []

def authorityString : Option Text :=
  match builder.ssp with
  | some ssp => some ssp
  | none =>
      if builder.userInfo ≠ none ∨ builder.host ≠ none ∨ builder.port ≠ -1 then do
        let userInfo ← userInfoString paramMap encodeSlash builder
        let host ← hostString paramMap encodeSlash builder
        return slash :: slash :: (userInfo ++ (host ++ portString builder))
      else
        match builder.authority with
        | none => some []
        | some authority =>
            (replaceParameter paramMap encodeSlash authority).map (slash :: slash :: ·)

def pathString : Option Text :=
  match builder.path with
  | none => some []
  | some path =>
      (replaceParameter paramMap encodeSlash path).map fun tmpPath =>
        if (builder.userInfo ≠ none ∨ builder.host ≠ none) ∧ tmpPath.head? ≠ some slash then
          slash :: tmpPath
        else tmpPath

def queryString : Option Text :=
  match builder.query with
  | none => some []
  | some query => (replaceQueryStringParameter paramMap query).map (question :: ·)

def fragmentString : Option Text :=
  match builder.fragment with
  | none => some []
  | some fragment => (replaceParameter paramMap encodeSlash fragment).map (hash :: ·)

def buildString : Option Text := do
  let scheme ← schemeString paramMap encodeSlash builder
  let authority ← authorityString paramMap encodeSlash builder
  let path ← pathString paramMap encodeSlash builder
  let query ← queryString paramMap builder
  let fragment ← fragmentString paramMap encodeSlash builder
  return scheme ++ (authority ++ (path ++ (query ++ fragment)))

end

def getPathParamNamesInDeclarationOrder (builder : KeycloakUriBuilder) : List Text :=
  ([builder.scheme, builder.userInfo, builder.host, builder.path, builder.query,
    builder.fragment].flatMap fun string =>
      paramsFrom 0 (Encode.replaceEnclosedCurlyBraces (string.getD []))).eraseDups

def buildFromValues (builder : KeycloakUriBuilder) (encodeSlash : Bool) (values : List Text) :
    Option Text :=
  let params := builder.getPathParamNamesInDeclarationOrder
  if values.length < params.length then none
  else
    (builder.buildString (fun param => (params.zip values).lookup param) encodeSlash).filter
      JavaUri.accepts

def build (builder : KeycloakUriBuilder) (values : List Text) : Option Text :=
  builder.buildFromValues true values

/-! ## Setting components -/

def replacePath (builder : KeycloakUriBuilder) (path : Option Text) : Option KeycloakUriBuilder :=
  match path with
  | none => some { builder with path := none }
  | some path => (Encode.encodePath path).map fun path => { builder with path := some path }

def replaceQuery (builder : KeycloakUriBuilder) (query : Option Text) :
    Option KeycloakUriBuilder :=
  match query with
  | none => some { builder with query := none }
  | some query =>
      if query = [] then some { builder with query := none }
      else (Encode.encodeQueryString query).map fun query => { builder with query := some query }

def setFragment (builder : KeycloakUriBuilder) (fragment : Option Text) :
    Option KeycloakUriBuilder :=
  match fragment with
  | none => some { builder with fragment := none }
  | some fragment =>
      (Encode.encodeFragment fragment).map fun fragment =>
        { builder with fragment := some fragment }

def withSeparator : Option Text → Text
  | none => []
  | some query => query ++ units ['&']

def addQueryParam (name : Text) (query : Option Text) (value : Text) : Option Text :=
  some (withSeparator query ++
    (Encode.encodeQueryParamAsIs name ++ (units ['='] ++ Encode.encodeQueryParamAsIs value)))

def queryParam (builder : KeycloakUriBuilder) (name : Text) (values : List Text) :
    KeycloakUriBuilder :=
  { builder with query := values.foldl (addQueryParam name) builder.query }

def keepParam (replacedName : Text) (query : Option Text) (param : Text) : Option Text :=
  if param.takeWhile (noneOf [61]) = replacedName then query
  else some (withSeparator query ++ param)

/-- None as values is null. -/
def replaceQueryParam (builder : KeycloakUriBuilder) (name : Text) (values : Option (List Text)) :
    Option KeycloakUriBuilder :=
  let query := builder.query.getD []
  if query = [] then
    match values with
    | some values => some (builder.queryParam name values)
    | none => some builder
  else
    (Encode.encodeQueryParam name).map fun replacedName =>
      let kept := { builder with
        query := (Split.split 38 query).foldl (keepParam replacedName) none }
      match values with
      | some values => kept.queryParam name values
      | none => kept

/-! ## Taking components from a URI -/

/-- What a dot of a pattern does not match. -/
def isLineTerminator (c : Nat) : Bool := [10, 13, 133, 8232, 8233].contains c

def matchHostPort (host : Text) : Option (Text × Text) :=
  (strip colon (host.dropWhile (noneOf [slash, colon]))).bind fun digits =>
    if host.takeWhile (noneOf [slash, colon]) ≠ [] ∧ digits ≠ [] ∧
        digits.all GenericUri.isDigit then
      some (host.takeWhile (noneOf [slash, colon]), digits)
    else none

def parseInt (digits : Text) : Option Int :=
  if GenericUri.value digits < 2 ^ 31 then some (GenericUri.value digits) else none

def setAuthority (builder : KeycloakUriBuilder) (authority : Text) : Option KeycloakUriBuilder :=
  let split := strip commercialAt (authority.dropWhile (noneOf [commercialAt]))
  let host := split.getD authority
  let userInfo :=
    if split.isSome then some (authority.takeWhile (noneOf [commercialAt])) else builder.userInfo
  match matchHostPort host with
  | some (host, digits) =>
      (parseInt digits).map fun port =>
        { builder with authority := none, userInfo := userInfo, host := some host, port := port }
  | none => some { builder with authority := none, userInfo := userInfo, host := some host }

/-- The groups 4, 5, 7 and 9 of `hierarchicalUri`, behind the scheme. -/
structure Groups where
  authority : Option Text
  path : Text
  query : Option Text
  fragment : Option Text

/-- None where the pattern does not match. -/
def matchHierarchical (text : Text) : Option Groups :=
  let split := (strip slash text).bind (strip slash)
  let authority := split.map fun rest => rest.takeWhile (noneOf [slash, question, hash])
  let rest := (split.map fun rest => rest.dropWhile (noneOf [slash, question, hash])).getD text
  let path := rest.takeWhile (noneOf [question, hash])
  let tail := rest.dropWhile (noneOf [question, hash])
  let query := (strip question tail).map fun query => query.takeWhile (noneOf [hash])
  let fragment := strip hash (tail.dropWhile (noneOf [hash]))
  if (fragment.getD []).any isLineTerminator then none
  else some ⟨authority, path, query, fragment⟩

def matchScheme (text : Text) : Option (Text × Text) :=
  (strip colon (text.dropWhile (noneOf [colon, slash, question, hash]))).bind fun rest =>
    if text.takeWhile (noneOf [colon, slash, question, hash]) = [] then none
    else some (text.takeWhile (noneOf [colon, slash, question, hash]), rest)

def takePath (builder : KeycloakUriBuilder) (scheme : Option Text) (path : Text) :
    Option KeycloakUriBuilder :=
  if scheme = none ∧ path ≠ [] ∧ path.head? ≠ some slash ∧ colon ∈ path then none
  else if path ≠ [] then builder.replacePath (some path)
  else some builder

/-- A component is set if the pattern found it. -/
def takeFound (builder : KeycloakUriBuilder)
    (set : KeycloakUriBuilder → Text → Option KeycloakUriBuilder) (component : Option Text) :
    Option KeycloakUriBuilder :=
  match component with
  | some text => set builder text
  | none => some builder

def parseHierarchicalUri (builder : KeycloakUriBuilder) (scheme : Option Text) (groups : Groups) :
    Option KeycloakUriBuilder :=
  let builder := if scheme.isSome then { builder with scheme := scheme } else builder
  (builder.takeFound setAuthority groups.authority).bind fun builder =>
    (builder.takePath scheme groups.path).bind fun builder =>
      (builder.takeFound (fun builder query => builder.replaceQuery (some query))
        groups.query).bind fun builder =>
          builder.takeFound (fun builder fragment => builder.setFragment (some fragment))
            groups.fragment

def isOpaque (rest : Text) : Bool :=
  match rest with
  | [] => false
  | c :: rest => c != slash && !rest.any isLineTerminator

def uriTemplate (builder : KeycloakUriBuilder) (text : Text) : Option KeycloakUriBuilder :=
  match matchScheme text with
  | some (scheme, rest) =>
      if isOpaque rest then
        some { builder with
          authority := none, host := none, port := -1, userInfo := none, query := none,
          scheme := some scheme, ssp := some rest }
      else
        (matchHierarchical rest).bind
          ({ builder with ssp := none }.parseHierarchicalUri (some scheme))
  | none => (matchHierarchical text).bind ({ builder with ssp := none }.parseHierarchicalUri none)

def fromUri (text : Text) : Option KeycloakUriBuilder := uriTemplate {} text

/-! ## Strings without braces -/

theorem replaceFrom_unbraced (opened : Int) {string : Text} (hopen : openBrace ∉ string)
    (hclose : closeBrace ∉ string) : Encode.replaceFrom opened string = string := by
  induction string with
  | nil => rfl
  | cons c string ih =>
      rw [List.mem_cons, not_or] at hopen hclose
      rw [Encode.replaceFrom, if_neg (Ne.symm hopen.1), if_neg (Ne.symm hclose.1),
        ih hopen.2 hclose.2]

theorem findParam_of_ne {c : Nat} (h : openBrace ≠ c) (rest : Text) : findParam c rest = none :=
  if_neg (Ne.symm h)

theorem paramsFrom_unbraced {string : Text} (h : openBrace ∉ string) :
    paramsFrom 0 string = [] := by
  induction string with
  | nil => rfl
  | cons c string ih =>
      rw [List.mem_cons, not_or] at h
      rw [paramsFrom, findParam_of_ne h.1, ih h.2]

theorem replaceFrom_of_not_mem (replacement : Text → Option Text) {string : Text}
    (h : openBrace ∉ string) : replaceFrom replacement 0 string = some string := by
  induction string with
  | nil => rfl
  | cons c string ih =>
      rw [List.mem_cons, not_or] at h
      rw [replaceFrom, findParam_of_ne h.1, ih h.2]
      rfl

section

variable (paramMap : Text → Option Text) {string : Text}

theorem replaceParameter_unbraced (encodeSlash : Bool) (hopen : openBrace ∉ string)
    (hclose : closeBrace ∉ string) :
    replaceParameter paramMap encodeSlash string = some string := by
  rw [replaceParameter, Encode.replaceEnclosedCurlyBraces, replaceFrom_unbraced 0 hopen hclose,
    replaceFrom_of_not_mem _ hopen]

theorem replaceQueryStringParameter_unbraced (hopen : openBrace ∉ string)
    (hclose : closeBrace ∉ string) :
    replaceQueryStringParameter paramMap string = some string := by
  rw [replaceQueryStringParameter, Encode.replaceEnclosedCurlyBraces,
    replaceFrom_unbraced 0 hopen hclose, replaceFrom_of_not_mem _ hopen]

end

end KeycloakUriBuilder

end Keycloak.Common
