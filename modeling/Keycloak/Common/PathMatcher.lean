import Keycloak.Lib.Split
import Keycloak.Lib.Utf16

/-!
# Matching of paths

`PathMatcher`: which of the configured paths a request belongs to.  A path may hold parameters
in braces, and end in a wildcard or a wildcard with a suffix.

`buildUriFromTemplate` copies segments of the request into the template.  Its loop sets its own
index, so it is given fuel; an index out of bounds is an error.
-/

namespace Keycloak.PathMatcher

/-- A string: its 16-bit units. -/
abbrev Text := List UInt16

def text (s : String) : Text := (Utf16.encode s.toList).map UInt16.ofNat

def slash : UInt16 := 47
def openBrace : UInt16 := 123
def closeBrace : UInt16 := 125
def wildcard : UInt16 := 42
def dot : UInt16 := 46
def nul : UInt16 := 0

def indexOf (c : UInt16) (text : Text) (start : Nat) : Option Nat :=
  ((text.drop start).findIdx? (· = c)).map (start + ·)

def lastIndexOf (c : UInt16) : Text → Option Nat
  | [] => none
  | d :: rest =>
      match lastIndexOf c rest with
      | some i => some (i + 1)
      | none => if d = c then some 0 else none

def indexOfText (part : Text) : Text → Option Nat
  | [] => if part = [] then some 0 else none
  | c :: rest =>
      if part.isPrefixOf (c :: rest) then some 0 else (indexOfText part rest).map (· + 1)

def split (text : Text) : List Text := Split.split slash text

inductive Failure where
  | indexOutOfBounds
  | nullPointer
  | notEnded
  deriving DecidableEq

/-! ## Templates -/

/-- An array of characters that is written from its start. -/
structure Buffer where
  size : Nat
  written : Text
  fits : written.length ≤ size

namespace Buffer

def put (buffer : Buffer) (text : Text) : Option Buffer :=
  if h : buffer.written.length + text.length ≤ buffer.size then
    some ⟨buffer.size, buffer.written ++ text, List.length_append ▸ h⟩
  else none

def chars (buffer : Buffer) : Text :=
  buffer.written ++ List.replicate (buffer.size - buffer.written.length) nul

end Buffer

/-- The loop over `k`: the segments of the target that a parameter or a wildcard copies.  There
is no result when one does not fit. -/
def copyParams (params : List Text) (isWildcard : Bool) :
    List Nat → Buffer → Except Failure (Option Buffer)
  | [], matchingUri => .ok (some matchingUri)
  | k :: ks, matchingUri =>
      if k = params.length then .ok (some matchingUri)
      else match params[k]? with
        | none => .error .indexOutOfBounds
        | some param =>
            match matchingUri.put param with
            | none => .ok none
            | some matchingUri =>
                copyParams params isWildcard ks
                  (if isWildcard then (matchingUri.put [slash]).getD matchingUri else matchingUri)

def indices (params : List Text) (isWildcard : Bool) (paramIndex : Nat) : List Nat :=
  if isWildcard then List.range' paramIndex (params.length + 1 - paramIndex) else [paramIndex]

structure Expansion where
  template : Text
  expectedUri : Text
  targetUri : Text
  params : List Text
  onlyFirstParam : Bool

namespace Expansion

variable (e : Expansion)

/-- What follows the loop. -/
def finish (matchingUri : Buffer) : Option Text :=
  if matchingUri.chars.getLast? = some nul then
    if e.template.getLast? = some wildcard then
      some (matchingUri.written ++ e.targetUri.drop matchingUri.written.length)
    else none
  else some matchingUri.chars

def following : Option Nat → Nat
  | some i => i + 1
  | none => 0

/-- The loop over the template.  Behind a parameter it goes on after its closing brace. -/
def loop : Nat → Nat → Nat → Buffer → Except Failure (Option Text)
  | 0, _, _, _ => .error .notEnded
  | fuel + 1, i, paramIndex, matchingUri =>
      if matchingUri.size ≤ matchingUri.written.length then .ok (e.finish matchingUri)
      else match e.expectedUri[i]? with
        | none => .ok (e.finish matchingUri)
        | some c =>
            if c = openBrace ∨ c = wildcard then
              match copyParams e.params (c = wildcard)
                  (indices e.params (c = wildcard) paramIndex) matchingUri with
              | .error failure => .error failure
              | .ok none => .ok none
              | .ok (some matchingUri) =>
                  let i := indexOf closeBrace e.expectedUri i
                  if i = lastIndexOf closeBrace e.expectedUri ∧ e.onlyFirstParam then
                    .ok (some matchingUri.written)
                  else
                    loop fuel (following i) paramIndex matchingUri
            else
              match matchingUri.put [c] with
              | none => .error .indexOutOfBounds
              | some matchingUri =>
                  loop fuel (i + 1) (if c = slash then paramIndex + 1 else paramIndex) matchingUri

end Expansion

def withoutWildcard (template : Text) : Text :=
  if (text "/*").isSuffixOf template then template.take (template.length - 2) else template

def buildUriFromTemplate (fuel : Nat) (template targetUri : Text) (onlyFirstParam : Bool) :
    Except Failure (Option Text) :=
  let expectedUri := withoutWildcard template
  match indexOf openBrace template 0 with
  | none => .ok none
  | some patternStartIndex =>
      if h : targetUri.length ≤ patternStartIndex then .ok none
      else if (split targetUri).length < (split expectedUri).length then .ok none
      else if expectedUri.take patternStartIndex = targetUri.take patternStartIndex then
        Expansion.loop
          ⟨template, expectedUri, targetUri, split (targetUri.drop patternStartIndex),
            onlyFirstParam⟩
          fuel patternStartIndex 0
          ⟨targetUri.length, expectedUri.take patternStartIndex,
            (List.length_take_le _ _).trans (Nat.le_of_not_le h)⟩
      else .ok none

/-! ## Matching -/

def endsWithWildcard (expectedUri : Text) : Bool := expectedUri.getLast? = some wildcard

def isTemplate (uri : Text) : Bool := openBrace ∈ uri

def exactMatch (expectedUri targetUri value : Text) : Except Failure Bool :=
  if targetUri = value then .ok true
  else if endsWithWildcard expectedUri then
    if expectedUri.length < 2 then .error .indexOutOfBounds
    else .ok ((expectedUri.take (expectedUri.length - 2)).isPrefixOf targetUri)
  else match indexOfText (text "/*.") expectedUri with
    | some suffixIndex => .ok ((expectedUri.drop (suffixIndex + 2)).isSuffixOf targetUri)
    | none => .ok false

/-- The path in front of the first wildcard and of the first parameter. -/
def pathString (expectedUri : Text) : Text :=
  let path := match indexOfText (text "/*") expectedUri with
    | some patternIndex => expectedUri.take patternIndex
    | none => expectedUri
  let path := match indexOf openBrace path 0 with
    | some patternIndex => path.take patternIndex
    | none => path
  if path = [] then [slash] else path

structure Paths (P : Type) where
  getPath : P → Option Text
  resolvePathConfig : P → Text → Option P

structure Found (P : Type) where
  patternCount : Nat
  matchingPath : Option P
  matchingAnyPath : Option P
  matchingAnySuffixPath : Option P

variable {P : Type} (paths : Paths P) (targetUri : Text)

/-- The part of the loop for templates: the URI that matches, the entry and the pattern count. -/
def matchTemplate (fuel : Nat) (expectedUri : Text) (entry : P) (patternCount : Nat)
    (matchingUri : Option Text) : Except Failure (Option Text × P × Nat) :=
  if isTemplate expectedUri then
    match buildUriFromTemplate fuel expectedUri targetUri false with
    | .error failure => .error failure
    | .ok none => .ok (matchingUri, entry, patternCount)
    | .ok (some templateUri) =>
        let length := (split expectedUri).length
        match exactMatch expectedUri targetUri templateUri with
        | .error failure => .error failure
        | .ok matched =>
            if matched ∧ (patternCount = 0 ∨ patternCount < length) then
              .ok (some templateUri, (paths.resolvePathConfig entry targetUri).getD entry, length)
            else .ok (matchingUri, entry, patternCount)
  else .ok (matchingUri, entry, patternCount)

/-- The registers after a path that matches and is not returned at once. -/
def register (expectedUri : Text) (entry : P) (matchingUri : Text) (found : Found P) :
    Except Failure (Found P) :=
  if expectedUri = [] then .error .indexOutOfBounds
  else if endsWithWildcard expectedUri then
    match found.matchingAnyPath with
    | none => .ok { found with matchingAnyPath := some entry }
    | some path =>
        match paths.getPath path with
        | none => .error .nullPointer
        | some path =>
            if path.length < matchingUri.length then
              .ok { found with matchingAnyPath := some entry }
            else .ok found
  else match indexOfText (text "*.") expectedUri with
    | none => .ok found
    | some suffixIndex =>
        if (expectedUri.drop (suffixIndex + 1)).isSuffixOf targetUri then
          .ok { found with matchingAnySuffixPath := some entry }
        else .ok found

def matchesLoop (fuel : Nat) : List P → Found P → Except Failure (Option P)
  | [], found =>
      .ok (found.matchingPath.or (found.matchingAnySuffixPath.or found.matchingAnyPath))
  | entry :: rest, found =>
      match paths.getPath entry with
      | none => matchesLoop fuel rest found
      | some expectedUri =>
          match exactMatch expectedUri targetUri expectedUri with
          | .error failure => .error failure
          | .ok exact =>
              match matchTemplate paths targetUri fuel expectedUri entry found.patternCount
                  (if exact then some expectedUri else none) with
              | .error failure => .error failure
              | .ok (none, _, patternCount) =>
                  matchesLoop fuel rest { found with patternCount := patternCount }
              | .ok (some matchingUri, entry, patternCount) =>
                  let found := { found with patternCount := patternCount }
                  let hit : Bool :=
                    matchingUri = targetUri ∨ pathString expectedUri = targetUri
                  if hit ∧ patternCount = 0 then .ok (some entry)
                  else
                    let found := if hit then { found with matchingPath := some entry } else found
                    match register paths targetUri expectedUri entry matchingUri found with
                    | .error failure => .error failure
                    | .ok found => matchesLoop fuel rest found

/-- The path of a target, with enough fuel for its templates. -/
def matchesPath (fuel : Nat) (entries : List P) : Except Failure (Option P) :=
  matchesLoop paths targetUri fuel entries ⟨0, none, none, none⟩

end Keycloak.PathMatcher
