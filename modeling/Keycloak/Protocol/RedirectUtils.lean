import Keycloak.Lib.Uri
import Keycloak.Lib.Utf16
import Mathlib.Data.Bool.AllAny

/-!
# The check of redirect URIs

`RedirectUtils.verifyRedirectUri`.  The lower casing of strings, the base URI of the request and
the address of the page for installed applications are parameters.

A redirect to `http://localhost` with a port is tried a second time without the port: what
stands between the first colon and the next slash is cut out.
-/

namespace Keycloak.RedirectUtils

open Uri (Text)

def installedAppUrn : Text := "urn:ietf:wg:oauth:2.0:oob".toList

def installedAppUrl : Text := "http://localhost".toList

structure Context where
  toLowerCase : Text → Text
  rootUrl : Option Text
  origin : Text
  realmInstalledAppUrnCallback : Text

variable (context : Context)

def relativeToAbsoluteURI (relative : Text) : Text :=
  match context.rootUrl with
  | none => context.origin ++ relative
  | some rootUrl => (if rootUrl = [] then context.origin else rootUrl) ++ relative

/-- Relative URIs are kept, and also resolved. -/
def resolveValidRedirects (validRedirects : List Text) : List Text :=
  validRedirects.flatMap fun validRedirect =>
    if "/".toList.isPrefixOf validRedirect then
      [validRedirect, relativeToAbsoluteURI context validRedirect]
    else [validRedirect]

/-- The text up to the given number of 16-bit units, and the rest. -/
def splitUnits : Text → Nat → Text × Text
  | [], _ => ([], [])
  | c :: rest, count =>
      if count = 0 then ([], c :: rest)
      else
        let (front, back) := splitUnits rest (count - (Utf16.units c).length)
        (c :: front, back)

/-- `redirectUri.indexOf('/', 7)` ends what is lower-cased. -/
def lowerCaseHostname (redirectUri : Text) : Text :=
  let (front, back) := splitUnits redirectUri 7
  if '/' ∈ back then
    context.toLowerCase (front ++ back.takeWhile (· ≠ '/')) ++ back.dropWhile (· ≠ '/')
  else context.toLowerCase redirectUri

/-- The query is not compared with a pattern, and a pattern also stands for its directory. -/
def matchesRedirect (redirect validRedirect : Text) : Bool :=
  if validRedirect.getLast? = some '*' ∧ '?' ∉ validRedirect then
    let r := redirect.takeWhile (· ≠ '?')
    let stripped := validRedirect.dropLast
    if stripped.isPrefixOf r then true
    else if stripped.length > 1 ∧ stripped.getLast? = some '/' then stripped.dropLast = r
    else stripped = r
  else validRedirect = redirect

def matchesRedirects (validRedirects : List Text) (redirect : Text) : Bool :=
  validRedirects.any (matchesRedirect redirect)

/-- For a local redirect with a colon: the URI without what stands between the colon and the
next slash. -/
def withoutPort (r : Text) : Option Text :=
  let rest := r.drop installedAppUrl.length
  if installedAppUrl.isPrefixOf r ∧ ':' ∈ rest then
    some (installedAppUrl ++ rest.takeWhile (· ≠ ':') ++
      (rest.dropWhile (· ≠ ':')).dropWhile (· ≠ '/'))
  else none

def isValid (validRedirects : List Text) (r : Text) : Bool :=
  if matchesRedirects validRedirects r then true
  else match withoutPort r with
    | some r => matchesRedirects validRedirects r
    | none => false

def upToWildcard : Text → Text
  | [] => []
  | '/' :: '*' :: _ => []
  | c :: rest => c :: upToWildcard rest

def getSingleValidRedirectUri : List Text → Option Text
  | [validRedirect] => some (upToWildcard validRedirect)
  | _ => none

def answer : Option Text → Option Text
  | none => none
  | some redirectUri =>
      if redirectUri = installedAppUrn then some context.realmInstalledAppUrnCallback
      else some redirectUri

def verifyRedirectUri (redirectUri : Option Text) (validRedirects : List Text)
    (requireRedirectUri : Bool) : Option Text :=
  match redirectUri with
  | none =>
      answer context
        (if requireRedirectUri then none else getSingleValidRedirectUri validRedirects)
  | some redirectUri =>
      if validRedirects = [] then answer context none
      else
        let redirectUri := lowerCaseHostname context redirectUri
        if isValid (resolveValidRedirects context validRedirects) redirectUri then
          answer context (some
            (if "/".toList.isPrefixOf redirectUri then relativeToAbsoluteURI context redirectUri
            else redirectUri))
        else answer context none

variable {context}

/-- What is returned for a redirect that is given, unless it is relative. -/
theorem verifyRedirectUri_some {redirect : Text} {validRedirects : List Text}
    (requireRedirectUri : Bool)
    (hslash : isValid (resolveValidRedirects context validRedirects)
      (lowerCaseHostname context redirect) = true →
        ¬ "/".toList.isPrefixOf (lowerCaseHostname context redirect) = true) :
    verifyRedirectUri context (some redirect) validRedirects requireRedirectUri =
      answer context (if isValid (resolveValidRedirects context validRedirects)
        (lowerCaseHostname context redirect) then some (lowerCaseHostname context redirect)
        else none) := by
  rw [verifyRedirectUri]
  dsimp only
  generalize lowerCaseHostname context redirect = lowered at hslash ⊢
  split
  · rename_i hempty
    subst hempty
    have hinvalid : isValid (resolveValidRedirects context []) lowered = false := by
      rw [isValid]
      split
      · rename_i h
        cases h
      · split
        · rfl
        · rfl
    rw [hinvalid]
    rfl
  · split
    · rename_i hvalid
      rw [if_neg (hslash hvalid)]
    · rfl

end Keycloak.RedirectUtils
