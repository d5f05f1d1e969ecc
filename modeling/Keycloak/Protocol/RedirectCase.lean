import Keycloak.Protocol.RedirectUtils

/-!
# The letter case of redirects

`lowerCaseHostname` takes the first slash from the eighth character on for the end of the host.
In an `https` URI this is the second slash in front of the host, which is then not changed.  In
an `http` URI without a path it is a slash of the query, or the end.
-/

namespace Keycloak.RedirectUtils

open Uri (Text endsAuthority inScheme)

def lower (text : Text) : Text := text.map Char.toLower

/-- An absolute `http` or `https` URI; the user information ends with its at sign and the port
starts with its colon. -/
structure HttpUri where
  scheme : Text
  userinfo : Text
  host : Text
  port : Text
  rest : Text
  scheme_eq : lower scheme = "http".toList ∨ lower scheme = "https".toList
  inAuthority : ∀ c ∈ userinfo ++ host ++ port, endsAuthority c = false
  afterAuthority : Uri.AfterAuthority rest
  ascii : ∀ c ∈ scheme ++ userinfo ++ host ++ port ++ rest, c.toNat < 128

namespace HttpUri

def toText (u : HttpUri) : Text :=
  u.scheme ++ "://".toList ++ (u.userinfo ++ u.host ++ u.port ++ u.rest)

/-- The URIs differ in the letter case of scheme and host only. -/
structure SameButCase (u u' : HttpUri) : Prop where
  scheme : lower u.scheme = lower u'.scheme
  userinfo : u.userinfo = u'.userinfo
  host : lower u.host = lower u'.host
  port : u.port = u'.port
  rest : u.rest = u'.rest

end HttpUri

def KeepsPathAndQuery (context : Context) (registered : List Text) (requireRedirectUri : Bool)
    (u : HttpUri) : Prop :=
  ∀ uri, verifyRedirectUri context (some u.toText) registered requireRedirectUri = some uri →
    Uri.pathAndQuery uri = Uri.pathAndQuery u.toText

/-- Both URIs are rejected, or accepted as the same string, and path and query are kept. -/
structure CaseDoesNotMatter (context : Context) (registered : List Text)
    (requireRedirectUri : Bool) (u u' : HttpUri) : Prop where
  same : verifyRedirectUri context (some u.toText) registered requireRedirectUri =
    verifyRedirectUri context (some u'.toText) registered requireRedirectUri
  kept : KeepsPathAndQuery context registered requireRedirectUri u
  kept' : KeepsPathAndQuery context registered requireRedirectUri u'

/-- What is lower-cased of path and query. -/
def HttpUri.lowered (u : HttpUri) : Text :=
  (u.rest.takeWhile (· ≠ '/')).takeWhile (· ≠ '#')

/-- In `https` URIs the hosts are the same, or nothing matches; of an accepted `http` URI nothing
in front of the first slash of path and query has capitals. -/
structure Unaffected (context : Context) (registered : List Text) (u u' : HttpUri) : Prop where
  https : lower u.scheme = "https".toList → u.host = u'.host ∨
    matchesRedirects (resolveValidRedirects context registered)
        (lowerCaseHostname context u.toText) = false ∧
      matchesRedirects (resolveValidRedirects context registered)
        (lowerCaseHostname context u'.toText) = false
  http : lower u.scheme = "http".toList →
    isValid (resolveValidRedirects context registered) (lowerCaseHostname context u.toText) =
      true → lower u.lowered = u.lowered

/-! ## Lower casing -/

theorem lower_append (a b : Text) : lower (a ++ b) = lower a ++ lower b := List.map_append

theorem length_lower (a : Text) : (lower a).length = a.length := List.length_map _

theorem takeWhile_lower {p : Char → Bool} (hp : ∀ c, p c.toLower = p c) (text : Text) :
    (lower text).takeWhile p = lower (text.takeWhile p) := by
  have hcomp : p ∘ Char.toLower = p := funext hp
  rw [lower, List.takeWhile_map, hcomp, lower]

theorem endsAuthority_toLower (c : Char) : endsAuthority c.toLower = endsAuthority c := by
  simp only [endsAuthority, Uri.toLower_eq_iff (c := c) (d := '/') (by decide) (by decide),
    Uri.toLower_eq_iff (c := c) (d := '?') (by decide) (by decide),
    Uri.toLower_eq_iff (c := c) (d := '#') (by decide) (by decide)]

theorem inScheme_toLower (c : Char) : inScheme c.toLower = inScheme c := by
  simp only [inScheme, endsAuthority_toLower, ne_eq,
    Uri.toLower_eq_iff (c := c) (d := ':') (by decide) (by decide)]

theorem splitUnits_append {front : Text} (h : ∀ c ∈ front, c.toNat < 128) (back : Text) :
    splitUnits (front ++ back) front.length = (front, back) := by
  induction front with
  | nil =>
      cases back with
      | nil => rfl
      | cons c back => rfl
  | cons c front ih =>
      obtain ⟨hc, hfront⟩ := List.forall_mem_cons.mp h
      have hunits : (Utf16.units c).length = 1 := by
        rw [Utf16.units, if_pos (by omega)]
        rfl
      rw [List.cons_append, splitUnits, if_neg (by simp), hunits, List.length_cons,
        Nat.add_sub_cancel, ih hfront]

namespace HttpUri

variable {context : Context} {u u' : HttpUri}

def authority (u : HttpUri) : Text := u.userinfo ++ u.host ++ u.port

theorem inScheme (u : HttpUri) : ∀ c ∈ u.scheme, inScheme c = true := by
  intro c hc
  rw [← inScheme_toLower]
  have hmem : c.toLower ∈ lower u.scheme := List.mem_map_of_mem hc
  rcases u.scheme_eq with heq | heq
  · rw [heq] at hmem
    have hall : ∀ d ∈ "http".toList, Uri.inScheme d = true :=
      List.all_iff_forall_prop.mp (by decide)
    exact hall _ hmem
  · rw [heq] at hmem
    have hall : ∀ d ∈ "https".toList, Uri.inScheme d = true :=
      List.all_iff_forall_prop.mp (by decide)
    exact hall _ hmem

theorem pathAndQuery_toText (u : HttpUri) :
    Uri.pathAndQuery u.toText = some (u.rest.takeWhile (· ≠ '#')) :=
  Uri.pathAndQuery_eq u.inScheme u.inAuthority u.afterAuthority

theorem ascii_of_mem {c : Char} (u : HttpUri)
    (h : c ∈ u.scheme ∨ c ∈ u.authority ∨ c ∈ u.rest) : c.toNat < 128 := by
  refine u.ascii c ?_
  simp only [authority, List.mem_append] at h ⊢
  grind

/-- In an `https` URI only the scheme is lower-cased. -/
theorem lowerCaseHostname_https
    (hlower : ∀ text, (∀ c ∈ text, c.toNat < 128) → context.toLowerCase text = lower text)
    (h : lower u.scheme = "https".toList) : lowerCaseHostname context u.toText =
      "https".toList ++ "://".toList ++ (u.authority ++ u.rest) := by
  have hlength : (u.scheme ++ ":/".toList).length = 7 := by
    rw [List.length_append, ← length_lower, h]
    rfl
  have hascii : ∀ c ∈ u.scheme ++ ":/".toList, c.toNat < 128 := by
    intro c hc
    rcases List.mem_append.mp hc with hc | hc
    · exact u.ascii_of_mem (.inl hc)
    · have hall : ∀ d ∈ ":/".toList, d.toNat < 128 := List.all_iff_forall_prop.mp (by decide)
      exact hall c hc
  have hsplit : u.toText = u.scheme ++ ":/".toList ++ '/' :: (u.authority ++ u.rest) := by
    simp [toText, authority]
  have hunits := splitUnits_append hascii ('/' :: (u.authority ++ u.rest))
  rw [hlength] at hunits
  rw [lowerCaseHostname, hsplit, hunits]
  dsimp only
  rw [if_pos List.mem_cons_self, List.takeWhile_cons_of_neg (by simp),
    List.dropWhile_cons_of_neg (by simp), List.append_nil, hlower _ hascii, lower_append, h]
  rfl

/-- In an `http` URI everything in front of the first slash of the path or the query is. -/
theorem lowerCaseHostname_http
    (hlower : ∀ text, (∀ c ∈ text, c.toNat < 128) → context.toLowerCase text = lower text)
    (h : lower u.scheme = "http".toList) : lowerCaseHostname context u.toText =
      "http".toList ++ "://".toList ++ (lower u.authority ++
        (lower (u.rest.takeWhile (· ≠ '/')) ++ u.rest.dropWhile (· ≠ '/'))) := by
  have hlength : (u.scheme ++ "://".toList).length = 7 := by
    rw [List.length_append, ← length_lower, h]
    rfl
  have hfront : ∀ c ∈ u.scheme ++ "://".toList, c.toNat < 128 := by
    intro c hc
    rcases List.mem_append.mp hc with hc | hc
    · exact u.ascii_of_mem (.inl hc)
    · have hall : ∀ d ∈ "://".toList, d.toNat < 128 := List.all_iff_forall_prop.mp (by decide)
      exact hall c hc
  have hslash : ∀ c ∈ u.authority, decide (c ≠ '/') = true := by
    intro c hc
    refine decide_eq_true fun heq => ?_
    have hnot := u.inAuthority c hc
    rw [heq] at hnot
    cases hnot
  have hsplit : u.toText = u.scheme ++ "://".toList ++ (u.authority ++ u.rest) := by
    simp [toText, authority]
  have hunits := splitUnits_append hfront (u.authority ++ u.rest)
  rw [hlength] at hunits
  have hstart : context.toLowerCase (u.scheme ++ "://".toList ++
      (u.authority ++ u.rest.takeWhile (· ≠ '/'))) = "http".toList ++ "://".toList ++
        (lower u.authority ++ lower (u.rest.takeWhile (· ≠ '/'))) := by
    rw [hlower, lower_append, lower_append, lower_append, h]
    · rfl
    · intro c hc
      rcases List.mem_append.mp hc with hc | hc
      · exact hfront c hc
      · rcases List.mem_append.mp hc with hc | hc
        · exact u.ascii_of_mem (.inr (.inl hc))
        · exact u.ascii_of_mem (.inr (.inr (List.takeWhile_subset _ hc)))
  rw [lowerCaseHostname, hsplit, hunits]
  dsimp only
  split
  · rw [List.takeWhile_append_of_pos hslash, List.dropWhile_append_of_pos hslash, hstart]
    simp only [List.append_assoc]
  · rename_i hno
    have hall : ∀ c ∈ u.rest, decide (c ≠ '/') = true := fun c hc =>
      decide_eq_true fun heq => hno (List.mem_append_right _ (heq ▸ hc))
    rw [List.takeWhile_eq_self_iff.mpr hall] at hstart ⊢
    rw [hstart, List.dropWhile_eq_nil_iff.mpr hall, List.append_nil]

end HttpUri

section

variable {context : Context} {registered : List Text} {requireRedirectUri : Bool}
  {u u' : HttpUri}

/-- What is returned for a URI that is absolute after the lower casing. -/
theorem verifyRedirectUri_absolute {redirect back : Text}
    (h : lowerCaseHostname context redirect = "http".toList ++ back) :
    verifyRedirectUri context (some redirect) registered requireRedirectUri =
      if isValid (resolveValidRedirects context registered) (lowerCaseHostname context redirect)
      then some (lowerCaseHostname context redirect) else none := by
  rw [verifyRedirectUri_some]
  · have hurn : lowerCaseHostname context redirect ≠ installedAppUrn := by
      rw [h]
      intro heq
      cases heq
    split
    · rw [answer, if_neg hurn]
    · rfl
  · intro _ hstart
    obtain ⟨t, ht⟩ := List.isPrefixOf_iff_prefix.mp hstart
    rw [h] at ht
    cases ht

theorem isValid_https {redirect back : Text} (h : redirect = "https".toList ++ back) :
    isValid registered redirect = matchesRedirects registered redirect := by
  have hlocal : withoutPort redirect = none := by
    rw [withoutPort, if_neg]
    rintro ⟨hstart, -⟩
    obtain ⟨t, ht⟩ := List.isPrefixOf_iff_prefix.mp hstart
    rw [h] at ht
    cases ht
  rw [isValid, hlocal]
  cases matchesRedirects registered redirect <;> rfl

theorem takeWhile_lower_append (front back : Text) :
    (lower front ++ back).takeWhile (· ≠ '#') = (front ++ back).takeWhile (· ≠ '#') ↔
      lower (front.takeWhile (· ≠ '#')) = front.takeWhile (· ≠ '#') := by
  have hmark : ∀ c : Char, decide (c.toLower ≠ '#') = decide (c ≠ '#') := fun c =>
    decide_eq_decide.mpr (not_congr (Uri.toLower_eq_iff (by decide) (by decide)))
  have hlower : (lower front).takeWhile (· ≠ '#') = lower (front.takeWhile (· ≠ '#')) :=
    takeWhile_lower hmark front
  by_cases hall : ∀ c ∈ front, decide (c ≠ '#') = true
  · have hall' : ∀ c ∈ lower front, decide (c ≠ '#') = true := by
      intro c hc
      obtain ⟨d, hd, rfl⟩ := List.mem_map.mp hc
      rw [hmark]
      exact hall d hd
    rw [List.takeWhile_append_of_pos hall, List.takeWhile_append_of_pos hall',
      List.takeWhile_eq_self_iff.mpr hall, List.append_left_inj]
  · have hshort : ¬ (front.takeWhile (· ≠ '#')).length = front.length := by
      intro hlength
      exact hall (List.takeWhile_eq_self_iff.mp
        ((List.takeWhile_prefix _).eq_of_length hlength))
    have hshort' : ¬ ((lower front).takeWhile (· ≠ '#')).length = (lower front).length := by
      rw [hlower, length_lower, length_lower]
      exact hshort
    rw [List.takeWhile_append, if_neg hshort', List.takeWhile_append, if_neg hshort, hlower]

theorem HttpUri.SameButCase.authority_eq (hsame : HttpUri.SameButCase u u') :
    lower u.authority = lower u'.authority := by
  rw [HttpUri.authority, HttpUri.authority, lower_append, lower_append, lower_append,
    lower_append, hsame.userinfo, hsame.host, hsame.port]

theorem caseDoesNotMatter_https
    (hlower : ∀ text, (∀ c ∈ text, c.toNat < 128) → context.toLowerCase text = lower text)
    (hsame : HttpUri.SameButCase u u') (h : lower u.scheme = "https".toList) :
    CaseDoesNotMatter context registered requireRedirectUri u u' ↔
      Unaffected context registered u u' := by
  have h' : lower u'.scheme = "https".toList := hsame.scheme ▸ h
  have hu := HttpUri.lowerCaseHostname_https hlower h
  have hu' := HttpUri.lowerCaseHostname_https hlower h'
  have hverify : verifyRedirectUri context (some u.toText) registered requireRedirectUri = _ :=
    verifyRedirectUri_absolute (hu.trans rfl)
  have hverify' : verifyRedirectUri context (some u'.toText) registered requireRedirectUri = _ :=
    verifyRedirectUri_absolute (hu'.trans rfl)
  rw [isValid_https (hu.trans rfl)] at hverify
  rw [isValid_https (hu'.trans rfl)] at hverify'
  have hhost : lowerCaseHostname context u.toText = lowerCaseHostname context u'.toText ↔
      u.host = u'.host := by
    rw [hu, hu', HttpUri.authority, HttpUri.authority, hsame.userinfo, hsame.port, hsame.rest]
    simp
  have hkept (v : HttpUri) (hv : lower v.scheme = "https".toList)
      (hresult : verifyRedirectUri context (some v.toText) registered requireRedirectUri =
        if matchesRedirects (resolveValidRedirects context registered)
          (lowerCaseHostname context v.toText) then some (lowerCaseHostname context v.toText)
        else none) : KeepsPathAndQuery context registered requireRedirectUri v := by
    intro uri huri
    rw [hresult] at huri
    split at huri
    · rw [← Option.some.inj huri, HttpUri.lowerCaseHostname_https hlower hv,
        v.pathAndQuery_toText]
      exact Uri.pathAndQuery_eq (List.all_iff_forall_prop.mp (by decide)) v.inAuthority
        v.afterAuthority
    · cases huri
  have hhttp : lower u.scheme ≠ "http".toList := by
    rw [h]
    decide
  constructor
  · intro hcase
    refine ⟨fun _ => ?_, fun hscheme => absurd hscheme hhttp⟩
    by_cases hequal : u.host = u'.host
    · exact .inl hequal
    · have hne := mt hhost.mp hequal
      have heq := hcase.same
      rw [hverify, hverify'] at heq
      refine .inr ?_
      split at heq
      · split at heq
        · exact absurd (Option.some.inj heq) hne
        · cases heq
      · split at heq
        · cases heq
        · rename_i hno hno'
          exact ⟨Bool.eq_false_iff.mpr hno, Bool.eq_false_iff.mpr hno'⟩
  · intro hcase
    refine ⟨?_, hkept u h hverify, hkept u' h' hverify'⟩
    rw [hverify, hverify']
    rcases hcase.https h with hequal | ⟨hno, hno'⟩
    · rw [hhost.mpr hequal]
    · rw [hno, hno']
      rfl

theorem pathAndQuery_http (h : lower u.scheme = "http".toList)
    (hlower : ∀ text, (∀ c ∈ text, c.toNat < 128) → context.toLowerCase text = lower text) :
    Uri.pathAndQuery (lowerCaseHostname context u.toText) = Uri.pathAndQuery u.toText ↔
      lower u.lowered = u.lowered := by
  have hauthority : ∀ c ∈ lower u.authority, endsAuthority c = false := by
    intro c hc
    obtain ⟨d, hd, rfl⟩ := List.mem_map.mp hc
    rw [endsAuthority_toLower]
    exact u.inAuthority d hd
  have hsplit : u.rest.takeWhile (· ≠ '/') ++ u.rest.dropWhile (· ≠ '/') = u.rest :=
    List.takeWhile_append_dropWhile
  have hafter : Uri.AfterAuthority
      (lower (u.rest.takeWhile (· ≠ '/')) ++ u.rest.dropWhile (· ≠ '/')) := by
    have hrest := u.afterAuthority
    rw [← hsplit] at hrest
    cases hfront : u.rest.takeWhile (· ≠ '/') with
    | nil =>
        rw [hfront] at hrest
        exact hrest
    | cons c front =>
        rw [hfront] at hrest
        intro d hd
        cases hd
        rw [endsAuthority_toLower]
        exact hrest c rfl
  rw [HttpUri.lowerCaseHostname_http hlower h,
    Uri.pathAndQuery_eq (List.all_iff_forall_prop.mp (by decide)) hauthority hafter,
    u.pathAndQuery_toText, Option.some.injEq, HttpUri.lowered,
    ← takeWhile_lower_append _ (u.rest.dropWhile (· ≠ '/')), hsplit]

theorem caseDoesNotMatter_http
    (hlower : ∀ text, (∀ c ∈ text, c.toNat < 128) → context.toLowerCase text = lower text)
    (hsame : HttpUri.SameButCase u u') (h : lower u.scheme = "http".toList) :
    CaseDoesNotMatter context registered requireRedirectUri u u' ↔
      Unaffected context registered u u' := by
  have h' : lower u'.scheme = "http".toList := hsame.scheme ▸ h
  have hu := HttpUri.lowerCaseHostname_http hlower h
  have hu' := HttpUri.lowerCaseHostname_http hlower h'
  have hequal : lowerCaseHostname context u.toText = lowerCaseHostname context u'.toText := by
    rw [hu, hu', hsame.authority_eq, hsame.rest]
  have hlowered : u.lowered = u'.lowered := by
    rw [HttpUri.lowered, HttpUri.lowered, hsame.rest]
  have hverify : verifyRedirectUri context (some u.toText) registered requireRedirectUri = _ :=
    verifyRedirectUri_absolute (hu.trans (List.append_assoc _ _ _))
  have hverify' : verifyRedirectUri context (some u'.toText) registered requireRedirectUri = _ :=
    verifyRedirectUri_absolute (hu'.trans (List.append_assoc _ _ _))
  have hpath := pathAndQuery_http h hlower
  have hpath' := pathAndQuery_http h' hlower
  have hhttps : lower u.scheme ≠ "https".toList := by
    rw [h]
    decide
  constructor
  · intro hcase
    refine ⟨fun hscheme => absurd hscheme hhttps, fun _ hvalid => hpath.mp (hcase.kept _ ?_)⟩
    rw [hverify, if_pos hvalid]
  · intro hcase
    refine ⟨?_, fun uri huri => ?_, fun uri huri => ?_⟩
    · rw [hverify, hverify', hequal]
    · rw [hverify] at huri
      split at huri
      · rename_i hvalid
        rw [← Option.some.inj huri]
        exact hpath.mpr (hcase.http h hvalid)
      · cases huri
    · rw [hverify', ← hequal] at huri
      split at huri
      · rename_i hvalid
        rw [← Option.some.inj huri, hequal]
        refine hpath'.mpr ?_
        rw [← hlowered]
        exact hcase.http h hvalid
      · cases huri

end

/-- The letter case of the host does not matter exactly when the hosts of `https` URIs are equal
or not accepted, and when nothing of the path or the query of an accepted `http` URI is lost in
front of its first slash. -/
theorem caseDoesNotMatter_iff (context : Context) (registered : List Text)
    (requireRedirectUri : Bool) (u u' : HttpUri)
    (hlower : ∀ text, (∀ c ∈ text, c.toNat < 128) → context.toLowerCase text = lower text)
    (hsame : HttpUri.SameButCase u u') :
    CaseDoesNotMatter context registered requireRedirectUri u u' ↔
      Unaffected context registered u u' := by
  rcases u.scheme_eq with h | h
  · exact caseDoesNotMatter_http hlower hsame h
  · exact caseDoesNotMatter_https hlower hsame h

def sampleUri (scheme host : Text)
    (hscheme : lower scheme = "http".toList ∨ lower scheme = "https".toList)
    (hhost : ([] ++ host ++ []).all (fun c => endsAuthority c = false) = true)
    (hascii : (scheme ++ [] ++ host ++ [] ++ "/app".toList).all (fun c => c.toNat < 128) = true) :
    HttpUri :=
  ⟨scheme, [], host, [], "/app".toList, hscheme, List.all_iff_forall_prop.mp hhost,
    fun c hc => by cases hc; rfl, List.all_iff_forall_prop.mp hascii⟩

def sampleContext : Context := ⟨lower, none, [], []⟩

theorem http_case_does_not_matter :
    CaseDoesNotMatter sampleContext ["http://example.com/*".toList] true
      (sampleUri "http".toList "example.com".toList (by decide) (by decide) (by decide))
      (sampleUri "HTTP".toList "Example.com".toList (by decide) (by decide) (by decide)) := by
  refine (caseDoesNotMatter_iff _ _ _ _ _ (fun _ _ => rfl) ?_).mpr ?_
  · constructor <;> decide
  · constructor
    · intro h
      exact absurd h (by decide)
    · exact fun _ _ => rfl

theorem https_host_is_compared_with_case :
    ¬ CaseDoesNotMatter sampleContext ["https://example.com/*".toList] true
      (sampleUri "https".toList "example.com".toList (by decide) (by decide) (by decide))
      (sampleUri "https".toList "Example.com".toList (by decide) (by decide) (by decide)) :=
  fun h => absurd h.same (by decide)

end Keycloak.RedirectUtils
