import Keycloak.Protocol.RedirectUtils

/-!
# The hosts of accepted redirects

A redirect that matches a registered URI directly has the host of this URI.  A local redirect
that only matches without its port need not: an at sign behind the colon makes what stands in
front of it part of the user information.
-/

namespace Keycloak.RedirectUtils

open Uri (Text endsAuthority inScheme)

/-- An absolute URI without a wildcard, or one with an authority, a path and a wildcard at its
end. -/
inductive Registered : Text → Prop
  | exact (scheme rest : Text) (nonempty : scheme ≠ []) (inScheme : ∀ c ∈ scheme, inScheme c = true)
      (noWildcard : '*' ∉ scheme ++ ':' :: rest) : Registered (scheme ++ ':' :: rest)
  | pattern (scheme authority path : Text) (nonempty : scheme ≠ [])
      (inScheme : ∀ c ∈ scheme, inScheme c = true)
      (inAuthority : ∀ c ∈ authority, endsAuthority c = false) :
      Registered (scheme ++ "://".toList ++ (authority ++ '/' :: (path ++ ['*'])))

def SameHost (uri uri' : Text) : Prop :=
  (Uri.host uri).map (List.map Char.toLower) = (Uri.host uri').map (List.map Char.toLower)

def HostRegistered (registered : List Text) (uri : Text) : Prop :=
  ∃ r ∈ registered, SameHost uri r

def StaysOnHosts (context : Context) (registered : List Text) (requireRedirectUri : Bool)
    (redirectUri : Text) : Prop :=
  ∀ uri, verifyRedirectUri context (some redirectUri) registered requireRedirectUri = some uri →
    HostRegistered registered uri

/-- The colon after `front` does not start a port: `back` goes on with user information, or the
colon stands in brackets that are still open. -/
def NotAPort (front back : Text) : Prop :=
  (∀ c ∈ front, endsAuthority c = false) ∧
    ('@' ∈ back.takeWhile (fun c => !endsAuthority c) ∨
      (Uri.afterLast '@' ("localhost".toList ++ front)).head? = some '[' ∧
        ']' ∉ Uri.afterLast '@' ("localhost".toList ++ front))

/-- Where a lower-cased redirect may leave the registered hosts it does not. -/
structure Confined (context : Context) (registered : List Text) (redirectUri : Text) : Prop where
  installedApp : redirectUri = installedAppUrn → matchesRedirects registered redirectUri = true →
    HostRegistered registered context.realmInstalledAppUrnCallback
  localRedirect : ∀ front back, redirectUri = installedAppUrl ++ front ++ ':' :: back →
    ':' ∉ front → matchesRedirects registered redirectUri = false →
    matchesRedirects registered (installedAppUrl ++ front ++ back.dropWhile (· ≠ '/')) = true →
    NotAPort front back → HostRegistered registered redirectUri

section

variable {context : Context} {registered : List Text} {r redirect : Text}

theorem Registered.head_ne (h : Registered r) : r.head? ≠ some '/' := by
  cases h with
  | exact scheme rest nonempty hscheme noWildcard =>
      cases scheme with
      | nil => exact absurd rfl nonempty
      | cons c scheme =>
          have hc := hscheme c List.mem_cons_self
          intro heq
          cases heq
          exact absurd hc (by decide)
  | pattern scheme authority path nonempty hscheme inAuthority =>
      cases scheme with
      | nil => exact absurd rfl nonempty
      | cons c scheme =>
          have hc := hscheme c List.mem_cons_self
          intro heq
          cases heq
          exact absurd hc (by decide)

theorem resolveValidRedirects_eq (h : ∀ r ∈ registered, Registered r) :
    resolveValidRedirects context registered = registered := by
  induction registered with
  | nil => rfl
  | cons r rest ih =>
      obtain ⟨hr, hrest⟩ := List.forall_mem_cons.mp h
      have hnot : ¬ "/".toList.isPrefixOf r = true := by
        intro hstart
        obtain ⟨t, ht⟩ := List.isPrefixOf_iff_prefix.mp hstart
        exact hr.head_ne (ht ▸ rfl)
      have ih := ih hrest
      rw [resolveValidRedirects] at ih ⊢
      rw [List.flatMap_cons, if_neg hnot, ih, List.singleton_append]

theorem afterAuthority_query (redirect : Text) :
    Uri.AfterAuthority (redirect.dropWhile (· ≠ '?')) := by
  refine Uri.afterAuthority_of_dropWhile (fun c hc => ?_) redirect
  have heq : c = '?' := by simpa using hc
  rw [heq]
  rfl

theorem afterAuthority_slash (rest : Text) : Uri.AfterAuthority ('/' :: rest) := by
  intro c hc
  cases hc
  rfl

theorem dropLast_pattern (scheme authority path : Text) :
    (scheme ++ "://".toList ++ (authority ++ '/' :: (path ++ ['*']))).dropLast =
      scheme ++ "://".toList ++ (authority ++ '/' :: path) := by
  have hassoc : scheme ++ "://".toList ++ (authority ++ '/' :: (path ++ ['*'])) =
      scheme ++ "://".toList ++ (authority ++ '/' :: path) ++ ['*'] := by simp
  rw [hassoc, List.dropLast_concat]

theorem starts_of_matches {scheme authority path : Text}
    (h : matchesRedirect redirect
      (scheme ++ "://".toList ++ (authority ++ '/' :: (path ++ ['*']))) = true) :
    ∃ rest, Uri.AfterAuthority rest ∧
      redirect = scheme ++ "://".toList ++ (authority ++ rest) := by
  have hsplit : redirect.takeWhile (· ≠ '?') ++ redirect.dropWhile (· ≠ '?') = redirect :=
    List.takeWhile_append_dropWhile
  have hquery := afterAuthority_query redirect
  rw [matchesRedirect] at h
  split at h
  · dsimp only at h
    rw [dropLast_pattern] at h
    generalize redirect.takeWhile (· ≠ '?') = front at h hsplit
    generalize redirect.dropWhile (· ≠ '?') = query at hsplit hquery
    subst hsplit
    split at h
    · -- below the directory of the pattern
      rename_i hstart
      obtain ⟨t, rfl⟩ := List.isPrefixOf_iff_prefix.mp hstart
      exact ⟨'/' :: (path ++ t ++ query), afterAuthority_slash _, by simp⟩
    · split at h
      · -- the directory itself, without its slash
        have heq := of_decide_eq_true h
        rw [List.dropLast_append_of_ne_nil (by simp), List.dropLast_append_of_ne_nil (by simp)]
          at heq
        subst heq
        refine ⟨('/' :: path).dropLast ++ query, ?_, by simp⟩
        cases path with
        | nil => exact hquery
        | cons c path => exact afterAuthority_slash _
      · have heq := of_decide_eq_true h
        subst heq
        exact ⟨'/' :: (path ++ query), afterAuthority_slash _, by simp⟩
  · exact ⟨'/' :: (path ++ ['*']), afterAuthority_slash _, (of_decide_eq_true h).symm⟩

theorem Registered.host_eq (hr : Registered r) (h : matchesRedirect redirect r = true) :
    Uri.host redirect = Uri.host r := by
  cases hr with
  | exact scheme rest nonempty hscheme noWildcard =>
      rw [matchesRedirect] at h
      split at h
      · rename_i hwildcard
        exact absurd (List.mem_of_getLast? hwildcard.1) noWildcard
      · rw [of_decide_eq_true h]
  | pattern scheme authority path nonempty hscheme hauthority =>
      obtain ⟨rest, hrest, rfl⟩ := starts_of_matches h
      rw [Uri.host_eq hscheme hauthority hrest,
        Uri.host_eq hscheme hauthority (afterAuthority_slash _)]

theorem Registered.not_slash (hr : Registered r) (h : matchesRedirect redirect r = true) :
    ¬ "/".toList.isPrefixOf redirect = true := by
  have hhead : redirect.head? ≠ some '/' := by
    cases hr with
    | exact scheme rest nonempty hscheme noWildcard =>
        have hexact := h
        rw [matchesRedirect] at hexact
        split at hexact
        · rename_i hwildcard
          exact absurd (List.mem_of_getLast? hwildcard.1) noWildcard
        · rw [← of_decide_eq_true hexact]
          exact (Registered.exact scheme rest nonempty hscheme noWildcard).head_ne
    | pattern scheme authority path nonempty hscheme hauthority =>
        obtain ⟨rest, hrest, rfl⟩ := starts_of_matches h
        have hpattern := (Registered.pattern scheme authority path nonempty hscheme
          hauthority).head_ne
        rw [List.head?_append_of_ne_nil _ (by simp), List.head?_append_of_ne_nil _ nonempty]
          at hpattern ⊢
        exact hpattern
  intro hstart
  obtain ⟨t, ht⟩ := List.isPrefixOf_iff_prefix.mp hstart
  exact hhead (ht ▸ rfl)

theorem exists_of_matchesRedirects (h : matchesRedirects registered redirect = true) :
    ∃ r ∈ registered, matchesRedirect redirect r = true :=
  List.any_eq_true.mp h

theorem hostRegistered_of_matches (hregistered : ∀ r ∈ registered, Registered r)
    (h : matchesRedirects registered redirect = true) : HostRegistered registered redirect := by
  obtain ⟨r, hr, hmatch⟩ := exists_of_matchesRedirects h
  exact ⟨r, hr, congrArg _ ((hregistered r hr).host_eq hmatch)⟩

/-! ## Local redirects -/

theorem installedAppUrl_eq : installedAppUrl = "http".toList ++ "://".toList ++
    "localhost".toList := by decide

theorem withoutPort_eq {front back : Text} (hfront : ':' ∉ front) :
    withoutPort (installedAppUrl ++ front ++ ':' :: back) =
      some (installedAppUrl ++ front ++ back.dropWhile (· ≠ '/')) := by
  have hall : ∀ c ∈ front, decide (c ≠ ':') = true := fun c hc =>
    decide_eq_true fun heq => hfront (heq ▸ hc)
  have hstart : installedAppUrl.isPrefixOf (installedAppUrl ++ (front ++ ':' :: back)) = true :=
    List.isPrefixOf_iff_prefix.mpr (List.prefix_append _ _)
  rw [withoutPort, List.append_assoc, List.drop_left, if_pos ⟨hstart, by simp⟩,
    List.takeWhile_append_of_pos hall, List.dropWhile_append_of_pos hall]
  simp

theorem exists_of_withoutPort {r' : Text} (h : withoutPort r = some r') :
    ∃ front back, r = installedAppUrl ++ front ++ ':' :: back ∧ ':' ∉ front ∧
      r' = installedAppUrl ++ front ++ back.dropWhile (· ≠ '/') := by
  have hlocal := h
  rw [withoutPort] at hlocal
  split at hlocal
  · rename_i hcolon
    obtain ⟨rest, rfl⟩ := List.isPrefixOf_iff_prefix.mp hcolon.1
    have hmem := hcolon.2
    rw [List.drop_left] at hmem
    obtain ⟨front, back, rfl, hfront⟩ := List.eq_append_cons_of_mem hmem
    refine ⟨front, back, (List.append_assoc _ _ _).symm, hfront, ?_⟩
    rw [← List.append_assoc, withoutPort_eq hfront] at h
    exact (Option.some.inj h).symm
  · cases hlocal

theorem host_installedAppUrl (t : Text) : Uri.host (installedAppUrl ++ t) =
    some (Uri.dropPort (Uri.afterLast '@'
      ("localhost".toList ++ t.takeWhile fun c => !endsAuthority c))) := by
  have hscheme : ∀ c ∈ "http".toList, inScheme c = true := List.all_iff_forall_prop.mp (by decide)
  have hlocal : ∀ c ∈ "localhost".toList, (!endsAuthority c) = true :=
    List.all_iff_forall_prop.mp (by decide)
  rw [installedAppUrl_eq, List.append_assoc, Uri.host_takeWhile hscheme,
    List.takeWhile_append_of_pos hlocal]

theorem host_withoutPort {front back : Text} (hfront : ':' ∉ front)
    (hport : ¬ NotAPort front back) :
    Uri.host (installedAppUrl ++ front ++ ':' :: back) =
      Uri.host (installedAppUrl ++ front ++ back.dropWhile (· ≠ '/')) := by
  rw [List.append_assoc, List.append_assoc, host_installedAppUrl, host_installedAppUrl]
  by_cases hplain : ∀ c ∈ front, endsAuthority c = false
  · -- the colon and what follows it are cut out of the authority
    have hinside : ∀ c ∈ front, (!endsAuthority c) = true := fun c hc => by rw [hplain c hc]; rfl
    have hsuffix : Uri.AfterAuthority (back.dropWhile (· ≠ '/')) := by
      refine Uri.afterAuthority_of_dropWhile (fun c hc => ?_) back
      have heq : c = '/' := by simpa using hc
      rw [heq]
      rfl
    have hnotAt : '@' ∉ ':' :: back.takeWhile (fun c => !endsAuthority c) := by
      intro hmem
      rcases List.mem_cons.mp hmem with heq | hmem
      · exact absurd heq (by decide)
      · exact hport ⟨hplain, .inl hmem⟩
    have hclosed : (Uri.afterLast '@' ("localhost".toList ++ front)).head? = some '[' →
        ']' ∈ Uri.afterLast '@' ("localhost".toList ++ front) := by
      intro hopen
      by_contra hnot
      exact hport ⟨hplain, .inr ⟨hopen, hnot⟩⟩
    have hcolon : ':' ∉ Uri.afterLast '@' ("localhost".toList ++ front) := by
      intro hmem
      rcases List.mem_append.mp (Uri.afterLast_subset _ hmem) with hmem | hmem
      · exact absurd hmem (by decide)
      · exact hfront hmem
    rw [List.takeWhile_append_of_pos hinside, List.takeWhile_append_of_pos hinside,
      Uri.takeWhile_eq_nil hsuffix, List.append_nil, List.takeWhile_cons_of_pos rfl, ← List.append_assoc,
      Uri.afterLast_append_of_not_mem hnotAt, Uri.dropPort_append_port hcolon hclosed]
  · -- the authority ends in front of the colon
    have hends (t : Text) : (front ++ t).takeWhile (fun c => !endsAuthority c) =
        front.takeWhile fun c => !endsAuthority c := by
      rw [List.takeWhile_append, if_neg]
      intro hlength
      refine hplain fun c hc => ?_
      have hwhole := (List.takeWhile_prefix _).eq_of_length hlength
      simpa using List.takeWhile_eq_self_iff.mp hwhole c hc
    rw [hends, hends]

/-- What is returned for a redirect that is given. -/
theorem verifyRedirectUri_eq (hregistered : ∀ r ∈ registered, Registered r)
    (requireRedirectUri : Bool) :
    verifyRedirectUri context (some redirect) registered requireRedirectUri =
      answer context (if isValid registered (lowerCaseHostname context redirect) then
        some (lowerCaseHostname context redirect) else none) := by
  have hresolve : resolveValidRedirects context registered = registered :=
    resolveValidRedirects_eq hregistered
  rw [verifyRedirectUri_some, hresolve]
  rw [hresolve]
  generalize lowerCaseHostname context redirect = lowered
  intro hvalid
  rw [isValid] at hvalid
  split at hvalid
  · rename_i hdirect
    obtain ⟨r, hr, hmatch⟩ := exists_of_matchesRedirects hdirect
    exact (hregistered r hr).not_slash hmatch
  · split at hvalid
    · rename_i hlocal
      obtain ⟨front, back, rfl, _, _⟩ := exists_of_withoutPort hlocal
      intro hstart
      obtain ⟨t, ht⟩ := List.isPrefixOf_iff_prefix.mp hstart
      cases ht
    · cases hvalid

end

/-- The returned URI stays on the registered hosts exactly when the page for installed
applications, if it is returned, is on one of them, and when a local redirect that is accepted
without its port either has a port there or is on a registered host all the same. -/
theorem staysOnHosts_iff (context : Context) (registered : List Text)
    (requireRedirectUri : Bool) (redirectUri : Text)
    (hregistered : ∀ r ∈ registered, Registered r) :
    StaysOnHosts context registered requireRedirectUri redirectUri ↔
      Confined context registered (lowerCaseHostname context redirectUri) := by
  rw [StaysOnHosts, verifyRedirectUri_eq hregistered]
  generalize lowerCaseHostname context redirectUri = lower
  constructor
  · intro hstays
    refine ⟨fun hurn hdirect => ?_, fun front back heq hfront hnot hlocal _ => ?_⟩
    · refine hstays _ ?_
      rw [isValid, if_pos hdirect, if_pos rfl, answer, if_pos hurn]
    · refine hstays _ ?_
      have hvalid : isValid registered lower = true := by
        rw [isValid, hnot, if_neg Bool.false_ne_true, heq, withoutPort_eq hfront]
        exact hlocal
      have hurn : lower ≠ installedAppUrn := by
        rw [heq]
        intro h
        cases h
      rw [hvalid, if_pos rfl, answer, if_neg hurn]
  · intro hconfined uri huri
    cases hvalid : isValid registered lower with
    | false =>
        rw [hvalid] at huri
        cases huri
    | true =>
        rw [hvalid, if_pos rfl, answer] at huri
        rw [isValid] at hvalid
        split at hvalid
        · rename_i hdirect
          split at huri
          · rename_i hurn
            cases huri
            exact hconfined.installedApp hurn hdirect
          · cases huri
            exact hostRegistered_of_matches hregistered hdirect
        · rename_i hnot
          split at hvalid
          · rename_i r' hlocal
            obtain ⟨front, back, rfl, hfront, rfl⟩ := exists_of_withoutPort hlocal
            have hurn : installedAppUrl ++ front ++ ':' :: back ≠ installedAppUrn := by
              intro h
              cases h
            rw [if_neg hurn] at huri
            cases huri
            by_cases hport : NotAPort front back
            · exact hconfined.localRedirect front back rfl hfront (Bool.eq_false_iff.mpr hnot)
                hvalid hport
            · obtain ⟨r, hr, hsame⟩ := hostRegistered_of_matches hregistered hvalid
              refine ⟨r, hr, ?_⟩
              rw [SameHost, host_withoutPort hfront hport]
              exact hsame
          · cases hvalid

/-- `http://localhost:@evil.com/` for a client of `http://localhost/*`. -/
theorem local_redirect_leaves : ¬ StaysOnHosts
    ⟨List.map Char.toLower, none, [], []⟩ ["http://localhost/*".toList] true
    "http://localhost:@evil.com/".toList := by
  intro h
  obtain ⟨r, hr, hsame⟩ := h "http://localhost:@evil.com/".toList (by decide)
  rw [List.mem_singleton.mp hr] at hsame
  exact absurd hsame (by unfold SameHost; decide)

/-- A local redirect with a port. -/
theorem local_redirect_stays : StaysOnHosts
    ⟨List.map Char.toLower, none, [], []⟩ ["http://localhost/*".toList] true
    "http://localhost:8080/app".toList := by
  have hregistered : ∀ r ∈ ["http://localhost/*".toList], Registered r := by
    intro r hr
    rw [List.mem_singleton.mp hr]
    exact .pattern "http".toList "localhost".toList [] (by decide)
      (List.all_iff_forall_prop.mp (by decide)) (List.all_iff_forall_prop.mp (by decide))
  refine (staysOnHosts_iff _ _ _ _ hregistered).mpr ⟨?_, ?_⟩
  · intro h
    exact absurd h (by decide)
  · intro front back _ _ _ _ _
    exact ⟨_, List.mem_singleton_self _, by unfold SameHost; decide⟩

end Keycloak.RedirectUtils
