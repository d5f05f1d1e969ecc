import Keycloak.Lib.Split
import Keycloak.Lib.Uri
import Mathlib.Data.List.Dedup

/-!
# Client registration from trusted hosts

The policy compares the sender of a registration, and the host of each of its URLs, with one
configured list: a name in it is a trusted host, a name behind `*.` is a trusted domain.
-/

namespace Keycloak.Services.TrustedHosts

open Uri (Text)

structure ClientRepresentation where
  rootUrl : Option Text
  baseUrl : Option Text
  adminUrl : Option Text
  redirectUris : Option (List Text)

structure ComponentModel where
  trustedHosts : List Text
  hostSendingRegistrationRequestMustMatch : Option Text
  clientUrisMustMatch : Option Text

structure JavaNet where
  /-- `InetAddress.getByName` and `getHostAddress`, none for an unknown host. -/
  hostAddress : Text → Option Text
  /-- `InetAddress.getByName` and `getHostName`. -/
  hostName : Text → Option Text
  wellFormed : Text → Bool

/-- `new URL(url).getHost()`, none for a malformed URL. -/
def getHost (net : JavaNet) (url : Text) : Option Text :=
  if net.wellFormed url then some ((Uri.host url).getD []) else none

/-! ## The configuration -/

def wildcard : Text := ['*', '.']

def getTrustedHosts (componentModel : ComponentModel) : List Text :=
  componentModel.trustedHosts.filter fun hostname => !wildcard.isPrefixOf hostname

def getTrustedDomains (componentModel : ComponentModel) : List Text :=
  (componentModel.trustedHosts.filter fun hostname => wildcard.isPrefixOf hostname).map
    fun hostname => hostname.drop 2

def parseBoolean (val : Option Text) : Bool :=
  match val with
  | none => true
  | some val => val.map Char.toLower == "true".toList

def isHostMustMatch (componentModel : ComponentModel) : Bool :=
  parseBoolean componentModel.hostSendingRegistrationRequestMustMatch

def isClientUrisMustMatch (componentModel : ComponentModel) : Bool :=
  parseBoolean componentModel.clientUrisMustMatch

/-! ## The sender -/

section

variable (net : JavaNet)

def verifyHostInTrustedHosts (hostAddress : Text) (trustedHosts : List Text) : Option Text :=
  trustedHosts.find? fun confHostName => net.hostAddress confHostName == some hostAddress

def verifyHostInTrustedDomains (hostAddress : Text) (trustedDomains : List Text) : Option Text :=
  if trustedDomains.isEmpty then none
  else
    (net.hostName hostAddress).filter fun hostname =>
      trustedDomains.any fun confDomain => confDomain.isSuffixOf hostname

def verifyHost (componentModel : ComponentModel) (remoteAddr : Text) : Except String Unit :=
  if isHostMustMatch componentModel then
    match verifyHostInTrustedHosts net remoteAddr (getTrustedHosts componentModel) with
    | some _ => .ok ()
    | none =>
        match verifyHostInTrustedDomains net remoteAddr (getTrustedDomains componentModel) with
        | some _ => .ok ()
        | none => .error "Host not trusted."
  else
    .ok ()

/-! ## The URLs -/

def checkURLTrusted (url : Text) (trustedHosts trustedDomains : List Text) : Except String Unit :=
  match getHost net url with
  | none => .error "URL is malformed"
  | some host =>
      if trustedHosts.any fun trustedHost => host == trustedHost then .ok ()
      else if trustedDomains.any fun trustedDomain => trustedDomain.isSuffixOf host then .ok ()
      else .error "URL doesn't match any trusted host or trusted domain"

def relativeToAbsoluteURI (rootUrl relative : Option Text) : Option Text :=
  match relative with
  | none => none
  | some relative =>
      if relative.head? ≠ some '/' then some relative
      else
        match rootUrl with
        | none => none
        | some rootUrl => if rootUrl.isEmpty then none else some (rootUrl ++ relative)

/-- The loop of `resolveValidRedirectUris`; one relative URI is resolved as above. -/
def validRedirects (rootUrl : Option Text) (clientRedirectUris : List Text) : List Text :=
  (clientRedirectUris.filterMap fun redirectUri =>
    relativeToAbsoluteURI rootUrl (some redirectUri)).dedup

def resolveValidRedirectUris (rootUrl : Option Text) (clientRedirectUris : Option (List Text)) :
    List Text :=
  match clientRedirectUris with
  | none => []
  | some clientRedirectUris =>
      (validRedirects rootUrl clientRedirectUris).filter fun r => !(Split.trim r).isEmpty

def checkURLs (trustedHosts trustedDomains : List Text) : List Text → Except String Unit
  | [] => .ok ()
  | url :: rest => do
      checkURLTrusted net url trustedHosts trustedDomains
      checkURLs trustedHosts trustedDomains rest

def checkedUrls (client : ClientRepresentation) : List Text :=
  client.rootUrl.toList ++ (relativeToAbsoluteURI client.rootUrl client.baseUrl).toList ++
    (relativeToAbsoluteURI client.rootUrl client.adminUrl).toList ++
      resolveValidRedirectUris client.rootUrl client.redirectUris

def verifyClientUrls (componentModel : ComponentModel) (client : ClientRepresentation) :
    Except String Unit :=
  if isClientUrisMustMatch componentModel then
    checkURLs net (getTrustedHosts componentModel) (getTrustedDomains componentModel)
      (checkedUrls client)
  else
    .ok ()

/-- Also `beforeUpdate`. -/
def beforeRegister (componentModel : ComponentModel) (remoteAddr : Text)
    (client : ClientRepresentation) : Except String Unit := do
  verifyHost net componentModel remoteAddr
  verifyClientUrls net componentModel client

end

/-! ## Trusted URLs -/

def urls (client : ClientRepresentation) : List Text :=
  client.rootUrl.toList ++ (relativeToAbsoluteURI client.rootUrl client.baseUrl).toList ++
    (relativeToAbsoluteURI client.rootUrl client.adminUrl).toList ++
      validRedirects client.rootUrl (client.redirectUris.getD [])

def Absolute (url : Text) : Prop :=
  ∃ c scheme rest, url = c :: scheme ++ ':' :: rest ∧ c.isAlpha = true ∧
    (scheme.all fun d => d.isAlphanum || d == '+' || d == '-' || d == '.') = true

def hostOf (url : Text) : Text := (Uri.host url).getD []

def EqualsIgnoreCase (a b : Text) : Prop := a.map Char.toLower = b.map Char.toLower

/-- The host is a configured host, or ends with a configured domain at a label. -/
def Trusted (componentModel : ComponentModel) (host : Text) : Prop :=
  (∃ trustedHost ∈ getTrustedHosts componentModel, EqualsIgnoreCase host trustedHost) ∨
    ∃ domain ∈ getTrustedDomains componentModel, host = domain ∨ ∃ x, host = x ++ '.' :: domain

def AdmitsOnlyTrusted (net : JavaNet) (componentModel : ComponentModel) (remoteAddr : Text)
    (client : ClientRepresentation) : Prop :=
  beforeRegister net componentModel remoteAddr client = .ok () →
    ∀ url ∈ urls client, Absolute url → Trusted componentModel (hostOf url)

/-! ## When only trusted URLs are admitted -/

/-- The host ends with the domain, which starts in the middle of a label. -/
def EndsInsideLabel (host domain : Text) : Prop :=
  ∃ x, host = x ++ domain ∧ x ≠ [] ∧ x.getLast? ≠ some '.'

/-- The host ends with a domain, but with none at a label, and is no configured host. -/
def OnlyInsideLabel (componentModel : ComponentModel) (host : Text) : Prop :=
  (∃ domain ∈ getTrustedDomains componentModel, EndsInsideLabel host domain) ∧
    (∀ domain ∈ getTrustedDomains componentModel, domain <:+ host → EndsInsideLabel host domain) ∧
    ∀ trustedHost ∈ getTrustedHosts componentModel, ¬ EqualsIgnoreCase host trustedHost

/-- The sender, or a URL of the registration, is not let through. -/
def Rejected (net : JavaNet) (componentModel : ComponentModel) (remoteAddr : Text)
    (client : ClientRepresentation) : Prop :=
  verifyHost net componentModel remoteAddr ≠ .ok () ∨
    ∃ url ∈ checkedUrls client, checkURLTrusted net url (getTrustedHosts componentModel)
      (getTrustedDomains componentModel) ≠ .ok ()

section

variable {net : JavaNet} {componentModel : ComponentModel} {remoteAddr url host domain : Text}
variable {client : ClientRepresentation} {trustedHosts trustedDomains : List Text}

theorem checkURLTrusted_eq_ok :
    checkURLTrusted net url trustedHosts trustedDomains = .ok () ↔
      net.wellFormed url = true ∧
        (hostOf url ∈ trustedHosts ∨ ∃ domain ∈ trustedDomains, domain <:+ hostOf url) := by
  unfold checkURLTrusted getHost hostOf
  by_cases hurl : net.wellFormed url = true
  · simp only [hurl, if_true, true_and]
    split_ifs with hhost hdomain
    · simp only [List.any_eq_true, beq_iff_eq, exists_eq_right'] at hhost
      exact iff_of_true rfl (.inl hhost)
    · simp only [List.any_eq_true, List.isSuffixOf_iff_suffix] at hdomain
      exact iff_of_true rfl (.inr hdomain)
    · simp only [List.any_eq_true, beq_iff_eq, exists_eq_right'] at hhost
      simp only [List.any_eq_true, List.isSuffixOf_iff_suffix] at hdomain
      exact iff_of_false (by simp) (not_or.mpr ⟨hhost, hdomain⟩)
  · simp [hurl]

theorem checkURLs_eq_ok {urls : List Text} :
    checkURLs net trustedHosts trustedDomains urls = .ok () ↔
      ∀ url ∈ urls, checkURLTrusted net url trustedHosts trustedDomains = .ok () := by
  induction urls with
  | nil => simp [checkURLs]
  | cons url rest ih =>
      rw [List.forall_mem_cons, ← ih, checkURLs]
      cases checkURLTrusted net url trustedHosts trustedDomains <;>
        simp [bind, Except.bind]

/-- A registration is accepted if nothing is rejected. -/
theorem beforeRegister_eq_ok (h : isClientUrisMustMatch componentModel = true) :
    beforeRegister net componentModel remoteAddr client = .ok () ↔
      ¬ Rejected net componentModel remoteAddr client := by
  have hurls : verifyClientUrls net componentModel client = .ok () ↔
      ∀ url ∈ checkedUrls client, checkURLTrusted net url (getTrustedHosts componentModel)
        (getTrustedDomains componentModel) = .ok () := by
    rw [verifyClientUrls, if_pos h, checkURLs_eq_ok]
  unfold Rejected
  push Not
  rw [← hurls, beforeRegister]
  cases verifyHost net componentModel remoteAddr <;> simp [bind, Except.bind]

theorem mem_checkedUrls (hurl : url ∈ urls client) (habsolute : Absolute url) :
    url ∈ checkedUrls client := by
  have hblank : Split.trim url ≠ [] := by
    obtain ⟨c, scheme, rest, rfl, -, -⟩ := habsolute
    intro htrim
    have hcolon := Split.trim_eq_nil_iff.mp htrim ':' (by simp)
    exact absurd hcolon (by decide)
  unfold urls at hurl
  unfold checkedUrls
  rw [List.mem_append] at hurl ⊢
  refine hurl.imp id fun hredirect => ?_
  cases huris : client.redirectUris with
  | none =>
      rw [huris] at hredirect
      exact absurd hredirect List.not_mem_nil
  | some uris =>
      rw [huris] at hredirect
      exact List.mem_filter.mpr ⟨hredirect, by simpa using hblank⟩

theorem endsAtLabel_or_inside (h : domain <:+ host) :
    (host = domain ∨ ∃ x, host = x ++ '.' :: domain) ∨ EndsInsideLabel host domain := by
  obtain ⟨x, rfl⟩ := h
  by_cases hnil : x = []
  · exact .inl (.inl (by rw [hnil, List.nil_append]))
  · by_cases hlast : x.getLast? = some '.'
    · obtain ⟨y, rfl⟩ := List.getLast?_eq_some_iff.mp hlast
      exact .inl (.inr ⟨y, by rw [List.append_assoc]; rfl⟩)
    · exact .inr ⟨x, rfl, hnil, hlast⟩

theorem not_endsInsideLabel (h : host = domain ∨ ∃ x, host = x ++ '.' :: domain) :
    ¬ EndsInsideLabel host domain := by
  rintro ⟨x, hx, hne, hlast⟩
  rcases h with rfl | ⟨y, hy⟩
  · have hlength := congrArg List.length hx
    rw [List.length_append] at hlength
    exact hne (List.eq_nil_of_length_eq_zero (by omega))
  · have hsplit : x ++ domain = (y ++ ['.']) ++ domain := by
      rw [← hx, hy, List.append_assoc]
      rfl
    rw [List.append_cancel_right hsplit] at hlast
    exact hlast (by simp)

theorem not_trusted_of_onlyInsideLabel (h : OnlyInsideLabel componentModel host) :
    ¬ Trusted componentModel host := by
  obtain ⟨-, hinside, hhost⟩ := h
  rintro (⟨trustedHost, hmem, heq⟩ | ⟨domain, hmem, hlabel⟩)
  · exact hhost trustedHost hmem heq
  · refine not_endsInsideLabel hlabel (hinside domain hmem ?_)
    rcases hlabel with rfl | ⟨x, rfl⟩
    · exact List.suffix_rfl
    · exact (List.suffix_cons '.' domain).trans (List.suffix_append x _)

theorem trusted_or_onlyInsideLabel
    (h : hostOf url ∈ getTrustedHosts componentModel ∨
      ∃ domain ∈ getTrustedDomains componentModel, domain <:+ hostOf url) :
    Trusted componentModel (hostOf url) ∨ OnlyInsideLabel componentModel (hostOf url) := by
  by_cases htrusted : Trusted componentModel (hostOf url)
  · exact .inl htrusted
  · have hinside : ∀ domain ∈ getTrustedDomains componentModel, domain <:+ hostOf url →
        EndsInsideLabel (hostOf url) domain := fun domain hmem hsuffix =>
      (endsAtLabel_or_inside hsuffix).resolve_left
        fun hlabel => htrusted (.inr ⟨domain, hmem, hlabel⟩)
    have hhost : ∀ trustedHost ∈ getTrustedHosts componentModel,
        ¬ EqualsIgnoreCase (hostOf url) trustedHost :=
      fun trustedHost hmem heq => htrusted (.inl ⟨trustedHost, hmem, heq⟩)
    rcases h with hmem | ⟨domain, hmem, hsuffix⟩
    · exact absurd rfl (hhost (hostOf url) hmem)
    · exact .inr ⟨⟨domain, hmem, hinside domain hmem hsuffix⟩, hinside, hhost⟩

end

/-- Only URLs of trusted hosts are admitted, exactly if the registration is rejected anyway or
no host of it ends with a configured domain in the middle of a label only. -/
theorem admitsOnlyTrusted_iff (net : JavaNet) (componentModel : ComponentModel) (remoteAddr : Text)
    (client : ClientRepresentation) (h : isClientUrisMustMatch componentModel = true) :
    AdmitsOnlyTrusted net componentModel remoteAddr client ↔
      Rejected net componentModel remoteAddr client ∨
        ∀ url ∈ urls client, Absolute url → ¬ OnlyInsideLabel componentModel (hostOf url) := by
  unfold AdmitsOnlyTrusted
  rw [beforeRegister_eq_ok h]
  constructor
  · intro hadmits
    by_cases hrejected : Rejected net componentModel remoteAddr client
    · exact .inl hrejected
    · exact .inr fun url hurl habsolute hinside =>
        not_trusted_of_onlyInsideLabel hinside (hadmits hrejected url hurl habsolute)
  · rintro (hrejected | hlabels) haccepted url hurl habsolute
    · exact absurd hrejected haccepted
    · have hcheck : checkURLTrusted net url (getTrustedHosts componentModel)
          (getTrustedDomains componentModel) = .ok () := by
        by_contra hbad
        exact haccepted (.inr ⟨url, mem_checkedUrls hurl habsolute, hbad⟩)
      exact (trusted_or_onlyInsideLabel (checkURLTrusted_eq_ok.mp hcheck).2).resolve_right
        (hlabels url hurl habsolute)

/-! ## A domain in the middle of a label -/

def exampleDomain : ComponentModel where
  trustedHosts := ["*.example.com".toList]
  hostSendingRegistrationRequestMustMatch := some "false".toList
  clientUrisMustMatch := none

def redirectClient (redirectUri : String) : ClientRepresentation :=
  ⟨none, none, none, some [redirectUri.toList]⟩

def plainNet : JavaNet := ⟨fun _ => none, fun _ => none, fun _ => true⟩

theorem getTrustedDomains_exampleDomain :
    getTrustedDomains exampleDomain = ["example.com".toList] := by decide +kernel

theorem urls_redirectClient (redirectUri : String) (h : redirectUri.toList.head? ≠ some '/') :
    urls (redirectClient redirectUri) = [redirectUri.toList] := by
  simp [urls, redirectClient, validRedirects, relativeToAbsoluteURI, h,
    (List.nodup_singleton redirectUri.toList).dedup]

/-- A subdomain is admitted, and its host ends with the domain at a label. -/
theorem admitsOnlyTrusted_of_subdomain :
    AdmitsOnlyTrusted plainNet exampleDomain "192.0.2.1".toList
      (redirectClient "https://app.example.com/cb") := by
  refine (admitsOnlyTrusted_iff plainNet exampleDomain "192.0.2.1".toList
    (redirectClient "https://app.example.com/cb") (by decide +kernel)).mpr (.inr ?_)
  intro url hurl _ hinside
  rw [urls_redirectClient _ (by decide +kernel), List.mem_singleton] at hurl
  obtain ⟨domain, hmem, hends⟩ := hinside.1
  rw [getTrustedDomains_exampleDomain, List.mem_singleton] at hmem
  have hhost : hostOf "https://app.example.com/cb".toList =
      "app".toList ++ '.' :: "example.com".toList := by decide +kernel
  rw [hurl, hmem, hhost] at hends
  exact not_endsInsideLabel (.inr ⟨"app".toList, rfl⟩) hends

/-- The host `evilexample.com` ends with the domain `example.com`, and is admitted. -/
theorem not_admitsOnlyTrusted_of_evil :
    ¬ AdmitsOnlyTrusted plainNet exampleDomain "192.0.2.1".toList
      (redirectClient "https://evilexample.com/cb") := by
  intro hadmits
  have haccepted : beforeRegister plainNet exampleDomain "192.0.2.1".toList
      (redirectClient "https://evilexample.com/cb") = .ok () := by decide +kernel
  have habsolute : Absolute "https://evilexample.com/cb".toList :=
    ⟨'h', "ttps".toList, "//evilexample.com/cb".toList, by decide +kernel, by decide, by decide⟩
  have hurl : "https://evilexample.com/cb".toList ∈
      urls (redirectClient "https://evilexample.com/cb") := by
    rw [urls_redirectClient _ (by decide +kernel)]
    exact List.mem_singleton_self _
  have hhost : hostOf "https://evilexample.com/cb".toList =
      "evil".toList ++ "example.com".toList := by decide +kernel
  have hends : EndsInsideLabel (hostOf "https://evilexample.com/cb".toList)
      "example.com".toList := ⟨"evil".toList, hhost, by decide, by decide⟩
  refine not_trusted_of_onlyInsideLabel ⟨?_, ?_, ?_⟩
    (hadmits haccepted _ hurl habsolute)
  · rw [getTrustedDomains_exampleDomain]
    exact ⟨_, List.mem_singleton_self _, hends⟩
  · intro domain hmem _
    rw [getTrustedDomains_exampleDomain, List.mem_singleton] at hmem
    exact hmem ▸ hends
  · have hhosts : getTrustedHosts exampleDomain = [] := by decide +kernel
    rw [hhosts]
    exact fun _ hmem => absurd hmem List.not_mem_nil

end Keycloak.Services.TrustedHosts
