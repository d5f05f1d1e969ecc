import Keycloak.Lib.JavaUri
import Keycloak.Lib.Split
import Mathlib.Data.List.Dedup

/-!
# Sector identifiers of pairwise subjects

Without a sector identifier URI the sector of a client is the host of its redirect URIs, if there
is just one.  `PairwiseSubMapperValidator` checks this when a mapper is stored, and rejects a
redirect URI that is no URI; `PairwiseSubMapperUtils` passes over such redirect URIs.
-/

namespace Keycloak.Tokens.PairwiseSubMapper

open GenericUri (Text slash)

/-- The host of `new URI(text)`, which may be null; none where the constructor throws. -/
def uriHost (text : Text) : Option (Option Text) :=
  if JavaUri.accepts text then some (JavaUri.getHost text) else none

/-! ## Redirect URIs -/

def relativeToAbsoluteURI (rootUrl : Option Text) (relative : Text) : Option Text :=
  match rootUrl with
  | none => none
  | some rootUrl => if rootUrl.isEmpty then none else some (rootUrl ++ relative)

def resolveValidRedirectUris (clientRootUrl : Option Text)
    (clientRedirectUris : Option (List Text)) : List Text :=
  match clientRedirectUris with
  | none => []
  | some clientRedirectUris =>
      let validRedirects := (clientRedirectUris.filterMap fun redirectUri =>
        if redirectUri.head? = some slash then relativeToAbsoluteURI clientRootUrl redirectUri
        else some redirectUri).dedup
      validRedirects.filter fun r => Split.trimBy (fun c => c ≤ 32) r ≠ []

/-! ## Sector identifiers -/

def resolveSectorIdentifierUri (sectorIdentifierUri : Text) : Option Text :=
  match uriHost sectorIdentifierUri with
  | none => none
  | some host => if JavaUri.getScheme sectorIdentifierUri = none then none else host

/-- `resolveValidSectorIdentifier` of the redirect URIs; the set of their hosts may have a
null. -/
def resolveValidSectorIdentifier (clientRootUrl : Option Text)
    (clientRedirectUris : Option (List Text)) : Option Text :=
  let hosts := ((resolveValidRedirectUris clientRootUrl clientRedirectUris).filterMap uriHost).dedup
  match hosts with
  | [] => none
  | [host] => host
  | _ => none

def getSectorIdentifier (sectorIdentifierUri clientRootUrl : Option Text)
    (clientRedirectUris : Option (List Text)) : Option Text :=
  match sectorIdentifierUri with
  | some uri =>
      if uri ≠ [] then resolveSectorIdentifierUri uri
      else resolveValidSectorIdentifier clientRootUrl clientRedirectUris
  | none => resolveValidSectorIdentifier clientRootUrl clientRedirectUris

structure ProtocolMapperConfigException where
  message : String
  messageKey : String
  deriving DecidableEq, Repr

/-- The first redirect URI that is no URI ends the loop. -/
def validateClientRedirectUris (rootUrl : Option Text) (redirectUris : Option (List Text)) :
    Except ProtocolMapperConfigException Unit :=
  let resolved := resolveValidRedirectUris rootUrl redirectUris
  let hosts := (resolved.filterMap uriHost).dedup
  if resolved.any fun redirectUri => (uriHost redirectUri).isNone then
    .error ⟨"Client contained an invalid redirect URI.", "pairwiseMalformedClientRedirectURI"⟩
  else if hosts.isEmpty then
    .error ⟨"Client redirect URIs must contain a valid host component.",
      "pairwiseClientRedirectURIsMissingHost"⟩
  else if hosts.length > 1 then
    .error ⟨"Without a configured Sector Identifier URI, client redirect URIs must not contain " ++
      "multiple host components.", "pairwiseClientRedirectURIsMultipleHosts"⟩
  else .ok ()

/-! ## What a sector identifier says -/

section

variable (rootUrl : Option Text) (redirectUris : Option (List Text))

/-- A sector identifier is the host of all redirect URIs, of which there is at least one. -/
def Justified : Prop :=
  ∀ host, resolveValidSectorIdentifier rootUrl redirectUris = some host →
    resolveValidRedirectUris rootUrl redirectUris ≠ [] ∧
      ∀ uri ∈ resolveValidRedirectUris rootUrl redirectUris, uriHost uri = some (some host)

def WellFormed : Prop :=
  ∀ uri ∈ resolveValidRedirectUris rootUrl redirectUris, JavaUri.accepts uri = true

/-- Those that are well-formed, of which there is at least one, have one host. -/
def CommonHost : Prop :=
  (∃ uri ∈ resolveValidRedirectUris rootUrl redirectUris, JavaUri.accepts uri = true) ∧
    ∃ host, ∀ uri ∈ resolveValidRedirectUris rootUrl redirectUris, JavaUri.accepts uri = true →
      JavaUri.getHost uri = some host

end

variable {rootUrl : Option Text} {redirectUris : Option (List Text)} {uri host : Text}

theorem uriHost_eq_some_iff {found : Option Text} :
    uriHost uri = some found ↔ JavaUri.accepts uri = true ∧ JavaUri.getHost uri = found := by
  rw [uriHost]
  split_ifs with h
  · simp [h]
  · simp [h]

theorem dedup_eq_singleton_iff {xs : List (Option Text)} {x : Option Text} :
    xs.dedup = [x] ↔ xs ≠ [] ∧ ∀ y ∈ xs, y = x := by
  constructor
  · intro h
    have hmem : ∀ y, y ∈ xs ↔ y = x := by
      intro y
      rw [← List.mem_dedup, h, List.mem_singleton]
    exact ⟨List.ne_nil_of_mem ((hmem x).mpr rfl), fun y hy => (hmem y).mp hy⟩
  · rintro ⟨hne, hall⟩
    obtain ⟨y, hy⟩ := List.exists_mem_of_ne_nil xs hne
    have hx : x ∈ xs := hall y hy ▸ hy
    have hsub : ∀ y ∈ xs.dedup, y = x := fun y hy => hall y (List.mem_dedup.mp hy)
    have hreplicate := List.eq_replicate_of_mem hsub
    have hnodup := List.nodup_dedup xs
    rw [hreplicate, List.nodup_replicate] at hnodup
    have hpos := List.length_pos_of_mem (List.mem_dedup.mpr hx)
    have hone : xs.dedup.length = 1 := by omega
    rw [hreplicate, hone]
    rfl

/-- A host is found if and only if it is the one of all well-formed redirect URIs. -/
theorem resolveValidSectorIdentifier_eq_some_iff :
    resolveValidSectorIdentifier rootUrl redirectUris = some host ↔
      (∃ uri ∈ resolveValidRedirectUris rootUrl redirectUris, JavaUri.accepts uri = true) ∧
        ∀ uri ∈ resolveValidRedirectUris rootUrl redirectUris, JavaUri.accepts uri = true →
          JavaUri.getHost uri = some host := by
  have hresolve : resolveValidSectorIdentifier rootUrl redirectUris = some host ↔
      ((resolveValidRedirectUris rootUrl redirectUris).filterMap uriHost).dedup = [some host] := by
    rw [resolveValidSectorIdentifier]
    split
    · rename_i heq
      rw [heq]
      simp
    · rename_i heq
      rw [heq]
      simp
    · rename_i hnil hone
      exact iff_of_false (by simp) (hone (some host))
  rw [hresolve, dedup_eq_singleton_iff]
  refine and_congr ?_ ?_
  · rw [ne_eq, List.filterMap_eq_nil_iff, not_forall]
    refine exists_congr fun uri => ?_
    rw [Classical.not_imp, uriHost]
    refine and_congr_right fun _ => ?_
    split_ifs with h
    · simp [h]
    · simp [h]
  · simp only [List.mem_filterMap, uriHost_eq_some_iff]
    constructor
    · intro h uri huri haccepts
      exact h _ ⟨uri, huri, haccepts, rfl⟩
    · rintro h found ⟨uri, huri, haccepts, rfl⟩
      exact h uri huri haccepts

/-- A sector identifier is justified if and only if no redirect URI is malformed, or the others
have no host in common. -/
theorem justified_iff : Justified rootUrl redirectUris ↔
    WellFormed rootUrl redirectUris ∨ ¬ CommonHost rootUrl redirectUris := by
  constructor
  · intro h
    by_cases hcommon : CommonHost rootUrl redirectUris
    · obtain ⟨hexists, host, hhost⟩ := hcommon
      have hall := (h host (resolveValidSectorIdentifier_eq_some_iff.mpr ⟨hexists, hhost⟩)).2
      exact .inl fun uri huri => (uriHost_eq_some_iff.mp (hall uri huri)).1
    · exact .inr hcommon
  · intro h host hresolve
    obtain ⟨hexists, hhost⟩ := resolveValidSectorIdentifier_eq_some_iff.mp hresolve
    rcases h with hwell | hcommon
    · obtain ⟨uri, huri, -⟩ := hexists
      refine ⟨List.ne_nil_of_mem huri, fun uri huri => ?_⟩
      exact uriHost_eq_some_iff.mpr ⟨hwell uri huri, hhost uri huri (hwell uri huri)⟩
    · exact absurd ⟨hexists, host, hhost⟩ hcommon

/-- The redirect URIs that the validator takes justify their sector identifier. -/
theorem justified_of_validate (h : validateClientRedirectUris rootUrl redirectUris = .ok ()) :
    Justified rootUrl redirectUris := by
  refine justified_iff.mpr (.inl fun uri huri => ?_)
  rw [validateClientRedirectUris] at h
  split at h
  · cases h
  · rename_i hany
    cases hhost : uriHost uri with
    | none =>
        refine absurd (List.any_eq_true.mpr ⟨uri, huri, ?_⟩) hany
        rw [hhost, Option.isNone_none]
    | some found => exact (uriHost_eq_some_iff.mp hhost).1

/-- The sector identifier of a client whose redirect URIs the validator takes is the host of the
sector identifier URI, or of all redirect URIs. -/
theorem host_of_getSectorIdentifier {sectorIdentifierUri : Option Text}
    (hvalid : validateClientRedirectUris rootUrl redirectUris = .ok ())
    (h : getSectorIdentifier sectorIdentifierUri rootUrl redirectUris = some host) :
    (∃ uri ∈ sectorIdentifierUri, uriHost uri = some (some host)) ∨
      ∀ uri ∈ resolveValidRedirectUris rootUrl redirectUris, uriHost uri = some (some host) := by
  have hredirect : resolveValidSectorIdentifier rootUrl redirectUris = some host →
      ∀ uri ∈ resolveValidRedirectUris rootUrl redirectUris, uriHost uri = some (some host) :=
    fun h => (justified_of_validate hvalid host h).2
  unfold getSectorIdentifier at h
  cases sectorIdentifierUri with
  | none => exact .inr (hredirect h)
  | some uri =>
      dsimp only at h
      split_ifs at h with hne
      · refine .inl ⟨uri, rfl, ?_⟩
        rw [resolveSectorIdentifierUri] at h
        split at h
        · cases h
        · rename_i found hfound
          split_ifs at h
          rw [hfound, h]
      · exact .inr (hredirect h)

def sampleRedirectUris : List Text :=
  [['a', ':', '/', '/', 'h', '/'], ['a', ':', '/', '/', 'k', '/', ' ', 'x']].map
    (List.map Char.toNat)

/-- The host of one is the sector identifier, whatever the malformed one is. -/
theorem not_justified_of_space :
    resolveValidSectorIdentifier none (some sampleRedirectUris) = some ['h'.toNat] ∧
      validateClientRedirectUris none (some sampleRedirectUris) =
        .error ⟨"Client contained an invalid redirect URI.",
          "pairwiseMalformedClientRedirectURI"⟩ ∧
      ¬ Justified none (some sampleRedirectUris) := by
  have hresolve : resolveValidSectorIdentifier none (some sampleRedirectUris) =
      some ['h'.toNat] := by decide
  refine ⟨hresolve, by decide, fun h => ?_⟩
  have hall := (h _ hresolve).2
  exact absurd hall (by decide)

end Keycloak.Tokens.PairwiseSubMapper
