import Keycloak.Saml.MessageCoverage

/-!
# The assertion that the identity broker believes

The identity of an accepted response comes from its first assertion. Two checks could see to it
that the assertion is signed: that of the document, which is left out where the document has no
signature, and that of the first element named `Assertion`, which is left out where it has none
and signed assertions are not asked for.
-/

namespace Keycloak.Saml

variable {V : Type}

/-- The document has signatures, and each of them refers to an assertion that is not the first
one of the response. -/
structure Displaced (lib : XmlSignatures V) (doc : Element V) : Prop where
  signed : signatureNodes doc ≠ []
  elsewhere : ∀ marked ∈ documentMarks doc, ∀ node ∈ signatureNodes doc,
    ∃ target ∈ referenced lib doc marked node.element,
      target ∈ (assertionNodes doc).map (·.path) ∧ target ≠ [firstAssertion doc]

section

variable {lib : XmlSignatures V} {doc : Element V}

theorem validateSingleNode_referenced {marked : List (List Nat)} {signature : Element V}
    (h : validateSingleNode lib doc marked signature = true) :
    ∃ target, referenced lib doc marked signature = some target := by
  unfold validateSingleNode at h
  split at h
  · exact ⟨_, ‹_›⟩
  · cases h

theorem referenced_cases
    (hmarked : ∀ marked id path, lib.getElementById doc marked id = some path → path ∈ marked)
    {marked : List (List Nat)} (hmarks : documentMarks doc = some marked) {signature : Element V}
    {target : List Nat} (h : referenced lib doc marked signature = some target) :
    target = [] ∨ target ∈ (assertionNodes doc).map (·.path) := by
  unfold referenced at h
  split at h
  · cases h
  · exact mem_documentMarks hmarks (hmarked _ _ _ h)

theorem IsResponse.root_not_assertion (h : IsResponse doc) :
    [] ∉ (assertionNodes doc).map (·.path) := by
  intro hmem
  obtain ⟨node, hnode, hpath⟩ := List.mem_map.mp hmem
  obtain ⟨hnodes, hassertion⟩ := mem_assertionNodes.mp hnode
  have helement : node.element = doc :=
    element_eq_of_path_eq hnodes (mem_nodesFrom_self [] none doc) hpath
  rw [helement, IsAssertion, h] at hassertion
  exact absurd hassertion (by decide)

theorem prefix_singleton_iff {target : List Nat} {i : Nat} :
    target <+: [i] ↔ target = [] ∨ target = [i] := by
  rw [List.prefix_cons_iff]
  simp

theorem Displaced.not_refersTo (h : Displaced lib doc) (hresponse : IsResponse doc) :
    ¬ SignatureRefersTo lib doc [firstAssertion doc] := by
  rintro ⟨marked, hmarked, node, hnode, target, htarget, hprefix⟩
  obtain ⟨target', htarget', hassertion, hne⟩ := h.elsewhere marked hmarked node hnode
  cases Option.some.inj (htarget.symm.trans htarget')
  rcases prefix_singleton_iff.mp hprefix with rfl | heq
  · exact hresponse.root_not_assertion hassertion
  · exact hne heq

/-- In a document with valid signatures one that is not referred to has displaced ones. -/
theorem displaced_of_not_refersTo
    (hmarked : ∀ marked id path, lib.getElementById doc marked id = some path → path ∈ marked)
    {marks : List (List Nat)} (hmarks : documentMarks doc = some marks)
    (hvalid : ∀ node ∈ signatureNodes doc, validateSingleNode lib doc marks node.element = true)
    (hsigned : signatureNodes doc ≠ [])
    (h : ¬ SignatureRefersTo lib doc [firstAssertion doc]) : Displaced lib doc := by
  refine ⟨hsigned, fun marked hmem node hnode => ?_⟩
  cases Option.some.inj (hmarks.symm.trans hmem)
  obtain ⟨target, htarget⟩ := validateSingleNode_referenced (hvalid node hnode)
  have hfree : ¬ target <+: [firstAssertion doc] :=
    fun hprefix => h ⟨marks, hmarks, node, hnode, target, htarget, hprefix⟩
  rw [prefix_singleton_iff, not_or] at hfree
  exact ⟨target, htarget, (referenced_cases hmarked hmarks htarget).resolve_left hfree.1, hfree.2⟩

theorem mem_nodes_of_getElement {name : String} {node : Node V}
    (h : getElement doc name = some node) : node ∈ nodes doc := by
  unfold getElement at h
  split at h
  · rename_i first rest hfound
    cases h
    have hmem : node ∈ getElementsByTagNameNS doc none name := hfound ▸ List.mem_cons_self
    exact (List.mem_filter.mp hmem).1
  · exact (List.mem_filter.mp (List.mem_of_head? h)).1

theorem signatureNodes_ne_nil {node : Node V} (hnode : node ∈ nodes doc)
    (h : isSignedElement node.element = true) : signatureNodes doc ≠ [] := by
  obtain ⟨signature, hsignature⟩ := Option.isSome_iff_exists.mp h
  obtain ⟨i, hi⟩ := List.mem_iff_getElem?.mp (List.mem_of_find?_eq_some hsignature)
  have hname : signature.qName = (some xmlDsigNsUri, "Signature") := by
    simpa using List.find?_some hsignature
  have hmem := child_mem_nodesFrom [] none doc node hnode i signature hi
  exact List.ne_nil_of_mem (List.mem_filter.mpr ⟨hmem, by simpa using hname⟩)

end

theorem handleSamlResponse_isResponse (env : Environment V) (config : Config)
    (samlResponse : String) (doc : Element V) (relayState clientId : Option String)
    (identity : BrokeredIdentityContext)
    (h : handleSamlResponse env config samlResponse doc relayState clientId =
      .authenticated identity) : IsResponse doc := by
  by_contra hother
  have hparse : parseDocument env doc = (env.parseStatusResponse doc).map .statusResponse :=
    if_neg hother
  unfold handleSamlResponse at h
  rw [hparse] at h
  cases hmessage : env.parseStatusResponse doc with
  | none => simp [hmessage] at h
  | some destination =>
      simp only [hmessage, Option.map_some] at h
      split at h
      · cases h
      · split at h <;> cases h

/-- The identity of an accepted response comes from its first assertion. A valid signature covers
it exactly if signed assertions are asked for or the document has a signature, and the signatures
there are do not all refer to other assertions. Where every signature refers to the element it
stands in and is the only one in it, they do not. -/
theorem authenticated_covered_iff (env : Environment V) (config : Config)
    (samlResponse : String) (doc : Element V) (relayState clientId : Option String)
    (identity : BrokeredIdentityContext) (hvalidate : config.validateSignature = true)
    (hplain : ∀ child ∈ doc.children, ¬ IsEncryptedAssertion child)
    (hmarked : ∀ marked id path, env.getElementById doc marked id = some path → path ∈ marked)
    (h : handleSamlResponse env config samlResponse doc relayState clientId =
      .authenticated identity) :
    (∃ element, doc.children[firstAssertion doc]? = some element ∧ IsAssertion element ∧
      env.parseAssertion element = some identity.samlAssertion) ∧
    (SignatureCovers env.toXmlSignatures doc [firstAssertion doc] ↔
      (config.wantAssertionsSigned = true ∨ signatureNodes doc ≠ []) ∧
        ¬ Displaced env.toXmlSignatures doc) ∧
    (Enveloped env.toXmlSignatures doc →
      (config.wantAssertionsSigned = true ∨ signatureNodes doc ≠ []) →
        SignatureCovers env.toXmlSignatures doc [firstAssertion doc]) := by
  obtain ⟨response, marked, hparse, hverify, hlogin⟩ :=
    handleSamlResponse_authenticated env config samlResponse doc relayState clientId identity
      hvalidate h
  obtain ⟨choice, more, hassertions, hidentity⟩ :=
    handleLoginResponse_authenticated env config samlResponse doc marked response relayState
      clientId identity hlogin
  have hresponse := handleSamlResponse_isResponse env config samlResponse doc relayState clientId
    identity h
  unfold parseResponse at hparse
  split at hparse
  case isFalse => cases hparse
  obtain ⟨before, element, after, assertion, hsplit, hbefore, helement, hparsed, hchoice⟩ :=
    processSubElements_first env doc.children hplain _ response hparse rfl choice more hassertions
  subst hchoice
  have hfirst := getElem?_firstAssertion doc before after element hsplit hbefore helement
  -- the check of the assertion: a signature is there if one is asked for
  have hsigned : config.wantAssertionsSigned = true ∨ signatureNodes doc ≠ [] →
      signatureNodes doc ≠ [] := by
    rintro (hwant | hsigned)
    · obtain ⟨node, hnode, hnodeSigned⟩ := handleLoginResponse_signed env config samlResponse doc
        marked response relayState clientId identity hassertions hwant hlogin
      exact signatureNodes_ne_nil (mem_nodes_of_getElement hnode) hnodeSigned
    · exact hsigned
  have hiff := signatureCovers_iff env doc (.response response) marked hverify [firstAssertion doc]
  -- the check of the document: the signatures there are have been validated
  have hvalid : signatureNodes doc ≠ [] → validateDocument env.toXmlSignatures doc =
      .valid marked := by
    intro hne
    unfold verifySignature at hverify
    split at hverify
    · exact absurd ‹_› hne
    · exact hverify
  refine ⟨⟨element, hfirst, helement, by rw [hidentity assertion rfl]; exact hparsed⟩, ?_, ?_⟩
  · rw [hiff]
    constructor
    · intro hrefers
      refine ⟨.inr ?_, fun hdisplaced => hdisplaced.not_refersTo hresponse hrefers⟩
      obtain ⟨_, _, node, hnode, _⟩ := hrefers
      exact List.ne_nil_of_mem hnode
    · rintro ⟨hasked, hkept⟩
      by_contra hfree
      have hne := hsigned hasked
      obtain ⟨hmarks, hnodes⟩ := validateDocument_valid _ _ _ (hvalid hne)
      exact hkept (displaced_of_not_refersTo hmarked hmarks hnodes hne hfree)
  · intro henveloped hasked
    rw [hiff]
    rcases henveloped.messageReferred hmarked (hvalid (hsigned hasked)) with hroot | ⟨-, hchildren⟩
    · obtain ⟨marks, hmarks, node, hnode, target, htarget, hprefix⟩ := hroot
      rw [List.prefix_nil] at hprefix
      exact ⟨marks, hmarks, node, hnode, target, htarget, hprefix ▸ List.nil_prefix⟩
    · exact hchildren _ element hfirst helement

/-- The signed response is accepted, and its enveloped signature covers the assertion. -/
theorem signedResponse_covered :
    ∃ identity, handleSamlResponse idpEnvironment (brokerConfig true) "" signedResponse none none =
        .authenticated identity ∧
      identity.id = "alice" ∧
      SignatureCovers idpEnvironment.toXmlSignatures signedResponse
        [firstAssertion signedResponse] := by
  have huser : authenticatedUser (brokerConfig true) signedResponse = some "alice" := by
    decide +kernel
  obtain ⟨identity, haccepted, hid⟩ := authenticatedUser_eq_some _ _ _ huser
  have hcovers := (authenticated_covered_iff idpEnvironment (brokerConfig true) ""
    signedResponse none none identity rfl (by decide +kernel) mem_of_idpEnvironment haccepted).2.2
  exact ⟨identity, haccepted, hid, hcovers signedResponse_enveloped (.inl rfl)⟩

/-- A response without any signature is accepted where signed assertions are not asked for; the
wrapped response is accepted for the subject of its unsigned assertion where they are. -/
theorem admin_authenticated_uncovered :
    (authenticatedUser (brokerConfig false) unsignedResponse = some "admin" ∧
      ¬ SignatureCovers idpEnvironment.toXmlSignatures unsignedResponse
        [firstAssertion unsignedResponse]) ∧
    (authenticatedUser (brokerConfig true) wrappedResponse = some "admin" ∧
      ¬ SignatureCovers idpEnvironment.toXmlSignatures wrappedResponse
        [firstAssertion wrappedResponse]) := by
  decide +kernel

end Keycloak.Saml
