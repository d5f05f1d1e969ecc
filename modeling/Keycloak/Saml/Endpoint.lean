import Keycloak.Saml.SignatureValidation

/-!
# The SAML endpoint of the identity broker

`SAMLEndpoint.handleSamlResponse` with the POST binding, and the loop of `SAMLResponseParser`
over the children of the response. The parsers of the children and the destination check are
taken as parameters: nothing below depends on which children they accept.

The data of the identity come from the first parsed assertion, while signatures are checked on
the document.
-/

namespace Keycloak.Saml

variable {V : Type}

structure NameIDType where
  value : String
  format : Option String
deriving DecidableEq, Repr

structure AttributeType where
  friendlyName : Option String
  name : Option String
  attributeValue : List (Option String)
deriving DecidableEq, Repr

inductive StatementType where
  | authn (sessionIndex : Option String)
  | attributes (attributes : List AttributeType)
deriving DecidableEq, Repr

/-- The part of `AssertionType` that the endpoint reads. `subject` is the subject with its
`STSubType` and that with its `NameIDType`, each of which may be missing. -/
structure AssertionType where
  id : String
  subject : Option (Option (Option NameIDType))
  statements : List StatementType
deriving DecidableEq, Repr

structure StatusType where
  statusCode : Option (Option String)
  statusMessage : Option String
deriving DecidableEq, Repr

inductive RTChoiceType where
  | assertion (assertion : AssertionType)
  | encryptedAssertion
deriving DecidableEq, Repr

structure ResponseType where
  destination : Option String
  status : Option StatusType
  assertions : List RTChoiceType
deriving DecidableEq, Repr

/-- What the endpoint takes from elsewhere: the XML libraries, the parsers of the parts of a
response, and the check of the destination. -/
structure Environment (V : Type) extends XmlSignatures V where
  decryptElementInDocument : Element V → Option (Element V)
  parseIssueInstant : String → Bool
  parseNameIDType : Element V → Bool
  parseAssertion : Element V → Option AssertionType
  parseEncryptedAssertion : Element V → Bool
  parseStatus : Element V → Option StatusType
  /-- The parsers of the messages other than a response that have a destination. -/
  parseStatusResponse : Element V → Option (Option String)
  validDestination : Option String → Bool
  /-- The order in which the hash set of attribute statements is walked. -/
  attributeStatementOrder : List (List AttributeType) → List (List AttributeType)

structure Config where
  providerAlias : String
  validateSignature : Bool
  wantAssertionsSigned : Bool
  wantAssertionsEncrypted : Bool
  storeToken : Bool
deriving DecidableEq, Repr

/-- `SAMLResponseParser.processSubElement`; `none` is a parsing exception. -/
def processSubElement (env : Environment V) (target : ResponseType) (child : Element V) :
    Option ResponseType :=
  if child.qName = (some assertionNsUri, "Issuer") then
    if env.parseNameIDType child then some target else none
  else if child.qName = (some xmlDsigNsUri, "Signature") then some target
  else if child.qName = (some assertionNsUri, "Assertion") then
    match env.parseAssertion child with
    | none => none
    | some assertion =>
        some { target with assertions := target.assertions ++ [.assertion assertion] }
  else if child.qName = (some protocolNsUri, "Extensions") then some target
  else if child.qName = (some protocolNsUri, "Status") then
    match env.parseStatus child with
    | none => none
    | some status => some { target with status := some status }
  else if child.qName = (some assertionNsUri, "EncryptedAssertion") then
    if env.parseEncryptedAssertion child then
      some { target with assertions := target.assertions ++ [.encryptedAssertion] }
    else none
  else none

/-- `SAMLResponseParser`: the attributes of the response, then its children in order. -/
def parseResponse (env : Environment V) (doc : Element V) : Option ResponseType :=
  if doc.getAttribute "Version" = some "2.0" ∧ (doc.getAttribute "ID").isSome ∧
      (doc.getAttribute "IssueInstant").any env.parseIssueInstant = true then
    doc.children.foldlM (processSubElement env)
      { destination := doc.getAttribute "Destination", status := none, assertions := [] }
  else none

/-- The parsed message: a `ResponseType`, or the destination of another `StatusResponseType`. -/
inductive SamlObject where
  | response (response : ResponseType)
  | statusResponse (destination : Option String)
deriving DecidableEq, Repr

def SamlObject.destination : SamlObject → Option String
  | .response r => r.destination
  | .statusResponse d => d

def parseDocument (env : Environment V) (doc : Element V) : Option SamlObject :=
  if doc.qName = (some protocolNsUri, "Response") then (parseResponse env doc).map .response
  else (env.parseStatusResponse doc).map .statusResponse

def verifySignature (env : Environment V) (doc : Element V) (object : SamlObject) :
    Verification :=
  match signatureNodes doc, object with
  -- Only relaxed for a response that contains an assertion.
  | [], .response ⟨_, _, _ :: _⟩ => .valid []
  | _, _ => validateDocument env.toXmlSignatures doc

structure BrokeredIdentityContext where
  id : String
  username : String
  email : Option String
  token : Option String
  brokerUserId : String
  brokerSessionId : Option String
  code : Option String
  samlLoginResponse : ResponseType
  samlAssertion : AssertionType
  samlAuthnStatement : Option (Option String)
  samlIdpInitiatedClientId : Option String
deriving DecidableEq, Repr

inductive Answer where
  | errorPage (error : String) (message : String)
  | callbackError (message : Option String)
  | logoutResponse
  | exception
  | authenticated (identity : BrokeredIdentityContext)
deriving DecidableEq, Repr

def statusSuccess : String := "urn:oasis:names:tc:SAML:2.0:status:Success"

def isSuccessfulSamlResponse (response : ResponseType) : Bool :=
  match response.status with
  | some ⟨some (some value), _⟩ => value = statusSuccess
  | _ => false

/-- `AssertionUtil.decryptAssertion`: the decrypted element and what it parses to. The first
choice of the response is an encrypted assertion, which has no identifier to be found by. -/
def decryptAssertion (env : Environment V) (doc : Element V) :
    Option (Element V × AssertionType) :=
  match getElement doc "EncryptedAssertion" with
  | none => none
  | some node =>
      if (node.element.getAttribute "ID").getD "" = "" then
        match env.decryptElementInDocument node.element with
        | none => none
        | some element => (env.parseAssertion element).map (element, ·)
      else none

/-- The element whose signature is checked, the document and the marks it is checked in, and the
assertion that the identity is taken from; `none` is an exception. -/
def locateAssertion (env : Environment V) (doc : Element V) (marked : List (List Nat)) :
    RTChoiceType → Option (Element V × List (List Nat) × Node V × AssertionType)
  | .encryptedAssertion =>
      (decryptAssertion env doc).map fun found => (found.1, [], ⟨[], none, found.1⟩, found.2)
  | .assertion assertion =>
      (getElement doc "Assertion").map fun node => (doc, marked, node, assertion)

def isEmailAttribute (a : AttributeType) : Bool :=
  a.friendlyName = some "email" || a.name = some "urn:oid:1.2.840.113549.1.9.1"

/-- The email address after the attributes of all statements; `none` where an attribute value
is `null`. -/
def emailFromAttributes (email : Option String) (attributes : List AttributeType) :
    Option (Option String) :=
  attributes.foldlM
    (fun email a =>
      if isEmailAttribute a then
        match a.attributeValue with
        | [] => some email
        | none :: _ => none
        | some value :: _ => some (some value)
      else some email)
    email

def nameIdFormatEmail : String := "urn:oasis:names:tc:SAML:1.1:nameid-format:emailAddress"

/-- The identity built from the first assertion; `none` is an exception. -/
def brokeredIdentity (env : Environment V) (config : Config) (samlResponse : String)
    (response : ResponseType) (assertion : AssertionType) (relayState clientId : Option String) :
    Option BrokeredIdentityContext :=
  match assertion.subject with
  | some (some (some nameID)) =>
      let authn := assertion.statements.findSome? fun
        | .authn sessionIndex => some sessionIndex
        | .attributes _ => none
      let attributes := env.attributeStatementOrder (assertion.statements.filterMap fun
        | .attributes attributes => some attributes
        | .authn _ => none)
      let email := if nameID.format = some nameIdFormatEmail then some nameID.value else none
      let brokerUserId := config.providerAlias ++ "." ++ nameID.value
      (emailFromAttributes email attributes.flatten).map fun email =>
        { id := nameID.value
          username := nameID.value
          email := email
          token := if config.storeToken then some samlResponse else none
          brokerUserId := brokerUserId
          brokerSessionId := authn.join.map (brokerUserId ++ "." ++ ·)
          code := relayState
          samlLoginResponse := response
          samlAssertion := assertion
          samlAuthnStatement := authn
          samlIdpInitiatedClientId := clientId.filter (fun id => id.trimAscii.copy ≠ "") }
  | _ => none

/-- `handleLoginResponse`, after a check of the document that left the given marks. -/
def handleLoginResponse (env : Environment V) (config : Config) (samlResponse : String)
    (doc : Element V) (marked : List (List Nat)) (response : ResponseType)
    (relayState clientId : Option String) : Answer :=
  if isSuccessfulSamlResponse response = false then
    match response.status with
    | none => .callbackError (some "identityProviderUnexpectedErrorMessage")
    | some status => .callbackError status.statusMessage
  else
    match response.assertions with
    | [] => .callbackError (some "identityProviderUnexpectedErrorMessage")
    | choice :: _ =>
        if config.wantAssertionsEncrypted = true ∧ choice ≠ .encryptedAssertion then
          .errorPage "invalid_saml_response" "invalidRequesterMessage"
        else
          match locateAssertion env doc marked choice with
          | none => .exception
          | some (holder, marks, node, assertion) =>
              let signed := isSignedElement node.element
              if (config.wantAssertionsSigned && !signed) ||
                  (signed && config.validateSignature &&
                    !isSignatureValid env.toXmlSignatures holder marks node) then
                .errorPage "invalid_signature" "invalidRequesterMessage"
              else
                match brokeredIdentity env config samlResponse response assertion relayState
                    clientId with
                | none => .exception
                | some identity => .authenticated identity

/-- `handleSamlResponse` with the POST binding. -/
def handleSamlResponse (env : Environment V) (config : Config) (samlResponse : String)
    (doc : Element V) (relayState clientId : Option String) : Answer :=
  match parseDocument env doc with
  | none => .exception
  | some object =>
      if env.validDestination object.destination = false then
        .errorPage "invalid_saml_response" "invalidFederatedIdentityActionMessage"
      else
        match (if config.validateSignature then verifySignature env doc object else .valid []) with
        | .failed => .exception
        | .invalid => .errorPage "invalid_signature" "invalidFederatedIdentityActionMessage"
        | .valid marked =>
            match object with
            | .response response =>
                handleLoginResponse env config samlResponse doc marked response relayState
                  clientId
            | .statusResponse _ => .logoutResponse

/-! ## The first assertion of a parsed response -/

def IsAssertion (element : Element V) : Prop :=
  element.qName = (some assertionNsUri, "Assertion")

instance (element : Element V) : Decidable (IsAssertion element) :=
  inferInstanceAs (Decidable (element.qName = (some assertionNsUri, "Assertion")))

def IsEncryptedAssertion (element : Element V) : Prop :=
  element.qName = (some assertionNsUri, "EncryptedAssertion")

instance (element : Element V) : Decidable (IsEncryptedAssertion element) :=
  inferInstanceAs (Decidable (element.qName = (some assertionNsUri, "EncryptedAssertion")))

theorem processSubElement_cases (env : Environment V) (target target' : ResponseType)
    (child : Element V) (h : processSubElement env target child = some target') :
    (IsAssertion child ∧ ∃ assertion, env.parseAssertion child = some assertion ∧
      target'.assertions = target.assertions ++ [.assertion assertion]) ∨
    (IsEncryptedAssertion child ∧
      target'.assertions = target.assertions ++ [.encryptedAssertion]) ∨
    (¬ IsAssertion child ∧ target'.assertions = target.assertions) := by
  unfold processSubElement at h
  unfold IsAssertion IsEncryptedAssertion
  split at h
  · rename_i hissuer
    split at h
    · cases h
      right; right
      exact ⟨by rw [hissuer]; decide, rfl⟩
    · cases h
  split at h
  · rename_i hsignature
    cases h
    right; right
    exact ⟨by rw [hsignature]; decide, rfl⟩
  split at h
  · rename_i hassertion
    split at h
    · cases h
    · rename_i assertion hparse
      cases h
      exact .inl ⟨hassertion, assertion, hparse, rfl⟩
  · rename_i hassertion
    split at h
    · cases h
      exact .inr (.inr ⟨hassertion, rfl⟩)
    split at h
    · split at h
      · cases h
      · cases h
        exact .inr (.inr ⟨hassertion, rfl⟩)
    split at h
    · rename_i hencrypted
      split at h
      · cases h
        exact .inr (.inl ⟨hencrypted, rfl⟩)
      · cases h
    · cases h

/-- Children parsed later do not change the assertions parsed before. -/
theorem processSubElements_append (env : Environment V) (children : List (Element V))
    (target response : ResponseType)
    (h : children.foldlM (processSubElement env) target = some response) :
    ∃ more, response.assertions = target.assertions ++ more := by
  induction children generalizing target with
  | nil =>
      cases h
      exact ⟨[], by simp⟩
  | cons child rest ih =>
      rw [List.foldlM_cons] at h
      cases hstep : processSubElement env target child with
      | none => simp [hstep] at h
      | some target' =>
          rw [hstep] at h
          obtain ⟨more, hmore⟩ := ih target' h
          rcases processSubElement_cases env target target' child hstep with
            ⟨_, assertion, _, hassertions⟩ | ⟨_, hassertions⟩ | ⟨_, hassertions⟩
          · exact ⟨.assertion assertion :: more, by rw [hmore, hassertions]; simp⟩
          · exact ⟨.encryptedAssertion :: more, by rw [hmore, hassertions]; simp⟩
          · exact ⟨more, by rw [hmore, hassertions]⟩

/-- Without encrypted assertions, the first choice of the response is what the first child named
`Assertion` is parsed to. -/
theorem processSubElements_first (env : Environment V) (children : List (Element V))
    (hplain : ∀ child ∈ children, ¬ IsEncryptedAssertion child) (target response : ResponseType)
    (h : children.foldlM (processSubElement env) target = some response)
    (hnone : target.assertions = []) (choice : RTChoiceType) (more : List RTChoiceType)
    (hassertions : response.assertions = choice :: more) :
    ∃ before element after assertion, children = before ++ element :: after ∧
      (∀ child ∈ before, ¬ IsAssertion child) ∧ IsAssertion element ∧
      env.parseAssertion element = some assertion ∧ choice = .assertion assertion := by
  induction children generalizing target with
  | nil =>
      cases h
      rw [hnone] at hassertions
      cases hassertions
  | cons child rest ih =>
      rw [List.foldlM_cons] at h
      cases hstep : processSubElement env target child with
      | none => simp [hstep] at h
      | some target' =>
          rw [hstep] at h
          rcases processSubElement_cases env target target' child hstep with
            ⟨hchild, assertion, hparse, htarget⟩ | ⟨hchild, _⟩ | ⟨hchild, htarget⟩
          · obtain ⟨later, hlater⟩ := processSubElements_append env rest target' response h
            rw [htarget, hnone, hassertions] at hlater
            have hchoice : choice = .assertion assertion := (List.cons.inj hlater).1
            exact ⟨[], child, rest, assertion, rfl, by simp, hchild, hparse, hchoice⟩
          · exact absurd hchild (hplain child List.mem_cons_self)
          · have hrest : ∀ c ∈ rest, ¬ IsEncryptedAssertion c :=
              fun c hc => hplain c (List.mem_cons_of_mem child hc)
            obtain ⟨before, element, after, assertion, hsplit, hbefore, hfound⟩ :=
              ih hrest target' h (htarget.trans hnone)
            refine ⟨child :: before, element, after, assertion, by rw [hsplit]; rfl, ?_, hfound⟩
            intro c hc
            rcases List.mem_cons.mp hc with rfl | hc
            · exact hchild
            · exact hbefore c hc

/-! ## What an accepted response has passed -/

theorem brokeredIdentity_assertion (env : Environment V) (config : Config)
    (samlResponse : String) (response : ResponseType) (assertion : AssertionType)
    (relayState clientId : Option String) (identity : BrokeredIdentityContext)
    (h : brokeredIdentity env config samlResponse response assertion relayState clientId =
      some identity) :
    identity.samlAssertion = assertion := by
  unfold brokeredIdentity at h
  split at h
  · obtain ⟨email, _, rfl⟩ := Option.map_eq_some_iff.mp h
    rfl
  · cases h

theorem handleLoginResponse_authenticated (env : Environment V) (config : Config)
    (samlResponse : String) (doc : Element V) (marked : List (List Nat))
    (response : ResponseType) (relayState clientId : Option String)
    (identity : BrokeredIdentityContext)
    (h : handleLoginResponse env config samlResponse doc marked response relayState clientId =
      .authenticated identity) :
    ∃ choice more, response.assertions = choice :: more ∧
      ∀ assertion, choice = .assertion assertion → identity.samlAssertion = assertion := by
  unfold handleLoginResponse at h
  split at h
  · split at h <;> cases h
  split at h
  · cases h
  rename_i choice more hassertions
  refine ⟨choice, more, hassertions, ?_⟩
  rintro assertion rfl
  split at h
  · cases h
  split at h
  · cases h
  rename_i hlocate
  obtain ⟨node, _, hfound⟩ := Option.map_eq_some_iff.mp hlocate
  cases hfound
  dsimp only at h
  split at h
  · cases h
  split at h
  · cases h
  rename_i found hidentity
  cases h
  exact brokeredIdentity_assertion env config samlResponse response _ relayState clientId _
    hidentity

/-- Where signed assertions are asked for, the element found for the assertion has a signature. -/
theorem handleLoginResponse_signed (env : Environment V) (config : Config)
    (samlResponse : String) (doc : Element V) (marked : List (List Nat))
    (response : ResponseType) (relayState clientId : Option String)
    (identity : BrokeredIdentityContext) {assertion : AssertionType} {more : List RTChoiceType}
    (hassertions : response.assertions = .assertion assertion :: more)
    (hwant : config.wantAssertionsSigned = true)
    (h : handleLoginResponse env config samlResponse doc marked response relayState clientId =
      .authenticated identity) :
    ∃ node, getElement doc "Assertion" = some node ∧ isSignedElement node.element = true := by
  unfold handleLoginResponse at h
  rw [hassertions] at h
  split at h
  · split at h <;> cases h
  dsimp only at h
  split at h
  · cases h
  split at h
  · cases h
  rename_i hlocate
  obtain ⟨node, hnode, hfound⟩ := Option.map_eq_some_iff.mp hlocate
  cases hfound
  refine ⟨_, hnode, ?_⟩
  by_contra hunsigned
  rw [Bool.not_eq_true] at hunsigned
  simp [hwant, hunsigned] at h

theorem verifySignature_valid (env : Environment V) (doc : Element V) (object : SamlObject)
    (marks : List (List Nat)) (h : verifySignature env doc object = .valid marks) :
    signatureNodes doc = [] ∨
      (documentMarks doc = some marks ∧ ∀ node ∈ signatureNodes doc,
        validateSingleNode env.toXmlSignatures doc marks node.element = true) := by
  unfold verifySignature at h
  split at h
  · exact .inl ‹_›
  · exact .inr (validateDocument_valid env.toXmlSignatures doc marks h)

theorem handleSamlResponse_authenticated (env : Environment V) (config : Config)
    (samlResponse : String) (doc : Element V) (relayState clientId : Option String)
    (identity : BrokeredIdentityContext) (hvalidate : config.validateSignature = true)
    (h : handleSamlResponse env config samlResponse doc relayState clientId =
      .authenticated identity) :
    ∃ response marked, parseResponse env doc = some response ∧
      verifySignature env doc (.response response) = .valid marked ∧
      handleLoginResponse env config samlResponse doc marked response relayState clientId =
        .authenticated identity := by
  unfold handleSamlResponse at h
  rw [hvalidate] at h
  split at h
  · cases h
  rename_i object hparse
  split at h
  · cases h
  split at h
  · cases h
  · cases h
  rename_i marked hverify
  cases object with
  | statusResponse destination => cases h
  | response response =>
      unfold parseDocument at hparse
      split at hparse
      · obtain ⟨parsed, hparsed, hobject⟩ := Option.map_eq_some_iff.mp hparse
        cases hobject
        exact ⟨response, marked, hparsed, hverify, h⟩
      · obtain ⟨_, _, hobject⟩ := Option.map_eq_some_iff.mp hparse
        cases hobject

/-- Some signature of the document refers to the element at the path or to one around it. -/
def SignatureRefersTo (lib : XmlSignatures V) (doc : Element V) (path : List Nat) : Prop :=
  ∃ marked ∈ documentMarks doc, ∃ node ∈ signatureNodes doc,
    ∃ target ∈ referenced lib doc marked node.element, target <+: path

instance (lib : XmlSignatures V) (doc : Element V) (path : List Nat) :
    Decidable (SignatureRefersTo lib doc path) :=
  inferInstanceAs (Decidable (∃ marked ∈ documentMarks doc, ∃ node ∈ signatureNodes doc,
    ∃ target ∈ referenced lib doc marked node.element, target <+: path))

/-- The element at the path is, or lies inside, an element referenced by a signature of the
document for which core validation succeeds. -/
def SignatureCovers (lib : XmlSignatures V) (doc : Element V) (path : List Nat) : Prop :=
  ∃ marked ∈ documentMarks doc, ∃ node ∈ signatureNodes doc,
    (∃ target ∈ referenced lib doc marked node.element, target <+: path) ∧
      validateSingleNode lib doc marked node.element = true

instance (lib : XmlSignatures V) (doc : Element V) (path : List Nat) :
    Decidable (SignatureCovers lib doc path) :=
  inferInstanceAs (Decidable (∃ marked ∈ documentMarks doc, ∃ node ∈ signatureNodes doc,
    (∃ target ∈ referenced lib doc marked node.element, target <+: path) ∧
      validateSingleNode lib doc marked node.element = true))

theorem signatureCovers_iff (env : Environment V) (doc : Element V) (object : SamlObject)
    (marks : List (List Nat)) (h : verifySignature env doc object = .valid marks)
    (path : List Nat) :
    SignatureCovers env.toXmlSignatures doc path ↔
      SignatureRefersTo env.toXmlSignatures doc path := by
  constructor
  · rintro ⟨marked, hmarked, node, hnode, hrefers, _⟩
    exact ⟨marked, hmarked, node, hnode, hrefers⟩
  · rintro ⟨marked, hmarked, node, hnode, hrefers⟩
    rcases verifySignature_valid env doc object marks h with hnone | ⟨hmarks, hvalid⟩
    · rw [hnone] at hnode
      cases hnode
    · have heq : marks = marked := Option.some.inj (hmarks.symm.trans hmarked)
      subst heq
      exact ⟨marks, hmarked, node, hnode, hrefers, hvalid node hnode⟩

/-- The index of the first assertion among the children of the response. -/
def firstAssertion (doc : Element V) : Nat :=
  doc.children.findIdx fun child => decide (IsAssertion child)

theorem getElem?_firstAssertion (doc : Element V) (before after : List (Element V))
    (element : Element V) (hsplit : doc.children = before ++ element :: after)
    (hbefore : ∀ child ∈ before, ¬ IsAssertion child) (helement : IsAssertion element) :
    doc.children[firstAssertion doc]? = some element := by
  have hindex : firstAssertion doc = before.length := by
    unfold firstAssertion
    rw [hsplit, List.findIdx_append, if_neg (by simpa using hbefore)]
    simp [List.findIdx_cons, helement]
  rw [hindex, hsplit]
  simp

/-! ## Responses of one identity provider -/

structure ElementContents where
  namespaceURI : Option String
  localName : String
  attributes : List (String × String)
  text : String
deriving DecidableEq, Repr

mutual

/-- The element and its descendants without the signatures among them, as left by the
enveloped-signature transform. -/
def contents : Element V → List ElementContents
  | .mk ns name attributes text _ children =>
      ⟨ns, name, attributes, text⟩ :: contentsOfAll children

def contentsOfAll : List (Element V) → List ElementContents
  | [] => []
  | child :: rest =>
      if child.qName = (some xmlDsigNsUri, "Signature") then contentsOfAll rest
      else contents child ++ contentsOfAll rest

end

structure SealedContents where
  owner : String
  signed : List ElementContents
deriving DecidableEq, Repr

/-- Identifiers are looked up in a table that keeps the last element marked for each. -/
def idpEnvironment : Environment SealedContents where
  getElementById doc marked id :=
    marked.reverse.find? fun path => (doc.at? path).bind (·.getAttribute "ID") = some id
  made value element := decide (value = ⟨"idp", contents element⟩)
  decryptElementInDocument _ := none
  parseIssueInstant instant := instant ≠ ""
  parseNameIDType _ := true
  parseAssertion element :=
    (element.getAttribute "ID").map fun id =>
      { id := id
        subject := (element.children.find? (·.localName = "Subject")).map fun subject =>
          (subject.children.find? (·.localName = "NameID")).map fun nameID =>
            some { value := nameID.text, format := nameID.getAttribute "Format" }
        statements := [] }
  parseEncryptedAssertion _ := true
  parseStatus element :=
    some
      { statusCode := (element.children.find? (·.localName = "StatusCode")).map
          (·.getAttribute "Value")
        statusMessage := none }
  parseStatusResponse _ := none
  validDestination destination := destination = none
  attributeStatementOrder := id

def brokerConfig (wantAssertionsSigned : Bool) : Config where
  providerAlias := "saml"
  validateSignature := true
  wantAssertionsSigned := wantAssertionsSigned
  wantAssertionsEncrypted := false
  storeToken := false

def successStatus : Element SealedContents :=
  .mk protocolNsUri "Status" [] "" none
    [.mk protocolNsUri "StatusCode" [("Value", statusSuccess)] "" none []]

def assertionOf (id subject : String) (signatures : List (Element SealedContents)) :
    Element SealedContents :=
  .mk assertionNsUri "Assertion" [("ID", id)] "" none
    (signatures ++
      [.mk assertionNsUri "Subject" [] "" none [.mk assertionNsUri "NameID" [] subject none []]])

/-- A signature of the identity provider on an assertion about a subject. -/
def idpSignature (id subject : String) : Element SealedContents :=
  .mk xmlDsigNsUri "Signature" [] ""
    (some ⟨id, ⟨"idp", contents (assertionOf id subject [])⟩⟩) []

def responseOf (children : List (Element SealedContents)) : Element SealedContents :=
  .mk protocolNsUri "Response"
    [("ID", "response"), ("Version", "2.0"), ("IssueInstant", "2018-01-01T00:00:00Z")] "" none
    (successStatus :: children)

def signedResponse : Element SealedContents :=
  responseOf [assertionOf "a1" "alice" [idpSignature "a1" "alice"]]

def unsignedResponse : Element SealedContents :=
  responseOf [assertionOf "a2" "admin" []]

/-- The signed assertion moved into the extensions, behind one that carries its signature
twice. -/
def wrappedResponse : Element SealedContents :=
  responseOf
    [assertionOf "a2" "admin" [idpSignature "a1" "alice", idpSignature "a1" "alice"],
      .mk protocolNsUri "Extensions" [] "" none [assertionOf "a1" "alice" []]]

def authenticatedUser (config : Config) (doc : Element SealedContents) : Option String :=
  match handleSamlResponse idpEnvironment config "" doc none none with
  | .authenticated identity => some identity.id
  | _ => none

theorem authenticatedUser_eq_some (config : Config) (doc : Element SealedContents)
    (user : String) (h : authenticatedUser config doc = some user) :
    ∃ identity, handleSamlResponse idpEnvironment config "" doc none none =
      .authenticated identity ∧ identity.id = user := by
  unfold authenticatedUser at h
  split at h
  · rename_i identity hidentity
    exact ⟨identity, hidentity, Option.some.inj h⟩
  · cases h

end Keycloak.Saml
