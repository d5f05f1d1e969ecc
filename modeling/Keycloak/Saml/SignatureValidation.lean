import Keycloak.Saml.Document

/-!
# Validation of the signatures of a document

`SAML2Signature.validate` with `XMLSignatureUtil.validate`, which check every `ds:Signature` of
a document, and `AssertionUtil.isSignatureValid`, which checks the one that is a direct child
of an element. A reference is resolved among the elements whose `ID` attribute has been marked
as an identifier so far; the marks are kept in the order in which they were made.
-/

namespace Keycloak.Saml

variable {V : Type}

def assertionNsUri : String := "urn:oasis:names:tc:SAML:2.0:assertion"

def protocolNsUri : String := "urn:oasis:names:tc:SAML:2.0:protocol"

def xmlDsigNsUri : String := "http://www.w3.org/2000/09/xmldsig#"

/-- The XML library. `getElementById` finds the element of an identifier among the elements at
the marked paths; `made value element` says that the value was made with a key of the identity
provider over exactly the contents of the element. -/
structure XmlSignatures (V : Type) where
  getElementById : Element V → List (List Nat) → String → Option (List Nat)
  made : V → Element V → Bool

def referenced (lib : XmlSignatures V) (doc : Element V) (marked : List (List Nat))
    (signature : Element V) : Option (List Nat) :=
  match signature.signatureInfo with
  | none => none
  | some info => lib.getElementById doc marked info.reference

/-- Core validation of one `ds:Signature` element with the keys of the identity provider. -/
def validateSingleNode (lib : XmlSignatures V) (doc : Element V) (marked : List (List Nat))
    (signature : Element V) : Bool :=
  match signature.signatureInfo, referenced lib doc marked signature with
  | some info, some path =>
      match doc.at? path with
      | some target => lib.made info.value target
      | none => false
  | _, _ => false

def signatureNodes (doc : Element V) : List (Node V) :=
  getElementsByTagNameNS doc (some xmlDsigNsUri) "Signature"

/-- `setIdAttribute` of the attribute `ID`, which fails where the element has none. -/
def configureIdAttribute (marked : List (List Nat)) (node : Node V) :
    Option (List (List Nat)) :=
  match node.element.getAttribute "ID" with
  | none => none
  | some _ => some (marked ++ [node.path])

/-- The marks made on the document element and on every assertion of the document. -/
def configureIdAttributes (doc : Element V) : Option (List (List Nat)) :=
  (⟨[], none, doc⟩ :: getElementsByTagNameNS doc (some assertionNsUri) "Assertion").foldlM
    configureIdAttribute []

/-- The loop over the signatures, with the number of those in an assertion and the namespace
of the first such assertion that has one. -/
def validateLoop (lib : XmlSignatures V) (doc : Element V) (marked : List (List Nat)) :
    List (Node V) → Nat → Option String → Option (Nat × Option String)
  | [], signedAssertions, assertionNameSpaceUri => some (signedAssertions, assertionNameSpaceUri)
  | node :: rest, signedAssertions, assertionNameSpaceUri =>
      let counted : Nat × Option String :=
        match node.parent with
        | none => (signedAssertions, assertionNameSpaceUri)
        | some parent =>
            if parent.localName = "Assertion" then
              (signedAssertions + 1,
                if assertionNameSpaceUri = none then parent.namespaceURI
                else assertionNameSpaceUri)
            else (signedAssertions, assertionNameSpaceUri)
      if validateSingleNode lib doc marked node.element then
        validateLoop lib doc marked rest counted.1 counted.2
      else none

def validateSignatures (lib : XmlSignatures V) (doc : Element V) (marked : List (List Nat)) :
    Bool :=
  match signatureNodes doc with
  | [] => false
  | signatures =>
      match validateLoop lib doc marked signatures 0 none with
      | none => false
      | some (signedAssertions, assertionNameSpaceUri) =>
          -- Unsigned assertions must not be mixed with signed ones.
          !(decide (0 < signedAssertions) &&
            (getElementsByTagNameNS doc assertionNameSpaceUri "Assertion").length !=
              signedAssertions)

inductive Verification where
  | valid (marks : List (List Nat))
  | invalid
  | failed
deriving DecidableEq, Repr

/-- The marks under which the signatures of the document are validated: those of
`configureIdAttribute`, and the document element once more by `propagateIDAttributeSetup`. -/
def documentMarks (doc : Element V) : Option (List (List Nat)) :=
  (configureIdAttributes doc).map (· ++ [[]])

/-- `SAML2Signature.validate`. -/
def validateDocument (lib : XmlSignatures V) (doc : Element V) : Verification :=
  match documentMarks doc with
  | none => .failed
  | some marked => if validateSignatures lib doc marked then .valid marked else .invalid

def getSignature (element : Element V) : Option (Element V) :=
  getDirectChildElement element (some xmlDsigNsUri) "Signature"

def isSignedElement (element : Element V) : Bool := (getSignature element).isSome

/-- `AssertionUtil.isSignatureValid` of an element of the document. -/
def isSignatureValid (lib : XmlSignatures V) (doc : Element V) (marked : List (List Nat))
    (node : Node V) : Bool :=
  match configureIdAttribute marked node with
  | none => false
  | some marked' =>
      match getSignature node.element with
      | none => false
      | some signature => validateSingleNode lib doc marked' signature

theorem validateLoop_valid (lib : XmlSignatures V) (doc : Element V) (marked : List (List Nat))
    (signatures : List (Node V)) (n : Nat) (ns : Option String) (result : Nat × Option String)
    (h : validateLoop lib doc marked signatures n ns = some result) :
    ∀ node ∈ signatures, validateSingleNode lib doc marked node.element = true := by
  induction signatures generalizing n ns with
  | nil => simp
  | cons node rest ih =>
      simp only [validateLoop] at h
      split at h
      · rename_i hvalid
        intro other hother
        rcases List.mem_cons.mp hother with rfl | hrest
        · exact hvalid
        · exact ih _ _ h other hrest
      · cases h

theorem validateSignatures_valid (lib : XmlSignatures V) (doc : Element V)
    (marked : List (List Nat)) (h : validateSignatures lib doc marked = true) :
    ∀ node ∈ signatureNodes doc, validateSingleNode lib doc marked node.element = true := by
  unfold validateSignatures at h
  split at h
  · cases h
  · split at h
    · cases h
    · rename_i hloop
      exact validateLoop_valid lib doc marked _ 0 none _ hloop

theorem validateDocument_valid (lib : XmlSignatures V) (doc : Element V)
    (marks : List (List Nat)) (h : validateDocument lib doc = .valid marks) :
    documentMarks doc = some marks ∧
      ∀ node ∈ signatureNodes doc, validateSingleNode lib doc marks node.element = true := by
  unfold validateDocument at h
  split at h
  · cases h
  · rename_i marked hmarked
    split at h
    · rename_i hvalid
      cases h
      exact ⟨hmarked, validateSignatures_valid lib doc _ hvalid⟩
    · cases h

end Keycloak.Saml
