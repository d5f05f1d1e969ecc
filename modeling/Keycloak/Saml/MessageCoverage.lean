import Keycloak.Saml.Endpoint
import Mathlib.Data.List.Perm.Subperm

/-!
# What the signatures of a valid document cover

`SAML2Signature.validate` checks every signature of a document by itself and compares the
number of those in assertions with the number of assertions. Where the signatures refer to is
not looked at: the first result says what the document has to be like for its message to be
covered, and the second that the two numbers suffice where every signature is enveloped in the
element it refers to.
-/

namespace Keycloak.Saml

variable {V : Type}

def IsResponse (element : Element V) : Prop :=
  element.qName = (some protocolNsUri, "Response")

instance (element : Element V) : Decidable (IsResponse element) :=
  inferInstanceAs (Decidable (element.qName = (some protocolNsUri, "Response")))

/-- A signature that passes core validation refers to the document element, or the document is a
response and each of its assertions is, or lies inside, an element referenced by one. -/
def MessageCovered (lib : XmlSignatures V) (doc : Element V) : Prop :=
  SignatureCovers lib doc [] ∨
    IsResponse doc ∧ ∀ i child, doc.children[i]? = some child → IsAssertion child →
      SignatureCovers lib doc [i]

/-- The references of the signatures point to the document element, or to each assertion of the
response or an element around it. -/
def MessageReferred (lib : XmlSignatures V) (doc : Element V) : Prop :=
  SignatureRefersTo lib doc [] ∨
    IsResponse doc ∧ ∀ i child, doc.children[i]? = some child → IsAssertion child →
      SignatureRefersTo lib doc [i]

/-! ## The nodes of a document -/

def Node.IsChildIn (node : Node V) (all : List (Node V)) : Prop :=
  ∃ parent ∈ all, ∃ i, node.path = parent.path ++ [i] ∧ node.parent = some parent.element ∧
    parent.element.children[i]? = some node.element

theorem Node.IsChildIn.mono {node : Node V} {all more : List (Node V)}
    (h : node.IsChildIn all) (hsub : all ⊆ more) : node.IsChildIn more := by
  obtain ⟨parent, hparent, hchild⟩ := h
  exact ⟨parent, hsub hparent, hchild⟩

mutual

theorem isChildIn_nodesFrom (path : List Nat) (parent : Option (Element V)) :
    ∀ (e : Element V), ∀ node ∈ nodesFrom path parent e,
      node = ⟨path, parent, e⟩ ∨ node.IsChildIn (nodesFrom path parent e)
  | .mk ns name attributes text info children => by
      intro node hnode
      rw [nodesFrom] at hnode ⊢
      rcases List.mem_cons.mp hnode with hhead | hchild
      · exact .inl hhead
      · right
        rcases isChildIn_childNodes path (.mk ns name attributes text info children) 0 children rfl
          node hchild with ⟨i, hpath, hparent, helement⟩ | hinner
        · exact ⟨_, List.mem_cons_self, i, hpath, hparent, helement⟩
        · exact hinner.mono (List.subset_cons_self _ _)

theorem isChildIn_childNodes (path : List Nat) (parent : Element V) :
    ∀ (i : Nat) (children : List (Element V)), parent.children.drop i = children →
      ∀ node ∈ childNodes path parent i children,
        (∃ j, node.path = path ++ [j] ∧ node.parent = some parent ∧
            parent.children[j]? = some node.element) ∨
          node.IsChildIn (childNodes path parent i children)
  | _, [] => by
      intro _ node hnode
      simp [childNodes] at hnode
  | i, child :: rest => by
      intro hdrop node hnode
      rw [childNodes] at hnode ⊢
      rcases List.mem_append.mp hnode with hfirst | hrest
      · rcases isChildIn_nodesFrom (path ++ [i]) (some parent) child node hfirst with rfl | hinner
        · refine .inl ⟨i, rfl, rfl, ?_⟩
          rw [← List.head?_drop, hdrop]
          rfl
        · exact .inr (hinner.mono (List.subset_append_left _ _))
      · have hdrop' : parent.children.drop (i + 1) = rest := by
          rw [← List.drop_drop, hdrop]
          rfl
        exact (isChildIn_childNodes path parent (i + 1) rest hdrop' node hrest).imp_right
          fun hinner => hinner.mono (List.subset_append_right _ _)

end

theorem nodes_cases {doc : Element V} {node : Node V} (h : node ∈ nodes doc) :
    node = ⟨[], none, doc⟩ ∨ node.IsChildIn (nodes doc) :=
  isChildIn_nodesFrom [] none doc node h

theorem Element.at?_append_singleton (e : Element V) (path : List Nat) (i : Nat) :
    e.at? (path ++ [i]) = (e.at? path).bind fun found => found.children[i]? := by
  induction path generalizing e with
  | nil =>
      simp only [List.nil_append, Element.at?, Option.bind_some]
      cases e.children[i]? <;> rfl
  | cons j path ih =>
      simp only [List.cons_append, Element.at?]
      cases e.children[j]? with
      | none => rfl
      | some child => exact ih child

theorem at?_path {doc : Element V} (length : Nat) : ∀ node ∈ nodes doc,
    node.path.length = length → doc.at? node.path = some node.element := by
  induction length with
  | zero =>
      intro node hnode hlength
      rcases nodes_cases hnode with rfl | ⟨parent, _, i, hpath, _⟩
      · rfl
      · simp [hpath] at hlength
  | succ length ih =>
      intro node hnode hlength
      rcases nodes_cases hnode with rfl | ⟨parent, hparent, i, hpath, _, helement⟩
      · simp at hlength
      · have hparentLength : parent.path.length = length := by
          simpa [hpath] using hlength
        rw [hpath, Element.at?_append_singleton, ih parent hparent hparentLength, Option.bind_some,
          helement]

theorem element_eq_of_path_eq {doc : Element V} {node other : Node V} (hnode : node ∈ nodes doc)
    (hother : other ∈ nodes doc) (hpath : node.path = other.path) :
    node.element = other.element := by
  have hfound := at?_path _ node hnode rfl
  rw [hpath, at?_path _ other hother rfl] at hfound
  exact (Option.some.inj hfound).symm

theorem mem_nodesFrom_self (path : List Nat) (parent : Option (Element V)) (e : Element V) :
    ⟨path, parent, e⟩ ∈ nodesFrom path parent e := by
  cases e
  rw [nodesFrom]
  exact List.mem_cons_self

theorem mem_childNodes (path : List Nat) (parent : Element V) {children : List (Element V)}
    {j : Nat} {child : Element V} (h : children[j]? = some child) (i : Nat) :
    ⟨path ++ [i + j], some parent, child⟩ ∈ childNodes path parent i children := by
  induction children generalizing i j with
  | nil => simp at h
  | cons first rest ih =>
      rw [childNodes]
      cases j with
      | zero =>
          cases h
          exact List.mem_append_left _ (mem_nodesFrom_self _ _ _)
      | succ j =>
          have hmem := ih (by simpa using h) (i + 1)
          rw [Nat.add_assoc, Nat.add_comm 1] at hmem
          exact List.mem_append_right _ hmem

mutual

theorem child_mem_nodesFrom (path : List Nat) (parent : Option (Element V)) :
    ∀ (e : Element V), ∀ node ∈ nodesFrom path parent e, ∀ i child,
      node.element.children[i]? = some child →
        ⟨node.path ++ [i], some node.element, child⟩ ∈ nodesFrom path parent e
  | .mk ns name attributes text info children => by
      intro node hnode i child hchild
      rw [nodesFrom] at hnode ⊢
      apply List.mem_cons_of_mem
      rcases List.mem_cons.mp hnode with rfl | hinner
      · have hmem := mem_childNodes path (.mk ns name attributes text info children) hchild 0
        rwa [Nat.zero_add] at hmem
      · exact child_mem_childNodes path _ 0 children node hinner i child hchild

theorem child_mem_childNodes (path : List Nat) (parent : Element V) :
    ∀ (i : Nat) (children : List (Element V)), ∀ node ∈ childNodes path parent i children,
      ∀ j child, node.element.children[j]? = some child →
        ⟨node.path ++ [j], some node.element, child⟩ ∈ childNodes path parent i children
  | _, [] => by
      intro node hnode
      simp [childNodes] at hnode
  | i, first :: rest => by
      intro node hnode j child hchild
      rw [childNodes] at hnode ⊢
      rcases List.mem_append.mp hnode with hfirst | hrest
      · exact List.mem_append_left _ (child_mem_nodesFrom _ _ first node hfirst j child hchild)
      · exact List.mem_append_right _
          (child_mem_childNodes path parent (i + 1) rest node hrest j child hchild)

end

theorem child_mem_nodes {doc child : Element V} {i : Nat} (h : doc.children[i]? = some child) :
    ⟨[i], some doc, child⟩ ∈ nodes doc :=
  child_mem_nodesFrom [] none doc ⟨[], none, doc⟩ (mem_nodesFrom_self _ _ doc) i child h

/-! ## The marks and the numbers -/

def assertionNodes (doc : Element V) : List (Node V) :=
  getElementsByTagNameNS doc (some assertionNsUri) "Assertion"

theorem mem_assertionNodes {doc : Element V} {node : Node V} :
    node ∈ assertionNodes doc ↔ node ∈ nodes doc ∧ IsAssertion node.element := by
  simp [assertionNodes, getElementsByTagNameNS, IsAssertion]

theorem foldlM_configureIdAttribute (all : List (Node V)) {marked marked' : List (List Nat)}
    (h : all.foldlM configureIdAttribute marked = some marked') :
    marked' = marked ++ all.map (·.path) := by
  induction all generalizing marked with
  | nil =>
      cases h
      simp
  | cons node rest ih =>
      rw [List.foldlM_cons] at h
      obtain ⟨next, hnext, hrest⟩ := Option.bind_eq_some_iff.mp h
      unfold configureIdAttribute at hnext
      split at hnext
      · cases hnext
      · cases hnext
        rw [ih hrest]
        simp

theorem mem_documentMarks {doc : Element V} {marked : List (List Nat)}
    (h : documentMarks doc = some marked) {path : List Nat} (hpath : path ∈ marked) :
    path = [] ∨ path ∈ (assertionNodes doc).map (·.path) := by
  obtain ⟨configured, hconfigured, rfl⟩ := Option.map_eq_some_iff.mp h
  rw [foldlM_configureIdAttribute _ hconfigured] at hpath
  simp only [List.nil_append, List.map_cons, List.cons_append, List.mem_cons, List.mem_append,
    List.not_mem_nil, or_false] at hpath
  rcases hpath with hroot | hassertion | hroot
  · exact .inl hroot
  · exact .inr hassertion
  · exact .inl hroot

/-- The loop over signatures that all stand in assertions counts each of them. -/
theorem validateLoop_count {lib : XmlSignatures V} {doc : Element V} {marked : List (List Nat)}
    {signatures : List (Node V)} (hparent : ∀ node ∈ signatures,
      ∃ parent, node.parent = some parent ∧ IsAssertion parent)
    {n : Nat} {ns : Option String} {result : Nat × Option String}
    (hns : ns = some assertionNsUri ∨ ns = none ∧ signatures ≠ [])
    (h : validateLoop lib doc marked signatures n ns = some result) :
    result = (n + signatures.length, some assertionNsUri) := by
  induction signatures generalizing n ns with
  | nil =>
      cases h
      simpa using hns
  | cons node rest ih =>
      obtain ⟨parent, hnode, hassertion⟩ := hparent node List.mem_cons_self
      obtain ⟨hnsParent, hname⟩ := Prod.mk.inj hassertion
      have hcounted : (if ns = none then parent.namespaceURI else ns) = some assertionNsUri := by
        rcases hns with rfl | ⟨rfl, _⟩
        · simp
        · simpa using hnsParent
      simp only [validateLoop, hnode, hname, if_true, hcounted] at h
      split at h
      · rw [ih (fun other hother => hparent other (List.mem_cons_of_mem _ hother)) (.inl rfl) h,
          List.length_cons]
        congr 1
        omega
      · cases h

/-! ## Enveloped signatures -/

def Node.parentPath (node : Node V) : List Nat := node.path.dropLast

/-- Every signature of the response refers to the element it stands in, and no two stand in one
element. -/
structure Enveloped (lib : XmlSignatures V) (doc : Element V) : Prop where
  isResponse : IsResponse doc
  refersToParent : ∀ marked ∈ documentMarks doc, ∀ node ∈ signatureNodes doc,
    referenced lib doc marked node.element = some node.parentPath
  alone : ((signatureNodes doc).map Node.parentPath).Nodup

theorem mem_signatureNodes {doc : Element V} {node : Node V} (h : node ∈ signatureNodes doc) :
    node ∈ nodes doc ∧ node.element.qName = (some xmlDsigNsUri, "Signature") := by
  simpa [signatureNodes, getElementsByTagNameNS] using h

/-- Where no signature refers to the document element, each stands in an assertion. -/
theorem Enveloped.stands_in_assertion {lib : XmlSignatures V} {doc : Element V}
    (h : Enveloped lib doc)
    (hmarked : ∀ marked id path, lib.getElementById doc marked id = some path → path ∈ marked)
    (hroot : ¬ SignatureRefersTo lib doc []) {marked : List (List Nat)}
    (hmarks : documentMarks doc = some marked) {node : Node V} (hnode : node ∈ signatureNodes doc) :
    ∃ parent ∈ assertionNodes doc, node.parentPath = parent.path ∧
      node.parent = some parent.element := by
  obtain ⟨hmem, hname⟩ := mem_signatureNodes hnode
  have hrefers := h.refersToParent marked hmarks node hnode
  rcases nodes_cases hmem with rfl | ⟨parent, hparent, i, hpath, hparentElement, _⟩
  · rw [h.isResponse] at hname
    exact absurd hname (by decide)
  have hparentPath : node.parentPath = parent.path := by
    simp [Node.parentPath, hpath]
  have hinMarks : node.parentPath ∈ marked := by
    unfold referenced at hrefers
    split at hrefers
    · cases hrefers
    · exact hmarked _ _ _ hrefers
  rcases mem_documentMarks hmarks hinMarks with hempty | hassertion
  · rw [hempty] at hrefers
    exact absurd ⟨marked, hmarks, node, hnode, [], hrefers, List.prefix_refl _⟩ hroot
  · obtain ⟨assertion, hassertionNode, hsame⟩ := List.mem_map.mp hassertion
    obtain ⟨hassertionMem, hisAssertion⟩ := mem_assertionNodes.mp hassertionNode
    have helement : parent.element = assertion.element :=
      element_eq_of_path_eq hparent hassertionMem (by rw [← hparentPath, hsame])
    exact ⟨parent, mem_assertionNodes.mpr ⟨hparent, helement ▸ hisAssertion⟩, hparentPath,
      hparentElement⟩

/-- Signatures that all stand in assertions are as many as the assertions of a valid document. -/
theorem length_assertionNodes {lib : XmlSignatures V} {doc : Element V} {marked : List (List Nat)}
    (hparent : ∀ node ∈ signatureNodes doc, ∃ parent, node.parent = some parent ∧
      IsAssertion parent)
    (h : validateSignatures lib doc marked = true) :
    (assertionNodes doc).length = (signatureNodes doc).length := by
  unfold validateSignatures at h
  split at h
  · cases h
  · rename_i hne
    split at h
    · cases h
    · rename_i signedAssertions assertionNameSpaceUri hloop
      have hresult := validateLoop_count hparent (.inr ⟨rfl, hne⟩) hloop
      cases hresult
      have hpos : 0 < (signatureNodes doc).length := List.length_pos_iff.mpr hne
      simpa [assertionNodes, hpos] using h

/-- The numbers match only if every assertion has its signature. -/
theorem Enveloped.messageReferred {lib : XmlSignatures V} {doc : Element V}
    (h : Enveloped lib doc)
    (hmarked : ∀ marked id path, lib.getElementById doc marked id = some path → path ∈ marked)
    {marks : List (List Nat)} (hvalid : validateDocument lib doc = .valid marks) :
    MessageReferred lib doc := by
  by_cases hroot : SignatureRefersTo lib doc []
  · exact .inl hroot
  refine .inr ⟨h.isResponse, fun i child hchild hassertion => ?_⟩
  have hmarks := (validateDocument_valid lib doc marks hvalid).1
  have hsignatures : validateSignatures lib doc marks = true := by
    simpa [validateDocument, hmarks] using hvalid
  have hstands : ∀ node ∈ signatureNodes doc, ∃ parent ∈ assertionNodes doc,
      node.parentPath = parent.path ∧ node.parent = some parent.element :=
    fun node hnode => h.stands_in_assertion hmarked hroot hmarks hnode
  have hlength : (assertionNodes doc).length = (signatureNodes doc).length := by
    refine length_assertionNodes (fun node hnode => ?_) hsignatures
    obtain ⟨parent, hparent, _, hparentElement⟩ := hstands node hnode
    exact ⟨parent.element, hparentElement, (mem_assertionNodes.mp hparent).2⟩
  have hsub : (signatureNodes doc).map Node.parentPath ⊆ (assertionNodes doc).map (·.path) := by
    intro path hpath
    obtain ⟨node, hnode, rfl⟩ := List.mem_map.mp hpath
    obtain ⟨parent, hparent, hparentPath, _⟩ := hstands node hnode
    exact List.mem_map.mpr ⟨parent, hparent, hparentPath.symm⟩
  have hperm : ((signatureNodes doc).map Node.parentPath).Perm
      ((assertionNodes doc).map (·.path)) :=
    (List.subperm_of_subset h.alone hsub).perm_of_length_le (by simp [hlength])
  have hchildPath : [i] ∈ (assertionNodes doc).map (·.path) :=
    List.mem_map.mpr ⟨_, mem_assertionNodes.mpr ⟨child_mem_nodes hchild, hassertion⟩, rfl⟩
  obtain ⟨node, hnode, hpath⟩ := List.mem_map.mp (hperm.mem_iff.mpr hchildPath)
  have hrefers := h.refersToParent marks hmarks node hnode
  rw [hpath] at hrefers
  exact ⟨marks, hmarks, node, hnode, [i], hrefers, List.prefix_refl _⟩

/-! ## Valid documents -/

/-- In a document with valid signatures an element is covered as soon as one refers to it. -/
theorem covers_iff_refersTo {lib : XmlSignatures V} {doc : Element V} {marks : List (List Nat)}
    (h : validateDocument lib doc = .valid marks) (path : List Nat) :
    SignatureCovers lib doc path ↔ SignatureRefersTo lib doc path := by
  obtain ⟨hmarks, hvalid⟩ := validateDocument_valid lib doc marks h
  constructor
  · rintro ⟨marked, hmarked, node, hnode, hrefers, _⟩
    exact ⟨marked, hmarked, node, hnode, hrefers⟩
  · rintro ⟨marked, hmarked, node, hnode, hrefers⟩
    cases hmarks.symm.trans hmarked
    exact ⟨marks, hmarks, node, hnode, hrefers, hvalid node hnode⟩

/-- A valid response covers its message where every signature refers to the element it stands in
and is the only one in it; the numbers then leave no assertion unsigned. In any valid document
the references decide, which are not checked. -/
theorem validDocument_covers_iff (lib : XmlSignatures V) (doc : Element V)
    (hmarked : ∀ marked id path, lib.getElementById doc marked id = some path → path ∈ marked)
    (marks : List (List Nat)) (h : validateDocument lib doc = .valid marks) :
    (MessageCovered lib doc ↔ MessageReferred lib doc) ∧
      (Enveloped lib doc → MessageCovered lib doc) := by
  have hiff : MessageCovered lib doc ↔ MessageReferred lib doc := by
    simp only [MessageCovered, MessageReferred, covers_iff_refersTo h]
  exact ⟨hiff, fun henveloped => hiff.mpr (henveloped.messageReferred hmarked h)⟩

theorem mem_of_idpEnvironment {doc : Element SealedContents} (marked : List (List Nat))
    (id : String) (path : List Nat)
    (h : idpEnvironment.getElementById doc marked id = some path) : path ∈ marked :=
  List.mem_reverse.mp (List.mem_of_find?_eq_some h)

theorem signedResponse_enveloped : Enveloped idpEnvironment.toXmlSignatures signedResponse where
  isResponse := by decide
  refersToParent := by decide +kernel
  alone := by decide +kernel

theorem signedResponse_messageCovered :
    Enveloped idpEnvironment.toXmlSignatures signedResponse ∧
      MessageCovered idpEnvironment.toXmlSignatures signedResponse := by
  have hvalid : validateDocument idpEnvironment.toXmlSignatures signedResponse =
      .valid [[], [1], []] := by
    decide +kernel
  exact ⟨signedResponse_enveloped, (validDocument_covers_iff _ _ mem_of_idpEnvironment _
    hvalid).2 signedResponse_enveloped⟩

/-- A message that is no response, with a signed assertion somewhere in it. -/
def wrappedRequest : Element SealedContents :=
  .mk protocolNsUri "LogoutRequest" [("ID", "request")] "" none
    [.mk protocolNsUri "Extensions" [] "" none
      [assertionOf "a1" "alice" [idpSignature "a1" "alice"]]]

/-- Both are valid: the request around an assertion, and the response whose unsigned assertion
carries two signatures of another one. -/
theorem wrapped_valid_uncovered :
    (validateDocument idpEnvironment.toXmlSignatures wrappedRequest = .valid [[], [0, 0], []] ∧
      ¬ MessageCovered idpEnvironment.toXmlSignatures wrappedRequest) ∧
    (validateDocument idpEnvironment.toXmlSignatures wrappedResponse =
        .valid [[], [1], [2, 0], []] ∧
      ¬ MessageCovered idpEnvironment.toXmlSignatures wrappedResponse) := by
  refine ⟨⟨by decide +kernel, ?_⟩, by decide +kernel, ?_⟩
  · rintro (hroot | ⟨hresponse, _⟩)
    · revert hroot
      decide +kernel
    · revert hresponse
      decide
  · rintro (hroot | ⟨_, hassertions⟩)
    · revert hroot
      decide +kernel
    · have hassertion := hassertions 1 _ rfl (by decide)
      revert hassertion
      decide +kernel

end Keycloak.Saml
