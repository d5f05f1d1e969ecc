import Mathlib.Data.List.Basic

/-!
# The SAML document as a tree

The DOM tree that the SAML code walks, with the positions of its elements, and the searches
of `DocumentUtil`. An element is found at a path of child indices from the document element,
so that two elements of equal content stay apart. The type `V` of signature values is left
open: what a value was made over is decided by the XML signature library.
-/

namespace Keycloak.Saml

/-- `ds:SignedInfo` with its one reference, and `ds:SignatureValue`. -/
structure SignatureInfo (V : Type) where
  reference : String
  value : V
deriving DecidableEq, Repr

inductive Element (V : Type) where
  | mk (namespaceURI : Option String) (localName : String) (attributes : List (String × String))
      (text : String) (signatureInfo : Option (SignatureInfo V)) (children : List (Element V))

namespace Element

variable {V : Type}

def namespaceURI : Element V → Option String
  | mk ns _ _ _ _ _ => ns

def localName : Element V → String
  | mk _ name _ _ _ _ => name

def attributes : Element V → List (String × String)
  | mk _ _ attributes _ _ _ => attributes

def text : Element V → String
  | mk _ _ _ text _ _ => text

def signatureInfo : Element V → Option (SignatureInfo V)
  | mk _ _ _ _ info _ => info

def children : Element V → List (Element V)
  | mk _ _ _ _ _ children => children

def getAttribute (e : Element V) (name : String) : Option String :=
  e.attributes.lookup name

/-- The qualified name of the element: namespace and local name. -/
def qName (e : Element V) : Option String × String :=
  (e.namespaceURI, e.localName)

def at? (e : Element V) : List Nat → Option (Element V)
  | [] => some e
  | i :: path =>
      match e.children[i]? with
      | none => none
      | some child => child.at? path

end Element

variable {V : Type}

/-- An element of a document with its position and its parent element. -/
structure Node (V : Type) where
  path : List Nat
  parent : Option (Element V)
  element : Element V

mutual

def nodesFrom (path : List Nat) (parent : Option (Element V)) : Element V → List (Node V)
  | .mk ns name attributes text info children =>
      ⟨path, parent, .mk ns name attributes text info children⟩ ::
        childNodes path (.mk ns name attributes text info children) 0 children

def childNodes (path : List Nat) (parent : Element V) : Nat → List (Element V) → List (Node V)
  | _, [] => []
  | i, child :: rest =>
      nodesFrom (path ++ [i]) (some parent) child ++ childNodes path parent (i + 1) rest

end

def nodes (doc : Element V) : List (Node V) := nodesFrom [] none doc

/-- `getElementsByTagNameNS`; `none` asks for elements without a namespace. -/
def getElementsByTagNameNS (doc : Element V) (ns : Option String) (name : String) :
    List (Node V) :=
  (nodes doc).filter fun node => node.element.qName = (ns, name)

def getElementsByLocalName (doc : Element V) (name : String) : List (Node V) :=
  (nodes doc).filter fun node => node.element.localName = name

/-- `DocumentUtil.getElement` for a name without namespace: the first such element, or else the
first of that local name in any namespace. -/
def getElement (doc : Element V) (name : String) : Option (Node V) :=
  match getElementsByTagNameNS doc none name with
  | node :: _ => some node
  | [] => (getElementsByLocalName doc name).head?

def getDirectChildElement (parent : Element V) (ns : Option String) (name : String) :
    Option (Element V) :=
  parent.children.find? fun child => child.qName = (ns, name)

end Keycloak.Saml
