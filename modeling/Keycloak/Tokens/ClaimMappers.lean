import Keycloak.Lib.Machine
import Keycloak.Lib.PathTree

/-!
# Token claims of protocol mappers

`mapClaim` puts an attribute value into the claims of a token, at the end of the path that
the mapper's claim name is split into.  The mappers of a client run one after the other on
one token; this module says when they leave each other's claims alone.
-/

namespace Keycloak.Tokens.ClaimMappers

/-! ## The mapped value -/

inductive AttributeValue where
  | null
  | boolean (b : Bool)
  | string (s : List Char)
  | long (n : Int)
  | integer (n : Int)
  | other (id : Nat)
  | list (items : List AttributeValue)

def AttributeValue.isNull : AttributeValue → Bool
  | null => true
  | _ => false

inductive JavaClass where
  | boolean
  | string
  | long
  | integer
  deriving DecidableEq

def AttributeValue.isInstance : AttributeValue → JavaClass → Bool
  | boolean _, .boolean => true
  | string _, .string => true
  | long _, .long => true
  | integer _, .integer => true
  | _, _ => false

inductive Failure where
  | classCast
  | cannotMapType
  | numberFormat
  deriving DecidableEq

structure JavaLang where
  longValueOf : List Char → Option Int
  integerValueOf : List Char → Option Int
  toString : AttributeValue → List Char

/-- The entries of a mapper's configuration that `mapClaim` reads. -/
structure ProtocolMapperModel where
  jsonType : Option String
  tokenClaimName : Option (List Char)
  multivalued : Option String

def isMultivalued (mappingModel : ProtocolMapperModel) : Bool :=
  mappingModel.multivalued == some "true"

section

variable (java : JavaLang)

def getString (attributeValue : AttributeValue) : Except Failure AttributeValue :=
  .ok (.string (java.toString attributeValue))

def getLong : AttributeValue → Except Failure AttributeValue
  | .long n => .ok (.long n)
  | .string s =>
      match java.longValueOf s with
      | some n => .ok (.long n)
      | none => .error .numberFormat
  | _ => .ok .null

def getInteger : AttributeValue → Except Failure AttributeValue
  | .integer n => .ok (.integer n)
  | .string s =>
      match java.integerValueOf s with
      | some n => .ok (.integer n)
      | none => .error .numberFormat
  | _ => .ok .null

/-- `Boolean.valueOf` is true for the text `true` in any case. -/
def getBoolean : AttributeValue → Except Failure AttributeValue
  | .boolean b => .ok (.boolean b)
  | .string s => .ok (.boolean (s.map Char.toLower == "true".toList))
  | _ => .ok .null

/-- The method reference `mapper` casts an item to the element type of the list. -/
def transform (element : JavaClass) (mapper : AttributeValue → Except Failure AttributeValue)
    (attributeValue : List AttributeValue) : Except Failure AttributeValue :=
  AttributeValue.list <$> (attributeValue.filter fun item => !item.isNull).mapM fun item =>
    if item.isInstance element then mapper item else .error .classCast

/-- The cases `boolean`, `long` and `int` of `convertToType`. -/
def convertWith (element : JavaClass) (get : AttributeValue → Except Failure AttributeValue)
    (attributeValue : AttributeValue) : Except Failure AttributeValue := do
  let object ← get attributeValue
  if object.isNull then
    match attributeValue with
    | .list items => transform element get items
    | _ => .error .cannotMapType
  else
    .ok object

def convertToType (type : Option String) (attributeValue : AttributeValue) :
    Except Failure AttributeValue :=
  match type with
  | none => .ok attributeValue
  | some type =>
      if attributeValue.isNull then .ok attributeValue
      else if type = "boolean" then convertWith .boolean getBoolean attributeValue
      else if type = "String" then
        match attributeValue with
        | .string s => .ok (.string s)
        | .list items => transform .string (getString java) items
        | _ => getString java attributeValue
      else if type = "long" then convertWith .long (getLong java) attributeValue
      else if type = "int" then convertWith .integer (getInteger java) attributeValue
      else .ok .null

/-- The end of `mapAttributeValue`: the converted value, if there is one. -/
def convert (mappingModel : ProtocolMapperModel) (attributeValue : AttributeValue) :
    Except Failure AttributeValue := do
  let converted ← convertToType java mappingModel.jsonType attributeValue
  if converted.isNull then .ok attributeValue else .ok converted

mutual

def mapAttributeValue (mappingModel : ProtocolMapperModel) :
    AttributeValue → Except Failure AttributeValue
  | .null => .ok .null
  | .list items =>
      match items.head? with
      | none => .ok .null
      | some first =>
          if isMultivalued mappingModel then
            AttributeValue.list <$> mapAttributeValues mappingModel items
          else
            convert java mappingModel first
  | attributeValue => convert java mappingModel attributeValue

/-- The loop over the items of a multivalued attribute. -/
def mapAttributeValues (mappingModel : ProtocolMapperModel) :
    List AttributeValue → Except Failure (List AttributeValue)
  | [] => .ok []
  | valueItem :: rest => do
      let item ← mapAttributeValue mappingModel valueItem
      let result ← mapAttributeValues mappingModel rest
      .ok (item :: result)

end

end

/-! ## Claim names -/

/-- The characters that the dot of a regular expression does not match. -/
def isLineTerminator (c : Char) : Bool :=
  ['\n', '\r', '\u0085', '\u2028', '\u2029'].contains c

/-- Literal characters up to an unescaped dot, with the text behind the dot. -/
def literalsToDot : List Char → Option (List Char × List Char)
  | [] => none
  | [c] => if c = '.' then some ([], []) else none
  | c :: d :: rest =>
      if c = '.' then some ([], d :: rest)
      else if c = '\\' then
        if isLineTerminator d then none
        else (literalsToDot rest).map fun m => (c :: d :: m.1, m.2)
      else (literalsToDot (d :: rest)).map fun m => (c :: m.1, m.2)

/-- `CLAIM_COMPONENT`: the group, and where the next region starts. -/
def claimComponent (region : List Char) : Option (List Char × List Char) :=
  (literalsToDot region).filter fun m => !m.1.isEmpty

/-- `BACKSLASHED_CHARACTER`, every match replaced by its group. -/
def unescape : List Char → List Char
  | [] => []
  | [c] => [c]
  | c :: d :: rest =>
      if c = '\\' ∧ isLineTerminator d = false then d :: unescape rest
      else c :: unescape (d :: rest)

/-- The loop over the matches; each of them takes a character, so the fuel is not used up. -/
def splitRegion : Nat → List Char → List (List Char)
  | 0, _ => []
  | fuel + 1, region =>
      match claimComponent region with
      | some m => unescape m.1 :: splitRegion fuel m.2
      | none => if region = [] then [] else [unescape region]

def splitClaimPath (claimPath : List Char) : List (List Char) :=
  splitRegion (claimPath.length + 1) claimPath

/-! ## The claims of a token -/

abbrev ClaimValue := {v : AttributeValue // v.isNull = false}

/-- The map `otherClaims`; an entry with the value null is no entry. -/
abbrev OtherClaims := List (List Char × PathTree (List Char) ClaimValue)

def OtherClaims.find (otherClaims : OtherClaims) (path : List (List Char)) :
    Option (PathTree (List Char) ClaimValue) :=
  (PathTree.node otherClaims).walk path

/-- The cast to a map fails where the loop meets a value; no map was made before it. -/
def mapClaim (java : JavaLang) (otherClaims : OtherClaims) (mappingModel : ProtocolMapperModel)
    (attributeValue : AttributeValue) : Except Failure OtherClaims := do
  let attributeValue ← mapAttributeValue java mappingModel attributeValue
  if h : attributeValue.isNull = false then
    match mappingModel.tokenClaimName with
    | none => .ok otherClaims
    | some protocolClaim =>
        match PathTree.put ⟨attributeValue, h⟩ otherClaims (splitClaimPath protocolClaim) with
        | some otherClaims => .ok otherClaims
        | none => .error .classCast
  else
    .ok otherClaims

/-! ## Claim names from components -/

def escape (component : List Char) : List Char :=
  component.flatMap fun c => if c = '.' ∨ c = '\\' then ['\\', c] else [c]

def claimName (components : List (List Char)) : List Char :=
  ['.'].intercalate (components.map escape)

section

variable {c d : Char} {rest region component : List Char}

theorem escape_cons_special (h : c = '.' ∨ c = '\\') :
    escape (c :: rest) = '\\' :: c :: escape rest := by
  simp [escape, h]

theorem escape_cons_plain (h : ¬ (c = '.' ∨ c = '\\')) : escape (c :: rest) = c :: escape rest := by
  simp [escape, h]

theorem not_lineTerminator (h : c = '.' ∨ c = '\\') : isLineTerminator c = false := by
  rcases h with rfl | rfl <;> rfl

theorem escape_eq_nil_iff : escape component = [] ↔ component = [] := by
  constructor
  · intro h
    cases component with
    | nil => rfl
    | cons c rest =>
        by_cases hc : c = '.' ∨ c = '\\'
        · rw [escape_cons_special hc] at h
          cases h
        · rw [escape_cons_plain hc] at h
          cases h
  · rintro rfl
    rfl

theorem literalsToDot_backslash (h : isLineTerminator d = false) :
    literalsToDot ('\\' :: d :: rest) =
      (literalsToDot rest).map fun m => ('\\' :: d :: m.1, m.2) := by
  simp [literalsToDot, h]

theorem literalsToDot_plain (h : ¬ (c = '.' ∨ c = '\\')) :
    literalsToDot (c :: rest) = (literalsToDot rest).map fun m => (c :: m.1, m.2) := by
  rw [not_or] at h
  cases rest with
  | nil => simp [literalsToDot, h.1]
  | cons d rest => simp [literalsToDot, h.1, h.2]

theorem literalsToDot_dot : literalsToDot ('.' :: rest) = some ([], rest) := by
  cases rest <;> rfl

theorem literalsToDot_escape (component rest : List Char) :
    literalsToDot (escape component ++ '.' :: rest) = some (escape component, rest) := by
  induction component with
  | nil => exact literalsToDot_dot
  | cons c component ih =>
      by_cases hc : c = '.' ∨ c = '\\'
      · rw [escape_cons_special hc, List.cons_append, List.cons_append,
          literalsToDot_backslash (not_lineTerminator hc), ih]
        rfl
      · rw [escape_cons_plain hc, List.cons_append, literalsToDot_plain hc, ih]
        rfl

theorem literalsToDot_escape_eq_none (component : List Char) :
    literalsToDot (escape component) = none := by
  induction component with
  | nil => rfl
  | cons c component ih =>
      by_cases hc : c = '.' ∨ c = '\\'
      · rw [escape_cons_special hc, literalsToDot_backslash (not_lineTerminator hc), ih]
        rfl
      · rw [escape_cons_plain hc, literalsToDot_plain hc, ih]
        rfl

theorem unescape_plain (h : c ≠ '\\') : unescape (c :: rest) = c :: unescape rest := by
  cases rest with
  | nil => rfl
  | cons d rest => simp [unescape, h]

theorem unescape_escape (component : List Char) : unescape (escape component) = component := by
  induction component with
  | nil => rfl
  | cons c component ih =>
      by_cases hc : c = '.' ∨ c = '\\'
      · rw [escape_cons_special hc]
        simp [unescape, not_lineTerminator hc, ih]
      · rw [escape_cons_plain hc, unescape_plain (fun h => hc (.inr h)), ih]

theorem claimName_cons_cons (next : List Char) (components : List (List Char)) :
    claimName (component :: next :: components) =
      escape component ++ '.' :: claimName (next :: components) := by
  simp [claimName, List.intercalate_cons_cons]

theorem claimComponent_escape (h : component ≠ []) (rest : List Char) :
    claimComponent (escape component ++ '.' :: rest) = some (escape component, rest) := by
  have hne : escape component ≠ [] := fun hnil => h (escape_eq_nil_iff.mp hnil)
  rw [claimComponent, literalsToDot_escape]
  simp [hne]

theorem claimComponent_escape_eq_none (component : List Char) :
    claimComponent (escape component) = none := by
  rw [claimComponent, literalsToDot_escape_eq_none]
  rfl

theorem splitRegion_claimName {components : List (List Char)} {fuel : Nat}
    (hne : components ≠ []) (hnil : ∀ component ∈ components, component ≠ [])
    (hfuel : components.length ≤ fuel) :
    splitRegion fuel (claimName components) = components := by
  induction fuel generalizing components with
  | zero => exact absurd (List.eq_nil_of_length_eq_zero (Nat.le_zero.mp hfuel)) hne
  | succ fuel ih =>
      cases components with
      | nil => exact absurd rfl hne
      | cons component components =>
          have hcomponent : component ≠ [] := hnil component List.mem_cons_self
          cases components with
          | nil =>
              have hname : claimName [component] = escape component := by simp [claimName]
              simp [hname, splitRegion, claimComponent_escape_eq_none, escape_eq_nil_iff,
                hcomponent, unescape_escape]
          | cons next components =>
              have hrest := ih (List.cons_ne_nil next components)
                (fun c hc => hnil c (List.mem_cons_of_mem component hc))
                (Nat.le_of_succ_le_succ hfuel)
              rw [claimName_cons_cons, splitRegion, claimComponent_escape hcomponent]
              simp only [unescape_escape, hrest]

theorem length_le_length_claimName {components : List (List Char)}
    (hnil : ∀ component ∈ components, component ≠ []) :
    components.length ≤ (claimName components).length := by
  induction components with
  | nil => exact Nat.zero_le _
  | cons component components ih =>
      have hrest := ih fun c hc => hnil c (List.mem_cons_of_mem component hc)
      have hcomponent : 0 < (escape component).length :=
        List.length_pos_of_ne_nil fun h =>
          hnil component List.mem_cons_self (escape_eq_nil_iff.mp h)
      cases components with
      | nil => simpa [claimName, Nat.succ_le_iff] using hcomponent
      | cons next components =>
          have hlength : (claimName (component :: next :: components)).length =
              (escape component).length + ((claimName (next :: components)).length + 1) := by
            rw [claimName_cons_cons, List.length_append, List.length_cons]
          rw [hlength, List.length_cons]
          omega

/-- A claim name is split into the components it was made from. -/
theorem splitClaimPath_claimName {components : List (List Char)} (hne : components ≠ [])
    (hnil : ∀ component ∈ components, component ≠ []) :
    splitClaimPath (claimName components) = components :=
  splitRegion_claimName hne hnil ((length_le_length_claimName hnil).trans (Nat.le_succ _))

end

example : splitClaimPath "c\\h\\.b.a\\\\\\.b".toList = ["ch.b".toList, "a\\.b".toList] := by
  decide +kernel

/-! ## The calls of a run -/

/-- A call of `mapClaim` by a mapper without a claim type, for a name made from components. -/
structure Call where
  mapper : ProtocolMapperModel
  components : List (List Char)
  value : AttributeValue
  untyped : mapper.jsonType = none
  named : mapper.tokenClaimName = some (claimName components)
  components_ne_nil : components ≠ []
  ne_nil_of_mem : ∀ component ∈ components, component ≠ []
  value_not_null : value.isNull = false

/-- The call has a value to map: not an empty list, and not a list whose first item is null
where only the first item counts. -/
def Call.Maps (call : Call) : Prop :=
  match call.value with
  | .list items => ∃ first rest, items = first :: rest ∧
      (isMultivalued call.mapper = true ∨ first.isNull = false)
  | _ => True

def step (java : JavaLang) (otherClaims : OtherClaims) (call : Call) : Option OtherClaims :=
  (mapClaim java otherClaims call.mapper call.value).toOption

/-- The call does not fail, the mapped value is found, and what was found elsewhere is kept. -/
def Right (java : JavaLang) (otherClaims : OtherClaims) (call : Call) : Prop :=
  ∃ after, mapClaim java otherClaims call.mapper call.value = .ok after ∧
    (∀ v : ClaimValue, mapAttributeValue java call.mapper call.value = .ok v.1 →
      after.find call.components = some (.leaf v)) ∧
    ∀ path claim, ¬ path <+: call.components → ¬ call.components <+: path →
      otherClaims.find path = some claim → after.find path = some claim

section

variable {mappingModel : ProtocolMapperModel}

theorem convert_of_untyped {java : JavaLang} (h : mappingModel.jsonType = none)
    (attributeValue : AttributeValue) :
    convert java mappingModel attributeValue = .ok attributeValue := by
  cases attributeValue <;>
    simp [convert, h, convertToType, AttributeValue.isNull, bind, Except.bind]

mutual

theorem exists_mapAttributeValue (java : JavaLang) (h : mappingModel.jsonType = none) :
    ∀ attributeValue, ∃ v, mapAttributeValue java mappingModel attributeValue = .ok v
  | .null => ⟨.null, by rw [mapAttributeValue]⟩
  | .list items => by
      obtain ⟨result, hresult⟩ := exists_mapAttributeValues java h items
      rw [mapAttributeValue]
      cases items.head? with
      | none => exact ⟨.null, rfl⟩
      | some first =>
          by_cases hmulti : isMultivalued mappingModel = true
          · exact ⟨.list result, by simp [hmulti, hresult]⟩
          · exact ⟨first, by simp [hmulti, convert_of_untyped h]⟩
  | .boolean b => ⟨.boolean b, by simp [mapAttributeValue, convert_of_untyped h]⟩
  | .string s => ⟨.string s, by simp [mapAttributeValue, convert_of_untyped h]⟩
  | .long n => ⟨.long n, by simp [mapAttributeValue, convert_of_untyped h]⟩
  | .integer n => ⟨.integer n, by simp [mapAttributeValue, convert_of_untyped h]⟩
  | .other id => ⟨.other id, by simp [mapAttributeValue, convert_of_untyped h]⟩

theorem exists_mapAttributeValues (java : JavaLang) (h : mappingModel.jsonType = none) :
    ∀ items, ∃ result, mapAttributeValues java mappingModel items = .ok result
  | [] => ⟨[], by rw [mapAttributeValues]⟩
  | item :: rest => by
      obtain ⟨v, hv⟩ := exists_mapAttributeValue java h item
      obtain ⟨result, hresult⟩ := exists_mapAttributeValues java h rest
      exact ⟨v :: result, by simp [mapAttributeValues, hv, hresult, bind, Except.bind]⟩

end

end

section

variable {java : JavaLang} {call : Call} {otherClaims after : OtherClaims}

theorem Call.split (call : Call) : splitClaimPath (claimName call.components) = call.components :=
  splitClaimPath_claimName call.components_ne_nil call.ne_nil_of_mem

/-- What a call maps is null exactly if it has nothing to map. -/
theorem Call.maps_iff {v : AttributeValue}
    (h : mapAttributeValue java call.mapper call.value = .ok v) : call.Maps ↔ v.isNull = false := by
  have hnull := call.value_not_null
  unfold Call.Maps
  cases hvalue : call.value with
  | null =>
      rw [hvalue] at hnull
      cases hnull
  | list items =>
      rw [hvalue, mapAttributeValue] at h
      cases items with
      | nil =>
          cases h
          simp [AttributeValue.isNull]
      | cons first rest =>
          obtain ⟨result, hresult⟩ :=
            exists_mapAttributeValues java call.untyped (first :: rest)
          by_cases hmulti : isMultivalued call.mapper = true
          · have hv : v = .list result := by
              simpa [hmulti, hresult, eq_comm] using h
            subst hv
            simp [hmulti, AttributeValue.isNull]
          · have hv : v = first := by
              simpa [hmulti, convert_of_untyped call.untyped, eq_comm] using h
            subst hv
            simp [hmulti]
  | _ =>
      have hv : v = call.value := by
        simpa [hvalue, mapAttributeValue, convert_of_untyped call.untyped, eq_comm] using h
      simp [hv, hvalue, AttributeValue.isNull]

theorem mapClaim_of_not_maps (h : ¬ call.Maps) :
    mapClaim java otherClaims call.mapper call.value = .ok otherClaims := by
  obtain ⟨v, hv⟩ := exists_mapAttributeValue java call.untyped call.value
  have hnull : ¬ v.isNull = false := fun hnull => h ((Call.maps_iff hv).mpr hnull)
  simp [mapClaim, hv, hnull, bind, Except.bind]

theorem mapClaim_of_value (v : ClaimValue)
    (h : mapAttributeValue java call.mapper call.value = .ok v.1) :
    mapClaim java otherClaims call.mapper call.value =
      match PathTree.put v otherClaims call.components with
      | some after => .ok after
      | none => .error .classCast := by
  simp [mapClaim, h, v.2, call.named, call.split, bind, Except.bind]

theorem exists_claimValue (java : JavaLang) (h : call.Maps) :
    ∃ v : ClaimValue, mapAttributeValue java call.mapper call.value = .ok v.1 := by
  obtain ⟨v, hv⟩ := exists_mapAttributeValue java call.untyped call.value
  exact ⟨⟨v, (Call.maps_iff hv).mp h⟩, hv⟩

/-- A value can be mapped unless another value stands on the way. -/
theorem right_iff :
    Right java otherClaims call ↔
      (call.Maps → ¬ PathTree.Blocked otherClaims call.components) := by
  by_cases hmaps : call.Maps
  · obtain ⟨v, hv⟩ := exists_claimValue java hmaps
    have hmap : mapClaim java otherClaims call.mapper call.value =
        match PathTree.put v otherClaims call.components with
        | some after => .ok after
        | none => .error .classCast := mapClaim_of_value v hv
    rw [← PathTree.put_eq_none_iff (v := v)]
    cases hput : PathTree.put v otherClaims call.components with
    | none =>
        refine iff_of_false ?_ (fun h => h hmaps rfl)
        rintro ⟨after, hafter, -⟩
        rw [hmap, hput] at hafter
        cases hafter
    | some after =>
        refine iff_of_true ⟨after, ?_, ?_, ?_⟩ (fun _ => Option.some_ne_none after)
        · rw [hmap, hput]
        · intro w hw
          obtain rfl : v = w := Subtype.ext (Except.ok.inj (hv.symm.trans hw))
          exact PathTree.walk_put_self call.components_ne_nil hput
        · intro path claim hpath hcomponents hfind
          exact hfind ▸ PathTree.walk_put_elsewhere hput hpath hcomponents
  · refine iff_of_true ⟨otherClaims, mapClaim_of_not_maps hmaps, ?_, ?_⟩ (fun h => absurd h hmaps)
    · intro v hv
      exact absurd ((Call.maps_iff hv).mpr v.2) hmaps
    · intro path claim _ _ hfind
      exact hfind

theorem step_of_not_maps (h : ¬ call.Maps) : step java otherClaims call = some otherClaims := by
  rw [step, mapClaim_of_not_maps h]
  rfl

/-- One call blocks the paths that go on from its own. -/
theorem exists_step (java : JavaLang) (hmaps : call.Maps)
    (hfree : ¬ PathTree.Blocked otherClaims call.components) :
    ∃ after, step java otherClaims call = some after ∧ ∀ path,
      PathTree.Blocked after path ↔ PathTree.Blocked otherClaims path ∨
        call.components <+: path ∧ call.components ≠ path := by
  obtain ⟨v, hv⟩ := exists_claimValue java hmaps
  cases hput : PathTree.put v otherClaims call.components with
  | none => exact absurd (PathTree.put_eq_none_iff.mp hput) hfree
  | some after =>
      refine ⟨after, ?_, fun path => PathTree.blocked_put_iff call.components_ne_nil hput⟩
      rw [step, mapClaim_of_value v hv, hput]
      rfl

end

/-- No call that maps a value has a path through a value: neither one that the token has
before the calls nor one that an earlier call maps. -/
def Compatible (otherClaims : OtherClaims) (calls : List Call) : Prop :=
  (∀ call ∈ calls, call.Maps → ¬ PathTree.Blocked otherClaims call.components) ∧
    calls.Pairwise fun earlier later => earlier.Maps → later.Maps →
      ¬ (earlier.components <+: later.components ∧ earlier.components ≠ later.components)

theorem compatible_cons_of_not_maps {otherClaims : OtherClaims} {call : Call} {rest : List Call}
    (h : ¬ call.Maps) : Compatible otherClaims (call :: rest) ↔ Compatible otherClaims rest := by
  simp [Compatible, h]

theorem compatible_cons {otherClaims after : OtherClaims} {call : Call} {rest : List Call}
    (hmaps : call.Maps) (hfree : ¬ PathTree.Blocked otherClaims call.components)
    (hafter : ∀ path, PathTree.Blocked after path ↔ PathTree.Blocked otherClaims path ∨
      call.components <+: path ∧ call.components ≠ path) :
    Compatible otherClaims (call :: rest) ↔ Compatible after rest := by
  simp only [Compatible, List.forall_mem_cons, List.pairwise_cons, hafter]
  constructor
  · rintro ⟨⟨-, hrest⟩, hcall, hpairwise⟩
    refine ⟨fun later hlater hm => ?_, hpairwise⟩
    rintro (hblocked | hlonger)
    · exact hrest later hlater hm hblocked
    · exact hcall later hlater hmaps hm hlonger
  · rintro ⟨hrest, hpairwise⟩
    refine ⟨⟨fun _ => hfree, fun later hlater hm hblocked => ?_⟩, ?_, hpairwise⟩
    · exact hrest later hlater hm (.inl hblocked)
    · exact fun later hlater _ hm hlonger => hrest later hlater hm (.inr hlonger)

/-- The mappers of a token leave each other's claims alone exactly if their claims are
compatible with each other and with those that the token has. -/
theorem claimsKept_iff (java : JavaLang) (otherClaims : OtherClaims) (calls : List Call) :
    Machine.Meets (step java) (Right java) otherClaims calls ↔ Compatible otherClaims calls := by
  induction calls generalizing otherClaims with
  | nil => exact iff_of_true trivial ⟨by simp, List.Pairwise.nil⟩
  | cons call rest ih =>
      rw [Machine.Meets, right_iff]
      by_cases hmaps : call.Maps
      · by_cases hfree : PathTree.Blocked otherClaims call.components
        · exact iff_of_false (fun h => h.1 hmaps hfree)
            (fun h => h.1 call List.mem_cons_self hmaps hfree)
        · obtain ⟨after, hstep, hafter⟩ := exists_step java hmaps hfree
          rw [compatible_cons hmaps hfree hafter, ← ih after, hstep]
          simp [hfree]
      · rw [compatible_cons_of_not_maps hmaps, ← ih otherClaims, step_of_not_maps hmaps]
        simp [hmaps]

def stringCall (name : List (List Char)) (value : String) (hne : name ≠ [])
    (hnil : ∀ component ∈ name, component ≠ []) : Call where
  mapper := ⟨none, some (claimName name), none⟩
  components := name
  value := .string value.toList
  untyped := rfl
  named := rfl
  components_ne_nil := hne
  ne_nil_of_mem := hnil
  value_not_null := rfl

def lettersOnly : JavaLang where
  longValueOf _ := none
  integerValueOf _ := none
  toString
    | .string s => s
    | _ => []

/-- A claim `a.b` after the claim `a`: the cast of the value of `a` to a map fails. -/
theorem not_claimsKept_of_nested :
    ¬ Machine.Meets (step lettersOnly) (Right lettersOnly) []
      [stringCall [['a']] "x" (by simp) (by simp),
        stringCall [['a'], ['b']] "y" (by simp) (by simp)] := by
  rintro ⟨-, h⟩
  have hmaps : (stringCall [['a']] "x" (by simp) (by simp)).Maps := trivial
  obtain ⟨after, hstep, hafter⟩ := exists_step lettersOnly hmaps PathTree.not_blocked_singleton
  have hright := (h after hstep).1
  have hpre : [['a']] <+: [['a'], ['b']] := ⟨[['b']], rfl⟩
  exact right_iff.mp hright trivial ((hafter _).mpr (.inr ⟨hpre, by simp [stringCall]⟩))

end Keycloak.Tokens.ClaimMappers
