import Keycloak.Lib.SearchFilter
import Mathlib.Data.List.Basic

/-!
# LDAP queries

The conditions of a query append their part of the search filter one after the other
(`applyCondition`), and `createIdentityTypeSearchFilter` puts them together with the tests of the
object classes.
-/

namespace Keycloak.Storage.LDAPQuery

open SearchFilter

inductive EscapeStrategy
  | NON_ASCII_CHARS_ONLY
  | DEFAULT
  deriving DecidableEq, Repr

def getBytes (input : String) : List UInt8 := input.toList.flatMap String.utf8EncodeChar

def toHexString (i : BitVec 32) : List Char := Nat.toDigits 16 i.toNat

/-- `appendByte`; a byte is signed. -/
def appendByte (b : UInt8) : List Char :=
  if 0 ≤ b.toBitVec.toInt then [Char.ofNat b.toNat]
  else '\\' :: toHexString (BitVec.ofInt 32 (-256) ^^^ b.toBitVec.signExtend 32)

/-- The branches of `DEFAULT.escape`. -/
def escapeByte (b : UInt8) : List Char :=
  if b = 0x5c then ['\\', '5', 'c']
  else if b = 0x2a then ['\\', '2', 'a']
  else if b = 0x28 then ['\\', '2', '8']
  else if b = 0x29 then ['\\', '2', '9']
  else if b = 0x00 then ['\\', '0', '0']
  else appendByte b

def EscapeStrategy.escape (input : String) : EscapeStrategy → List Char
  | .NON_ASCII_CHARS_ONLY => (getBytes input).flatMap appendByte
  | .DEFAULT => (getBytes input).flatMap escapeByte

inductive Condition
  | equalCondition (parameterName value : String) (escapeStrategy : EscapeStrategy)
  | orCondition (innerConditions : List Condition)
  | inCondition (parameterName : String) (valuesToCompare : List String)

/-! ## `LDAPQueryConditionsBuilder` -/

def equal (parameter value : String) : Condition := .equalCondition parameter value .DEFAULT

def orCondition (conditions : List Condition) : Except String Condition :=
  if conditions = [] then .error "At least one condition should be provided to OR query"
  else .ok (.orCondition conditions)

mutual

/-- `applyCondition`: what the condition appends to the filter. -/
def Condition.applyCondition : Condition → List Char
  | .equalCondition parameterName value escapeStrategy =>
      '(' :: (parameterName.toList ++ '=' :: escapeStrategy.escape value ++ [')'])
  | .orCondition innerConditions => '(' :: '|' :: (applyConditions innerConditions ++ [')'])
  | .inCondition parameterName valuesToCompare =>
      '(' :: '&' :: '(' :: (valuesToCompare.flatMap (fun value =>
        '(' :: (parameterName.toList ++ '=' :: value.toList ++ [')'])) ++ [')', ')'])

def applyConditions : List Condition → List Char
  | [] => []
  | condition :: rest => condition.applyCondition ++ applyConditions rest

end

/-! ## `LDAPIdentityStore` -/

def OBJECT_CLASS : String := "objectclass"

def getObjectClassesFilter (objectClasses : List String) : List Char :=
  if objectClasses = [] then '(' :: (OBJECT_CLASS.toList ++ ['=', '*', ')'])
  else objectClasses.flatMap fun objectClass =>
    '(' :: (OBJECT_CLASS.toList ++ '=' :: objectClass.toList ++ [')'])

def createIdentityTypeSearchFilter (conditions : List Condition) (objectClasses : List String) :
    List Char :=
  '(' :: '&' :: (applyConditions conditions ++ getObjectClassesFilter objectClasses ++ [')'])

/-! ## What a query asks for -/

mutual

def Condition.asked : Condition → Filter
  | .equalCondition parameterName value _ =>
      .simple .equal parameterName.toList (getBytes value)
  | .orCondition innerConditions => .or (askedAll innerConditions)
  | .inCondition parameterName valuesToCompare =>
      .or (valuesToCompare.map fun value =>
        .simple .equal parameterName.toList (getBytes value))

def askedAll : List Condition → List Filter
  | [] => []
  | condition :: rest => condition.asked :: askedAll rest

end

def objectClassTests (objectClasses : List String) : List Filter :=
  if objectClasses = [] then [.present OBJECT_CLASS.toList]
  else objectClasses.map fun objectClass =>
    .simple .equal OBJECT_CLASS.toList (getBytes objectClass)

/-- The filter is well formed, and means all conditions and object class tests together. -/
def MeansWhatWasAsked (conditions : List Condition) (objectClasses : List String) : Prop :=
  ∀ parsed, IsFilter (createIdentityTypeSearchFilter conditions objectClasses) parsed ↔
    parsed = .and (conditions.map Condition.asked ++ objectClassTests objectClasses)

def FromAlphabet (name : String) : Prop := name.toList.all isDescriptionChar = true

instance (name : String) : Decidable (FromAlphabet name) :=
  inferInstanceAs (Decidable (_ = true))

/-- The condition has been made by the builder, with names from the alphabet. -/
inductive Built : Condition → Prop
  | equal {parameter value : String} : FromAlphabet parameter → Built (equal parameter value)
  | or {conditions : List Condition} {condition : Condition} :
      (∀ inner ∈ conditions, Built inner) → orCondition conditions = .ok condition →
        Built condition
  | inValues {paramName : String} {x : List String} : FromAlphabet paramName →
      Built (.inCondition paramName x)

/-- There is no `in` in the condition, and all names are attribute descriptions. -/
inductive Expressible : Condition → Prop
  | equal {parameterName value : String} {escapeStrategy : EscapeStrategy} :
      isAttributeDescription parameterName.toList = true →
        Expressible (.equalCondition parameterName value escapeStrategy)
  | or {innerConditions : List Condition} :
      (∀ inner ∈ innerConditions, Expressible inner) → Expressible (.orCondition innerConditions)

/-! ## Escaped values -/

section

variable {condition : Condition} {conditions : List Condition} {filter : Filter}
  {filters : List Filter} {text rest : List Char}

theorem decodeValue_escapeByte (b : UInt8) : decodeValue (escapeByte b) = some [b] := by
  have hall : ∀ n : Fin 256, decodeValue (escapeByte (UInt8.ofFin n)) = some [UInt8.ofFin n] := by
    decide +kernel
  simpa using hall b.toFin

theorem decodeValue_escape (input : String) :
    decodeValue (EscapeStrategy.DEFAULT.escape input) = some (getBytes input) := by
  rw [EscapeStrategy.escape]
  induction getBytes input with
  | nil => rfl
  | cons b rest ih =>
      rw [List.flatMap_cons, decodeValue_append (decodeValue_escapeByte b), ih]
      rfl

theorem applyConditions_eq (conditions : List Condition) :
    applyConditions conditions = conditions.flatMap Condition.applyCondition := by
  induction conditions with
  | nil => rfl
  | cons condition rest ih => rw [applyConditions, ih, List.flatMap_cons]

theorem askedAll_eq (conditions : List Condition) :
    askedAll conditions = conditions.map Condition.asked := by
  induction conditions with
  | nil => rfl
  | cons condition rest ih => rw [askedAll, ih, List.map_cons]

theorem orCondition_eq_ok (h : orCondition conditions = .ok condition) :
    conditions ≠ [] ∧ condition = .orCondition conditions := by
  unfold orCondition at h
  split at h
  · cases h
  · rename_i hne
    cases h
    exact ⟨hne, rfl⟩

/-! ## What the texts of conditions and classes mean -/

theorem reads_applyCondition (hbuilt : Built condition) (h : Expressible condition)
    (rest : List Char) : Reads (condition.applyCondition ++ rest) condition.asked rest := by
  induction hbuilt generalizing rest with
  | equal =>
      cases h with
      | equal hattr =>
          rw [equal, Condition.applyCondition, List.cons_append, List.append_assoc]
          exact reads_equal hattr (decodeValue_escape _) rest
  | or _ hcondition ih =>
      obtain ⟨hne, rfl⟩ := orCondition_eq_ok hcondition
      cases h with
      | or hinner =>
          rw [Condition.applyCondition, Condition.asked, applyConditions_eq, askedAll_eq,
            List.cons_append, List.cons_append, List.append_assoc]
          exact .or (readsList_flatMap (fun c hc => ih c hc (hinner c hc)) hne _)
  | inValues => cases h

theorem readsList_getObjectClassesFilter {objectClasses : List String}
    (h : ∀ objectClass ∈ objectClasses, FromAlphabet objectClass) (rest : List Char) :
    ReadsList (getObjectClassesFilter objectClasses ++ rest) (objectClassTests objectClasses)
      rest := by
  unfold getObjectClassesFilter objectClassTests
  split
  · have hitem : item (OBJECT_CLASS.toList ++ ['=', '*']) = some (.present OBJECT_CLASS.toList) :=
      rfl
    exact .one (.item hitem)
  · rename_i hne
    refine readsList_flatMap (fun objectClass hclass rest => ?_) hne rest
    rw [List.cons_append, List.append_assoc]
    exact reads_equal (by decide) (decodeValue_of_isNormal fun c hc =>
      isNormal_of_isDescriptionChar (List.all_eq_true.mp (h objectClass hclass) c hc)) rest

theorem exists_cons_applyCondition (condition : Condition) :
    ∃ tail, condition.applyCondition = '(' :: tail := by
  cases condition <;> exact ⟨_, by rw [Condition.applyCondition]⟩

/-- When each condition that is read can be expressed, a list of them that is read up to a closing
parenthesis has only such conditions. -/
theorem expressible_of_readsList (hbuilt : ∀ condition ∈ conditions, Built condition)
    (hread : ∀ condition ∈ conditions, ∀ tail filter rest,
      Reads (condition.applyCondition ++ tail) filter rest → Expressible condition)
    (h : ReadsList (conditions.flatMap Condition.applyCondition ++ text) filters (')' :: rest)) :
    ∀ condition ∈ conditions, Expressible condition := by
  induction conditions generalizing filters with
  | nil => exact fun condition hcondition => nomatch hcondition
  | cons first others ih =>
      rw [List.flatMap_cons, List.append_assoc] at h
      have hfirst : ∀ {filter : Filter} {behind : List Char},
          Reads (first.applyCondition ++ (others.flatMap Condition.applyCondition ++ text)) filter
            behind → Expressible first ∧
              behind = others.flatMap Condition.applyCondition ++ text := by
        intro filter behind hreads
        have hexpressible := hread first List.mem_cons_self _ _ _ hreads
        have hmeant := reads_applyCondition (hbuilt first List.mem_cons_self) hexpressible
          (others.flatMap Condition.applyCondition ++ text)
        exact ⟨hexpressible, (hreads.determined _ _ hmeant).2⟩
      intro condition hcondition
      cases h with
      | one hreads =>
          obtain ⟨hexpressible, hbehind⟩ := hfirst hreads
          cases others with
          | nil => exact List.mem_singleton.mp hcondition ▸ hexpressible
          | cons second others =>
              obtain ⟨tail, htail⟩ := exists_cons_applyCondition second
              rw [List.flatMap_cons, htail] at hbehind
              cases hbehind
      | more hreads hmore =>
          obtain ⟨hexpressible, rfl⟩ := hfirst hreads
          rcases List.mem_cons.mp hcondition with rfl | hcondition
          · exact hexpressible
          · exact ih (fun c hc => hbuilt c (List.mem_cons_of_mem _ hc))
              (fun c hc => hread c (List.mem_cons_of_mem _ hc)) hmore condition hcondition

/-- Nothing is read at a condition that cannot be expressed. -/
theorem expressible_of_reads (hbuilt : Built condition)
    (h : Reads (condition.applyCondition ++ text) filter rest) : Expressible condition := by
  induction hbuilt generalizing text filter rest with
  | equal hname =>
      rw [equal, Condition.applyCondition, List.cons_append, List.append_assoc] at h
      exact .equal
        (isAttributeDescription_of_reads (List.all_eq_true.mp hname) (decodeValue_escape _) h)
  | or hbuilt hcondition ih =>
      obtain ⟨-, rfl⟩ := orCondition_eq_ok hcondition
      rw [Condition.applyCondition, applyConditions_eq, List.cons_append, List.cons_append,
        List.append_assoc] at h
      obtain ⟨filters, -, hlist⟩ := reads_or h
      exact .or (expressible_of_readsList hbuilt (fun c hc _ _ _ => ih c hc) hlist)
  | @inValues paramName x hname =>
      -- the second parenthesis is followed by that of a value or by a closing one
      rw [Condition.applyCondition, List.cons_append, List.cons_append] at h
      obtain ⟨filters, -, hlist⟩ := reads_and h
      cases x with
      | nil =>
          cases hlist with
          | one hreads => exact absurd hreads (not_reads_paren (.inr rfl))
          | more hreads => exact absurd hreads (not_reads_paren (.inr rfl))
      | cons value values =>
          cases hlist with
          | one hreads => exact absurd hreads (not_reads_paren (.inl rfl))
          | more hreads => exact absurd hreads (not_reads_paren (.inl rfl))

theorem createIdentityTypeSearchFilter_eq (conditions : List Condition)
    (objectClasses : List String) : createIdentityTypeSearchFilter conditions objectClasses =
      '(' :: '&' :: (conditions.flatMap Condition.applyCondition ++
        (getObjectClassesFilter objectClasses ++ [')'])) := by
  rw [createIdentityTypeSearchFilter, applyConditions_eq, List.append_assoc]

/-- A filter that is well formed comes from conditions that can be expressed. -/
theorem expressible_of_isFilter {objectClasses : List String}
    (hbuilt : ∀ condition ∈ conditions, Built condition)
    (h : IsFilter (createIdentityTypeSearchFilter conditions objectClasses) filter) :
    ∀ condition ∈ conditions, Expressible condition := by
  rw [createIdentityTypeSearchFilter_eq] at h
  obtain ⟨filters, -, hlist⟩ := reads_and h
  exact expressible_of_readsList hbuilt (fun c hc _ _ _ => expressible_of_reads (hbuilt c hc))
    hlist

/-- A query means what was asked exactly when all of its conditions can be expressed. -/
theorem meansWhatWasAsked_iff {objectClasses : List String}
    (hconditions : ∀ condition ∈ conditions, Built condition)
    (hclasses : ∀ objectClass ∈ objectClasses, FromAlphabet objectClass) :
    MeansWhatWasAsked conditions objectClasses ↔
      ∀ condition ∈ conditions, Expressible condition := by
  constructor
  · exact fun h => expressible_of_isFilter hconditions ((h _).mpr rfl)
  · intro h parsed
    have hmeant : IsFilter (createIdentityTypeSearchFilter conditions objectClasses)
        (.and (conditions.map Condition.asked ++ objectClassTests objectClasses)) := by
      rw [createIdentityTypeSearchFilter_eq]
      exact .and (ReadsList.flatMap_append
        (fun c hc => reads_applyCondition (hconditions c hc) (h c hc))
        (readsList_getObjectClassesFilter hclasses _))
    constructor
    · exact fun hparsed => isFilter_unique hparsed hmeant
    · rintro rfl
      exact hmeant

end

/-- Parentheses, an asterisk and a backslash in a value stay in the value. -/
theorem meansWhatWasAsked_of_specials :
    MeansWhatWasAsked [equal "uid" "*)(uid=é", .orCondition [equal "cn" "a\\b", equal "sn" ""]]
      ["person", "inetOrgPerson"] := by
  refine (meansWhatWasAsked_iff ?_ (by decide)).mpr ?_
  · have hinner : ∀ inner ∈ [equal "cn" "a\\b", equal "sn" ""], Built inner :=
      List.forall_mem_cons.mpr ⟨.equal (by decide),
        List.forall_mem_singleton.mpr (.equal (by decide))⟩
    exact List.forall_mem_cons.mpr ⟨.equal (by decide),
      List.forall_mem_singleton.mpr (.or hinner rfl)⟩
  · have hinner : ∀ inner ∈ [equal "cn" "a\\b", equal "sn" ""], Expressible inner :=
      List.forall_mem_cons.mpr ⟨.equal (by decide),
        List.forall_mem_singleton.mpr (.equal (by decide))⟩
    exact List.forall_mem_cons.mpr ⟨.equal (by decide),
      List.forall_mem_singleton.mpr (.or hinner)⟩

/-- The equalities of an `in` stand between parentheses of their own. -/
theorem not_meansWhatWasAsked_of_in :
    ¬ ∀ (conditions : List Condition) (objectClasses : List String),
      (∀ condition ∈ conditions, Built condition) →
      (∀ objectClass ∈ objectClasses, FromAlphabet objectClass) →
        MeansWhatWasAsked conditions objectClasses := by
  intro h
  have hbuilt : ∀ condition ∈ [Condition.inCondition "uid" ["jdoe"]], Built condition :=
    List.forall_mem_singleton.mpr (.inValues (by decide))
  have hfilter := (h _ ["person"] hbuilt (by decide) _).mpr rfl
  cases expressible_of_isFilter hbuilt hfilter _ List.mem_cons_self

end Keycloak.Storage.LDAPQuery
