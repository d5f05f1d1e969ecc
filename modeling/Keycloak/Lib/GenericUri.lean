import Keycloak.Lib.Split
import Mathlib.Data.Nat.Digits.Lemmas

/-!
# Absolute URIs with a host

The generic syntax of URIs: characters, components, and the text that the components of an
absolute URI with an authority make up.  A text is a list of character codes.
-/

namespace GenericUri

abbrev Text := List Nat

def hash : Nat := 35
def percent : Nat := 37
def slash : Nat := 47
def colon : Nat := 58
def question : Nat := 63
def commercialAt : Nat := 64
def openBracket : Nat := 91
def closeBracket : Nat := 93

/-! ## Characters -/

def isAlpha (c : Nat) : Bool := (97 ≤ c && c ≤ 122) || (65 ≤ c && c ≤ 90)

def isDigit (c : Nat) : Bool := 48 ≤ c && c ≤ 57

def isHex (c : Nat) : Bool := isDigit c || (97 ≤ c && c ≤ 102) || (65 ≤ c && c ≤ 70)

def isAlphanum (c : Nat) : Bool := isAlpha c || isDigit c

/-- Letters, digits, and the marks `-._~`. -/
def unreserved (c : Nat) : Bool := isAlphanum c || [45, 46, 95, 126].contains c

/-- The marks `!$&'()*+,;=`. -/
def subDelim (c : Nat) : Bool := [33, 36, 38, 39, 40, 41, 42, 43, 44, 59, 61].contains c

def isName (c : Nat) : Bool := unreserved c || subDelim c

def isUserInfo (c : Nat) : Bool := isName c || c == colon

def isPath (c : Nat) : Bool := isName c || [colon, commercialAt, slash].contains c

def isQuery (c : Nat) : Bool := isName c || [colon, commercialAt, slash, question].contains c

/-- Allowed characters, and percent signs with two hexadecimal digits. -/
def escaped (allowed : Nat → Bool) : Text → Bool
  | [] => true
  | c :: rest =>
      if c = percent then
        match rest with
        | a :: b :: rest => isHex a && isHex b && escaped allowed rest
        | _ => false
      else allowed c && escaped allowed rest

def noneOf (marks : Text) (c : Nat) : Bool := !marks.contains c

/-- The text behind a mark. -/
def strip (mark : Nat) : Text → Option Text
  | [] => none
  | c :: rest => if c = mark then some rest else none

/-! ## Numbers -/

def value (digits : Text) : Nat := digits.foldl (fun n c => 10 * n + (c - 48)) 0

def decimal (n : Nat) : Text :=
  if n = 0 then [48] else (Nat.digits 10 n).reverse.map fun d => 48 + d

/-! ## Components -/

def isScheme : Text → Bool
  | [] => false
  | c :: rest => isAlpha c && rest.all fun c => isAlphanum c || [43, 45, 46].contains c

def isOctet (text : Text) : Bool :=
  text.all isDigit && decide (text = decimal (value text)) && decide (value text < 256)

def isIPv4 (text : Text) : Bool :=
  (text.splitOn 46).length == 4 && (text.splitOn 46).all isOctet

def isH16 (text : Text) : Bool :=
  text.all isHex && decide (0 < text.length) && decide (text.length ≤ 4)

/-- How many 16-bit pieces the groups make up; the last may be in dotted notation. -/
def pieces : List Text → Option Nat
  | [] => some 0
  | [group] => if isH16 group then some 1 else if isIPv4 group then some 2 else none
  | group :: next :: groups =>
      if isH16 group then (pieces (next :: groups)).map (· + 1) else none

def groups (text : Text) : List Text := if text = [] then [] else text.splitOn colon

/-- Eight pieces, or fewer with a double colon for the zeros between them. -/
def isIPv6 (text : Text) : Bool :=
  pieces (groups text) == some 8 ||
    (List.range text.length).any fun n =>
      (text.drop n).take 2 == [colon, colon] && (groups (text.take n)).all isH16 &&
        (pieces (groups (text.drop (n + 2)))).any fun m => (groups (text.take n)).length + m ≤ 7

def isIPvFuture (text : Text) : Bool :=
  match text with
  | [] => false
  | c :: rest =>
      (c == 118 || c == 86) && rest.takeWhile isHex != [] &&
        match strip 46 (rest.dropWhile isHex) with
        | some address => address != [] && address.all isUserInfo
        | none => false

inductive Host where
  | name (text : Text)
  | literal (address : Text)
deriving DecidableEq

def Host.text : Host → Text
  | .name text => text
  | .literal address => openBracket :: address ++ [closeBracket]

/-- A host that is not empty. -/
def Host.valid : Host → Bool
  | .name text => text != [] && escaped isName text
  | .literal address => isIPv6 address || isIPvFuture address

/-- The components of a URI with a scheme and a host. -/
structure AbsoluteUri where
  scheme : Text
  userInfo : Option Text
  host : Host
  port : Option Text
  path : Text
  query : Option Text
  fragment : Option Text
  scheme_valid : isScheme scheme = true
  userInfo_valid : ∀ x ∈ userInfo, escaped isUserInfo x = true
  host_valid : host.valid = true
  port_valid : ∀ x ∈ port, x.all isDigit = true
  path_begins : path = [] ∨ path.head? = some slash
  path_valid : escaped isPath path = true
  query_valid : ∀ x ∈ query, escaped isQuery x = true
  fragment_valid : ∀ x ∈ fragment, escaped isQuery x = true

/-- A component that may be missing, with the mark in front of it. -/
def behind (mark : Nat) : Option Text → Text
  | none => []
  | some x => mark :: x

def inFront (mark : Nat) : Option Text → Text
  | none => []
  | some x => x ++ [mark]

def assemble (scheme : Text) (authority path : Text) (query fragment : Option Text) : Text :=
  scheme ++ colon :: slash :: slash ::
    (authority ++ (path ++ (behind question query ++ behind hash fragment)))

def authorityText (userInfo : Option Text) (host : Text) (port : Option Text) : Text :=
  inFront commercialAt userInfo ++ (host ++ behind colon port)

def AbsoluteUri.text (uri : AbsoluteUri) : Text :=
  assemble uri.scheme (authorityText uri.userInfo uri.host.text uri.port) uri.path uri.query
    uri.fragment

/-! ## Characters that a component does not have -/

/-- The marks `-._~!$&'()*+,;=` that names may have. -/
def nameMarks : Text := [45, 46, 95, 126, 33, 36, 38, 39, 40, 41, 42, 43, 44, 59, 61]

/-- A class of characters that has the characters of names. -/
theorem of_isName {allowed : Nat → Bool} (halnum : ∀ c, isAlphanum c = true → allowed c = true)
    (hrest : nameMarks.all allowed = true) {c : Nat} (h : isName c = true) :
    allowed c = true := by
  have hleft : ∀ c ∈ [45, 46, 95, 126], c ∈ nameMarks := by decide
  have hright : ∀ c ∈ [33, 36, 38, 39, 40, 41, 42, 43, 44, 59, 61], c ∈ nameMarks := by decide
  rw [List.all_eq_true] at hrest
  simp only [isName, unreserved, subDelim, Bool.or_eq_true, List.contains_eq_mem,
    decide_eq_true_eq] at h
  rcases h with (h | h) | h
  · exact halnum c h
  · exact hrest c (hleft c h)
  · exact hrest c (hright c h)

section

variable {allowed allowed' : Nat → Bool} {text rest : Text} {c : Nat}

theorem escaped_cons_of_ne (hc : c ≠ percent) (text : Text) :
    escaped allowed (c :: text) = (allowed c && escaped allowed text) := by
  rw [escaped.eq_def]
  exact if_neg hc

/-- The shapes of a text that is escaped. -/
theorem escaped_cases (h : escaped allowed (c :: text) = true) :
    (c ≠ percent ∧ allowed c = true ∧ escaped allowed text = true) ∨
    (c = percent ∧ ∃ a b rest, text = a :: b :: rest ∧ isHex a = true ∧ isHex b = true ∧
      escaped allowed rest = true) := by
  rw [escaped.eq_def] at h
  by_cases hc : c = percent
  · simp only [hc, if_true] at h
    match text, h with
    | a :: b :: rest, h =>
        simp only [Bool.and_eq_true] at h
        exact .inr ⟨hc, a, b, rest, rfl, h.1.1, h.1.2, h.2⟩
  · simp only [if_neg hc, Bool.and_eq_true] at h
    exact .inl ⟨hc, h⟩

/-- Induction over a text that is escaped, one character or one code at a time. -/
theorem escaped_induction {motive : Text → Prop} (h : escaped allowed text = true)
    (nil : motive [])
    (char : ∀ c text, c ≠ percent → allowed c = true → motive text → motive (c :: text))
    (code : ∀ a b text, isHex a = true → isHex b = true → motive text →
      motive (percent :: a :: b :: text)) : motive text := by
  induction hn : text.length using Nat.strong_induction_on generalizing text with
  | _ n ih =>
      cases text with
      | nil => exact nil
      | cons c text =>
          rcases escaped_cases h with ⟨hc, hallowed, hrest⟩ | ⟨rfl, a, b, rest, rfl, ha, hb, hrest⟩
          · exact char c text hc hallowed
              (ih text.length (by rw [← hn, List.length_cons]; omega) hrest rfl)
          · refine code a b rest ha hb (ih rest.length ?_ hrest rfl)
            rw [← hn, List.length_cons, List.length_cons, List.length_cons]
            omega

theorem escaped_code {a b : Nat} (ha : isHex a = true) (hb : isHex b = true) (text : Text) :
    escaped allowed (percent :: a :: b :: text) = escaped allowed text := by
  rw [escaped, if_pos rfl, ha, hb, Bool.true_and, Bool.true_and]

theorem escaped_mono (hallowed : ∀ c, c ≠ percent → allowed c = true → allowed' c = true)
    (h : escaped allowed text = true) : escaped allowed' text = true := by
  refine escaped_induction (motive := fun text => escaped allowed' text = true) h rfl
    (fun c text hc hc' ih => ?_) fun a b text ha hb ih => ?_
  · rw [escaped_cons_of_ne hc, hallowed c hc hc', ih]
    rfl
  · rw [escaped_code ha hb, ih]

theorem escaped_append (h : escaped allowed text = true) :
    escaped allowed (text ++ rest) = escaped allowed rest := by
  refine escaped_induction (motive := fun text =>
    escaped allowed (text ++ rest) = escaped allowed rest) h rfl
    (fun c text hc hc' ih => ?_) fun a b text ha hb ih => ?_
  · rw [List.cons_append, escaped_cons_of_ne hc, hc', ih, Bool.true_and]
  · rw [List.cons_append, List.cons_append, List.cons_append, escaped_code ha hb, ih]

theorem forall_mem_escaped (h : escaped allowed text = true) :
    ∀ c ∈ text, c = percent ∨ isHex c = true ∨ allowed c = true := by
  refine escaped_induction (motive := fun text =>
    ∀ c ∈ text, c = percent ∨ isHex c = true ∨ allowed c = true) h
    (fun c hc => absurd hc List.not_mem_nil)
    (fun c text _ hc' ih => ?_) fun a b text ha hb ih => ?_
  · exact List.forall_mem_cons.mpr ⟨.inr (.inr hc'), ih⟩
  · exact List.forall_mem_cons.mpr ⟨.inl rfl, List.forall_mem_cons.mpr ⟨.inr (.inl ha),
      List.forall_mem_cons.mpr ⟨.inr (.inl hb), ih⟩⟩⟩

/-- A mark that the component does not allow is not in it. -/
theorem not_mem_of_escaped (h : escaped allowed text = true)
    (hc : (c != percent && !isHex c && !allowed c) = true) : c ∉ text := by
  intro hmem
  simp only [Bool.and_eq_true, bne_iff_ne, Bool.not_eq_true'] at hc
  rcases forall_mem_escaped h c hmem with heq | hhex | hallowed
  · exact hc.1.1 heq
  · exact Bool.false_ne_true (hc.1.2.symm.trans hhex)
  · exact Bool.false_ne_true (hc.2.symm.trans hallowed)

theorem noneOf_iff {marks : Text} : noneOf marks c = true ↔ c ∉ marks := by
  simp [noneOf]

theorem forall_noneOf_of_escaped (marks : Text) (h : escaped allowed text = true)
    (hmarks : marks.all (fun c => c != percent && !isHex c && !allowed c) = true) :
    ∀ c ∈ text, noneOf marks c = true := by
  rw [List.all_eq_true] at hmarks
  exact fun c hc => noneOf_iff.mpr fun hmark => not_mem_of_escaped h (hmarks c hmark) hc

theorem takeWhile_stop {p : Nat → Bool} (htext : ∀ c ∈ text, p c = true)
    (hrest : ∀ c ∈ rest.head?, p c = false) : (text ++ rest).takeWhile p = text := by
  rw [List.takeWhile_append_of_pos htext]
  cases rest with
  | nil => simp
  | cons c rest => rw [List.takeWhile_cons_of_neg (by simp [hrest c rfl]), List.append_nil]

theorem dropWhile_stop {p : Nat → Bool} (htext : ∀ c ∈ text, p c = true)
    (hrest : ∀ c ∈ rest.head?, p c = false) : (text ++ rest).dropWhile p = rest := by
  rw [List.dropWhile_append_of_pos htext]
  cases rest with
  | nil => rfl
  | cons c rest => rw [List.dropWhile_cons_of_neg (by simp [hrest c rfl])]

@[simp] theorem strip_nil (mark : Nat) : strip mark [] = none := rfl

@[simp] theorem strip_self (mark : Nat) (text : Text) : strip mark (mark :: text) = some text :=
  if_pos rfl

theorem strip_of_head? {mark : Nat} (h : text.head? ≠ some mark) : strip mark text = none := by
  cases text with
  | nil => rfl
  | cons c text => exact if_neg fun heq => h (congrArg some heq)

@[simp] theorem behind_none (mark : Nat) : behind mark none = [] := rfl

@[simp] theorem behind_some (mark : Nat) (text : Text) : behind mark (some text) = mark :: text :=
  rfl

theorem behind_injective (mark : Nat) : Function.Injective (behind mark) := by
  intro a b h
  cases a <;> cases b <;> simp_all [behind]

theorem head?_behind {mark : Nat} {part : Option Text} :
    ∀ c ∈ (behind mark part).head?, c = mark := by
  intro c hc
  cases part with
  | none => cases hc
  | some part => exact (Option.some.inj hc).symm

end

/-! ## Taking a text apart -/

structure Delimited (authority path : Text) (query : Option Text) : Prop where
  authority : ∀ c ∈ authority, noneOf [slash, question, hash] c = true
  begins : path = [] ∨ path.head? = some slash
  path : ∀ c ∈ path, noneOf [question, hash] c = true
  query : ∀ x ∈ query, ∀ c ∈ x, noneOf [hash] c = true

section

variable {scheme authority path : Text} {query fragment : Option Text}

theorem head?_tail :
    ∀ c ∈ (behind question query ++ behind hash fragment).head?,
      noneOf [question, hash] c = false := by
  intro c hc
  have hmark : c = question ∨ c = hash := by
    cases query with
    | none => exact .inr (head?_behind c hc)
    | some query => exact .inl (Option.some.inj hc).symm
  rcases hmark with rfl | rfl <;> decide

theorem strip_question_tail :
    strip question (behind question query ++ behind hash fragment) =
      query.map (· ++ behind hash fragment) := by
  cases query with
  | some query => exact strip_self question _
  | none =>
      refine strip_of_head? fun hhead => ?_
      exact absurd (head?_behind question hhead) (by decide)

@[simp] theorem strip_hash_behind : strip hash (behind hash fragment) = fragment := by
  cases fragment with
  | none => rfl
  | some fragment => exact strip_self hash fragment

theorem noneOf_hash_behind : ∀ c ∈ (behind hash fragment).head?, noneOf [hash] c = false := by
  intro c hc
  rw [head?_behind c hc]
  decide

variable (h : Delimited authority path query)

include h

theorem Delimited.takeWhile_path :
    (path ++ (behind question query ++ behind hash fragment)).takeWhile
      (noneOf [question, hash]) = path :=
  takeWhile_stop h.path head?_tail

theorem Delimited.dropWhile_path :
    (path ++ (behind question query ++ behind hash fragment)).dropWhile (noneOf [question, hash]) =
      behind question query ++ behind hash fragment :=
  dropWhile_stop h.path head?_tail

/-- What follows the authority starts with a mark. -/
theorem Delimited.head?_path :
    ∀ c ∈ (path ++ (behind question query ++ behind hash fragment)).head?,
      noneOf [slash, question, hash] c = false := by
  intro c hc
  rcases h.begins with rfl | hbegins
  · have htail := head?_tail c hc
    simp only [noneOf, Bool.not_eq_false'] at htail ⊢
    rw [List.contains_eq_mem, decide_eq_true_eq] at htail ⊢
    have hsub : ∀ c ∈ [question, hash], c ∈ [slash, question, hash] := by decide
    exact hsub c htail
  · have hslash : c = slash := by
      cases path with
      | nil => cases hbegins
      | cons d path =>
          cases hc
          exact Option.some.inj hbegins
    rw [hslash]
    decide

theorem Delimited.takeWhile_authority :
    (authority ++ (path ++ (behind question query ++ behind hash fragment))).takeWhile
      (noneOf [slash, question, hash]) = authority :=
  takeWhile_stop h.authority h.head?_path

theorem Delimited.dropWhile_authority :
    (authority ++ (path ++ (behind question query ++ behind hash fragment))).dropWhile
      (noneOf [slash, question, hash]) = path ++ (behind question query ++ behind hash fragment) :=
  dropWhile_stop h.authority h.head?_path

theorem Delimited.takeWhile_query {x : Text} (hx : query = some x) :
    (x ++ behind hash fragment).takeWhile (noneOf [hash]) = x :=
  takeWhile_stop (h.query x hx) noneOf_hash_behind

theorem Delimited.dropWhile_query {x : Text} (hx : query = some x) :
    (x ++ behind hash fragment).dropWhile (noneOf [hash]) = behind hash fragment :=
  dropWhile_stop (h.query x hx) noneOf_hash_behind

theorem Delimited.dropWhile_tail :
    (behind question query ++ behind hash fragment).dropWhile (noneOf [hash]) =
      behind hash fragment := by
  refine dropWhile_stop (fun c hc => ?_) noneOf_hash_behind
  cases query with
  | none => exact absurd hc List.not_mem_nil
  | some x =>
      rcases List.mem_cons.mp hc with rfl | hc
      · decide
      · exact h.query x rfl c hc

end

theorem isScheme_ne_nil {scheme : Text} (h : isScheme scheme = true) : scheme ≠ [] := by
  rintro rfl
  cases h

theorem forall_noneOf_of_isScheme {scheme : Text} (h : isScheme scheme = true) :
    ∀ c ∈ scheme, noneOf [colon, slash, question, hash] c = true := by
  have hmarks : ∀ c ∈ [colon, slash, question, hash], isAlpha c = false ∧
      (isAlphanum c || [43, 45, 46].contains c) = false := by decide
  intro c hc
  rw [noneOf_iff]
  intro hmark
  obtain ⟨halpha, hrest⟩ := hmarks c hmark
  cases scheme with
  | nil => cases hc
  | cons d scheme =>
      rw [isScheme, Bool.and_eq_true, List.all_eq_true] at h
      rcases List.mem_cons.mp hc with rfl | hc
      · exact Bool.false_ne_true (halpha.symm.trans h.1)
      · exact Bool.false_ne_true (hrest.symm.trans (h.2 c hc))

/-! ## Hosts and authorities -/

theorem forall_mem_of_isIPv4 {text : Text} (h : isIPv4 text = true) :
    ∀ c ∈ text, isHex c = true ∨ c = 46 := by
  intro c hc
  rw [isIPv4, Bool.and_eq_true, List.all_eq_true] at h
  rcases Split.exists_of_mem 46 hc with hdot | ⟨octet, hoctet, hmem⟩
  · exact .inr hdot
  · have hdigits := h.2 octet hoctet
    simp only [isOctet, Bool.and_eq_true, List.all_eq_true] at hdigits
    exact .inl (by rw [isHex, hdigits.1.1 c hmem]; rfl)

theorem forall_mem_of_isH16 {text : Text} (h : isH16 text = true) : ∀ c ∈ text, isHex c = true := by
  simp only [isH16, Bool.and_eq_true, List.all_eq_true] at h
  exact h.1.1

theorem forall_mem_of_pieces {groups : List Text} {n : Nat} (h : pieces groups = some n) :
    ∀ group ∈ groups, ∀ c ∈ group, isHex c = true ∨ c = 46 := by
  induction groups generalizing n with
  | nil => exact fun group hgroup => absurd hgroup List.not_mem_nil
  | cons group groups ih =>
      cases groups with
      | nil =>
          rw [pieces] at h
          intro x hx c hc
          rw [List.mem_singleton.mp hx] at hc
          split_ifs at h with hgroup hv4
          · exact .inl (forall_mem_of_isH16 hgroup c hc)
          · exact forall_mem_of_isIPv4 hv4 c hc
      | cons next groups =>
          rw [pieces] at h
          split_ifs at h with hgroup
          obtain ⟨m, hm, -⟩ := Option.map_eq_some_iff.mp h
          refine List.forall_mem_cons.mpr ⟨fun c hc => ?_, ih hm⟩
          exact .inl (forall_mem_of_isH16 hgroup c hc)

theorem exists_group_of_mem {text : Text} {c : Nat} (hc : c ∈ text) :
    c = colon ∨ ∃ group ∈ groups text, c ∈ group := by
  rw [groups, if_neg (List.ne_nil_of_mem hc)]
  exact Split.exists_of_mem colon hc

theorem isIPv6_cases {text : Text} (h : isIPv6 text = true) :
    pieces (groups text) = some 8 ∨
    ∃ front back m, text = front ++ colon :: colon :: back ∧
      (groups front).all isH16 = true ∧ pieces (groups back) = some m := by
  rw [isIPv6, Bool.or_eq_true, List.any_eq_true] at h
  rcases h with h | ⟨n, -, h⟩
  · exact .inl (beq_iff_eq.mp h)
  · simp only [Bool.and_eq_true, beq_iff_eq] at h
    obtain ⟨⟨hcolons, hfront⟩, hback⟩ := h
    cases hm : pieces (groups (text.drop (n + 2))) with
    | none =>
        rw [hm] at hback
        cases hback
    | some m =>
        refine .inr ⟨text.take n, text.drop (n + 2), m, ?_, hfront, hm⟩
        calc text = text.take n ++ text.drop n := (List.take_append_drop n text).symm
          _ = text.take n ++ ((text.drop n).take 2 ++ (text.drop n).drop 2) := by
              rw [List.take_append_drop 2]
          _ = _ := by
              rw [hcolons, List.drop_drop]
              rfl

theorem forall_mem_of_isIPv6 {text : Text} (h : isIPv6 text = true) :
    ∀ c ∈ text, isHex c = true ∨ c = 46 ∨ c = colon := by
  have hback : ∀ {text : Text} {m : Nat}, pieces (groups text) = some m →
      ∀ c ∈ text, isHex c = true ∨ c = 46 ∨ c = colon := by
    intro text m hm c hc
    rcases exists_group_of_mem hc with hcolon | ⟨group, hgroup, hmem⟩
    · exact .inr (.inr hcolon)
    · exact (forall_mem_of_pieces hm group hgroup c hmem).imp_right .inl
  rcases isIPv6_cases h with hm | ⟨front, back, m, rfl, hfront, hm⟩
  · exact hback hm
  · intro c hc
    rcases List.mem_append.mp hc with hc | hc
    · rcases exists_group_of_mem hc with hcolon | ⟨group, hgroup, hmem⟩
      · exact .inr (.inr hcolon)
      · exact .inl (forall_mem_of_isH16 (List.all_eq_true.mp hfront group hgroup) c hmem)
    · rcases List.mem_cons.mp hc with hcolon | hc
      · exact .inr (.inr hcolon)
      rcases List.mem_cons.mp hc with hcolon | hc
      · exact .inr (.inr hcolon)
      · exact hback hm c hc

theorem colon_mem_of_isIPv6 {text : Text} (h : isIPv6 text = true) : colon ∈ text := by
  rcases isIPv6_cases h with hm | ⟨front, back, m, rfl, -, -⟩
  · by_contra hcolon
    have hgroups : groups text = [] ∨ groups text = [text] := by
      unfold groups
      split_ifs
      · exact .inl rfl
      · exact .inr (List.splitOn_eq_singleton hcolon)
    rcases hgroups with hgroups | hgroups
    · rw [hgroups, pieces] at hm
      cases hm
    · rw [hgroups, pieces] at hm
      split_ifs at hm <;> cases hm
  · exact List.mem_append_right front List.mem_cons_self

theorem isUserInfo_of_isHex {c : Nat} (h : isHex c = true) : isUserInfo c = true := by
  have halnum : isAlphanum c = true := by
    simp only [isHex, isAlphanum, isAlpha, isDigit, Bool.or_eq_true, Bool.and_eq_true,
      decide_eq_true_eq] at h ⊢
    omega
  rw [isUserInfo, isName, unreserved, halnum]
  rfl

theorem forall_mem_of_isIPvFuture {text : Text} (h : isIPvFuture text = true) :
    ∀ c ∈ text, isUserInfo c = true := by
  cases text with
  | nil => exact fun c hc => absurd hc List.not_mem_nil
  | cons v rest =>
      simp only [isIPvFuture, Bool.and_eq_true, Bool.or_eq_true, beq_iff_eq] at h
      obtain ⟨⟨hv, -⟩, haddress⟩ := h
      refine List.forall_mem_cons.mpr ⟨?_, fun c hc => ?_⟩
      · rcases hv with rfl | rfl <;> decide
      · rw [← List.takeWhile_append_dropWhile (p := isHex) (l := rest)] at hc
        rcases List.mem_append.mp hc with hc | hc
        · exact isUserInfo_of_isHex (List.mem_takeWhile_imp hc)
        · cases hdot : rest.dropWhile isHex with
          | nil =>
              rw [hdot] at hc
              cases hc
          | cons d address =>
              rw [hdot, strip] at haddress
              rw [hdot] at hc
              split_ifs at haddress with hd
              · simp only [Bool.and_eq_true, List.all_eq_true] at haddress
                rcases List.mem_cons.mp hc with rfl | hc
                · rw [hd]
                  decide
                · exact haddress.2 c hc

theorem forall_mem_literal {address : Text} (h : (Host.literal address).valid = true) :
    ∀ c ∈ address, isUserInfo c = true := by
  rw [Host.valid, Bool.or_eq_true] at h
  rcases h with h | h
  · intro c hc
    rcases forall_mem_of_isIPv6 h c hc with hhex | rfl | rfl
    · exact isUserInfo_of_isHex hhex
    · decide
    · decide
  · exact forall_mem_of_isIPvFuture h

theorem noneOf_of_isUserInfo {marks : Text} {c : Nat} (h : isUserInfo c = true)
    (hmarks : marks.all (fun c => !isUserInfo c) = true) : noneOf marks c = true := by
  rw [noneOf_iff]
  intro hmark
  have hnot := List.all_eq_true.mp hmarks c hmark
  rw [h] at hnot
  cases hnot

theorem Host.forall_noneOf {host : Host} (h : host.valid = true) :
    ∀ c ∈ host.text, noneOf [slash, question, hash, commercialAt] c = true := by
  cases host with
  | name text =>
      rw [Host.valid, Bool.and_eq_true] at h
      exact forall_noneOf_of_escaped [slash, question, hash, commercialAt] h.2 (by decide)
  | literal address =>
      intro c hc
      rw [Host.text, List.cons_append, List.mem_cons, List.mem_append, List.mem_singleton] at hc
      rcases hc with rfl | hc | rfl
      · decide
      · exact noneOf_of_isUserInfo (forall_mem_literal h c hc) (by decide)
      · decide

theorem noneOf_of_isDigit {marks : Text} {c : Nat} (h : isDigit c = true)
    (hmarks : marks.all (fun c => !isUserInfo c) = true) : noneOf marks c = true :=
  noneOf_of_isUserInfo (isUserInfo_of_isHex (by rw [isHex, h]; rfl)) hmarks

section

variable {userInfo port : Option Text} {host : Text}

theorem forall_noneOf_port (hport : ∀ x ∈ port, x.all isDigit = true) :
    ∀ c ∈ behind colon port, noneOf [slash, question, hash, commercialAt] c = true := by
  intro c hc
  cases port with
  | none => cases hc
  | some digits =>
      rcases List.mem_cons.mp hc with rfl | hc
      · decide
      · exact noneOf_of_isDigit (List.all_eq_true.mp (hport digits rfl) c hc) (by decide)

theorem noneOf_imp {marks marks' : Text} {c : Nat} (h : noneOf marks c = true)
    (hmarks : ∀ c ∈ marks', c ∈ marks) : noneOf marks' c = true :=
  noneOf_iff.mpr fun hc => noneOf_iff.mp h (hmarks c hc)

variable (huserInfo : ∀ x ∈ userInfo, escaped isUserInfo x = true)
  (hhost : ∀ c ∈ host, noneOf [slash, question, hash, commercialAt] c = true)
  (hport : ∀ x ∈ port, x.all isDigit = true)

include huserInfo hhost hport

theorem forall_noneOf_authorityText :
    ∀ c ∈ authorityText userInfo host port, noneOf [slash, question, hash] c = true := by
  have hmarks : ∀ c ∈ [slash, question, hash], c ∈ [slash, question, hash, commercialAt] := by
    decide
  intro c hc
  rw [authorityText, List.mem_append, List.mem_append] at hc
  rcases hc with hc | hc | hc
  · cases userInfo with
    | none => cases hc
    | some x =>
        rcases List.mem_append.mp hc with hc | hc
        · exact forall_noneOf_of_escaped [slash, question, hash] (huserInfo x rfl) (by decide) c hc
        · rw [List.mem_singleton.mp hc]
          decide
  · exact noneOf_imp (hhost c hc) hmarks
  · exact noneOf_imp (forall_noneOf_port hport c hc) hmarks

theorem strip_at_authorityText :
    strip commercialAt ((authorityText userInfo host port).dropWhile (noneOf [commercialAt])) =
      userInfo.map fun _ => host ++ behind colon port := by
  have hmarks : ∀ c ∈ [commercialAt], c ∈ [slash, question, hash, commercialAt] := by decide
  cases userInfo with
  | none =>
      have hall : ∀ c ∈ host ++ behind colon port, noneOf [commercialAt] c = true := by
        intro c hc
        rcases List.mem_append.mp hc with hc | hc
        · exact noneOf_imp (hhost c hc) hmarks
        · exact noneOf_imp (forall_noneOf_port hport c hc) hmarks
      have hnone : ∀ c ∈ ([] : Text).head?, noneOf [commercialAt] c = false :=
        fun c hc => by cases hc
      have hdrop := dropWhile_stop hall hnone
      rw [List.append_nil] at hdrop
      rw [authorityText, inFront, List.nil_append, hdrop]
      rfl
  | some x =>
      have hx := forall_noneOf_of_escaped [commercialAt] (huserInfo x rfl) (by decide)
      rw [authorityText, inFront, List.append_assoc, List.singleton_append,
        dropWhile_stop hx fun c hc => by cases hc; decide, strip_self]
      rfl

omit hhost hport in
theorem takeWhile_at_authorityText {x : Text} (hx : userInfo = some x) :
    (authorityText userInfo host port).takeWhile (noneOf [commercialAt]) = x := by
  have hall := forall_noneOf_of_escaped [commercialAt] (huserInfo x hx) (by decide)
  rw [hx, authorityText, inFront, List.append_assoc, List.singleton_append,
    takeWhile_stop hall fun c hc => by cases hc; decide]

end

/-! ## Numbers without leading zeros -/

theorem value_eq_ofDigits (digits : Text) :
    value digits = Nat.ofDigits 10 (digits.map (· - 48)).reverse := by
  unfold value
  induction digits using List.reverseRecOn with
  | nil => rfl
  | append_singleton digits c ih =>
      rw [List.foldl_concat, ih, List.map_append, List.map_singleton, List.reverse_append,
        List.reverse_singleton, List.singleton_append, Nat.ofDigits_cons]
      omega

theorem decimal_eq {n : Nat} (h : n ≠ 0) :
    decimal n = (Nat.digits 10 n).reverse.map fun d => 48 + d := if_neg h

theorem all_isDigit_decimal (n : Nat) : (decimal n).all isDigit = true := by
  by_cases h : n = 0
  · rw [h]
    decide
  · rw [decimal_eq h, List.all_eq_true]
    intro c hc
    obtain ⟨d, hd, rfl⟩ := List.mem_map.mp hc
    have hlt : d < 10 := Nat.digits_lt_base (by decide) (List.mem_reverse.mp hd)
    simp only [isDigit, Bool.and_eq_true, decide_eq_true_eq]
    omega

theorem decimal_head? {n : Nat} (h : (decimal n).head? = some 48) : decimal n = [48] := by
  by_cases hn : n = 0
  · rw [hn]
    rfl
  · have hne : Nat.digits 10 n ≠ [] := Nat.digits_ne_nil_iff_ne_zero.mpr hn
    have hlast := Nat.getLast_digit_ne_zero 10 hn
    rw [decimal_eq hn, List.head?_map, List.head?_reverse, List.getLast?_eq_some_getLast hne,
      Option.map_some, Option.some.injEq] at h
    omega

theorem decimal_value {digits : Text} (hdigits : digits.all isDigit = true)
    (hzero : digits.head? = some 48 → digits = [48]) (hne : digits ≠ []) :
    decimal (value digits) = digits := by
  by_cases hhead : digits.head? = some 48
  · rw [hzero hhead]
    decide
  · have hrange : ∀ c ∈ digits, 48 ≤ c ∧ c ≤ 57 := by
      intro c hc
      have hdigit := List.all_eq_true.mp hdigits c hc
      simpa [isDigit] using hdigit
    have hread : Nat.digits 10 (value digits) = (digits.map (· - 48)).reverse := by
      rw [value_eq_ofDigits]
      refine Nat.digits_ofDigits 10 (by decide) _ (fun d hd => ?_) fun hlist => ?_
      · obtain ⟨c, hc, rfl⟩ := List.mem_map.mp (List.mem_reverse.mp hd)
        have hc := hrange c hc
        omega
      · rw [List.getLast_reverse, List.head_map]
        have hc := hrange _ (List.head_mem hne)
        have hnot : digits.head hne ≠ 48 := fun heq =>
          hhead ((List.head?_eq_some_head hne).trans (congrArg some heq))
        omega
    have hpos : value digits ≠ 0 := by
      intro hnil
      rw [hnil, Nat.digits_zero] at hread
      exact hne (List.map_eq_nil_iff.mp (List.reverse_eq_nil_iff.mp hread.symm))
    rw [decimal_eq hpos, hread, List.reverse_reverse, List.map_map]
    refine (List.map_congr_left fun c hc => ?_).trans (List.map_id digits)
    have hc := hrange c hc
    simp only [Function.comp_apply, id]
    omega

end GenericUri
