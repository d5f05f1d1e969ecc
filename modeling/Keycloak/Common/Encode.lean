import Keycloak.Lib.Marker
import Mathlib.Logic.Function.Basic

/-!
# Lenient encoding of URI components

A text is encoded by a table for the characters below 128; percent signs in front of two
hexadecimal digits are kept, and so are template parameters in braces, which are cut out before
the encoding and put back after it.

A text is the list of its 16-bit units.
-/

namespace Keycloak.Common.Encode

abbrev Text := List Nat

def units (ascii : List Char) : Text := ascii.map Char.toNat

def percent : Nat := 37
def openBrace : Nat := 123
def closeBrace : Nat := 125
def openCurlyReplacement : Nat := 6
def closeCurlyReplacement : Nat := 7

def uriParameter : Text :=
  units ['_', 'r', 'e', 's', 't', 'e', 'a', 's', 'y', '_', 'u', 'r', 'i', '_',
    'p', 'a', 'r', 'a', 'm', 'e', 't', 'e', 'r']

/-! ## Tables -/

def isAlphanum (c : Nat) : Bool :=
  (97 ≤ c && c ≤ 122) || (65 ≤ c && c ≤ 90) || (48 ≤ c && c ≤ 57)

def isHex (c : Nat) : Bool :=
  (97 ≤ c && c ≤ 102) || (65 ≤ c && c ≤ 70) || (48 ≤ c && c ≤ 57)

def hexDigit (n : Nat) : Nat := if n % 16 < 10 then 48 + n % 16 else 55 + n % 16

def escapeByte (byte : Nat) : Text := [percent, hexDigit (byte / 16), hexDigit byte]

/-- The bytes of one unit; half of a pair has no character, and the encoder puts a question
mark for it. -/
def utf8 (c : Nat) : List Nat :=
  if c < 128 then [c]
  else if c < 2048 then [192 + c / 64, 128 + c % 64]
  else if 55296 ≤ c ∧ c < 57344 then [63]
  else [224 + c / 4096, 128 + c / 64 % 64, 128 + c % 64]

def urlEncode (c : Nat) : Text :=
  if isAlphanum c || (units ['-', '_', '.', '*']).contains c then [c]
  else if c = 32 then [43]
  else (utf8 c).flatMap escapeByte

/-- A table for the units below 128; none stands for itself. -/
abbrev Encoding := Nat → Option Text

def table (kept : List Char) (space : Text) : Encoding := fun i =>
  if isAlphanum i || (units kept).contains i then none
  else if i = 32 then some space
  else some (urlEncode i)

def pathEncoding : Encoding :=
  table ['-', '.', '_', '~', '!', '$', '&', '\'', '(', ')', '*', '+', ',', '/', ';', '=', ':', '@']
    (units ['%', '2', '0'])

def pathSegmentEncoding : Encoding :=
  Function.update pathEncoding 47 (some (units ['%', '2', 'F']))

def queryNameValueEncoding : Encoding := table ['-', '.', '_', '~', '?'] (units ['+'])

def queryStringEncoding : Encoding :=
  table ['-', '.', '_', '~', '!', '$', '&', '\'', '(', ')', '*', '+', ',', ';', '=', ':', '@', '?',
    '/'] (units ['%', '2', '0'])

/-! ## Encoding -/

def encode (zhar : Nat) (encodingMap : Encoding) : Option Text :=
  if zhar < 128 then encodingMap zhar else some (urlEncode zhar)

def encodeFromArray (segment : Text) (encodingMap : Encoding) (encodePercent : Bool) : Text :=
  segment.flatMap fun currentChar =>
    if !encodePercent && currentChar == percent then [currentChar]
    else (encode currentChar encodingMap).getD [currentChar]

def startsWithCode : Text → Bool
  | a :: b :: _ => isHex a && isHex b
  | _ => false

/-- `nonCodes` matches the percent signs that two hexadecimal digits do not follow; the search
goes on right behind the sign. -/
def encodeNonCodes : Text → Text
  | [] => []
  | c :: rest =>
      if c = percent ∧ startsWithCode rest = false then units ['%', '2', '5'] ++ encodeNonCodes rest
      else c :: encodeNonCodes rest

/-- The loop of `replaceEnclosedCurlyBraces`; `opened` may fall below zero. -/
def replaceFrom (opened : Int) : Text → Text
  | [] => []
  | c :: rest =>
      if c = openBrace then
        (if opened ≠ 0 then openCurlyReplacement else c) :: replaceFrom (opened + 1) rest
      else if c = closeBrace then
        (if opened - 1 ≠ 0 then closeCurlyReplacement else c) :: replaceFrom (opened - 1) rest
      else c :: replaceFrom opened rest

def replaceEnclosedCurlyBraces (str : Text) : Text := replaceFrom 0 str

def recover (c : Nat) : Nat :=
  if c = openCurlyReplacement then openBrace
  else if c = closeCurlyReplacement then closeBrace
  else c

def recoverEnclosedCurlyBraces (str : Text) : Text := str.map recover

/-- What is in front of the first match, and each match with what follows it. -/
abbrev Pieces := Text × List (Text × Text)

def Pieces.prepend (text : Text) (pieces : Pieces) : Pieces := (text ++ pieces.1, pieces.2)

/-- The matches of `URI_TEMPLATE_PATTERN`: an open brace, anything but closed braces, and a
closed brace.  The second argument is what follows an open brace, if one was met. -/
def matchTemplates : Option Text → Text → Pieces
  | none, [] => ([], [])
  | some group, [] => (openBrace :: group, [])
  | none, c :: rest =>
      if c = openBrace then matchTemplates (some []) rest
      else (matchTemplates none rest).prepend [c]
  | some group, c :: rest =>
      if c = closeBrace then
        if group = [] then (matchTemplates none rest).prepend [openBrace, closeBrace]
        else
          let pieces := matchTemplates none rest
          ([], (openBrace :: group ++ [closeBrace], pieces.1) :: pieces.2)
      else matchTemplates (some (group ++ [c])) rest

/-- The segment with the parameters cut out, and the parameters. -/
def savePathParams (segment : Text) : Text × List Text :=
  let pieces := matchTemplates none (replaceEnclosedCurlyBraces segment)
  (Marker.mark uriParameter pieces.1 pieces.2,
    pieces.2.map fun x => recoverEnclosedCurlyBraces x.1)

/-- None where `params.get` throws. -/
def pathParamReplacement (segment : Text) (params : List Text) : Option Text :=
  Marker.weave (Marker.cut uriParameter segment) params

def encodeValue (segment : Text) (encoding : Encoding) : Option Text :=
  let saved := savePathParams segment
  if saved.2 = [] then
    some (encodeNonCodes (encodeFromArray segment encoding false))
  else
    pathParamReplacement (encodeNonCodes (encodeFromArray saved.1 encoding false)) saved.2

def encodePath (value : Text) : Option Text := encodeValue value pathEncoding

def encodePathSegment (value : Text) : Option Text := encodeValue value pathSegmentEncoding

def encodeQueryString (value : Text) : Option Text := encodeValue value queryStringEncoding

def encodeQueryParam (value : Text) : Option Text := encodeValue value queryNameValueEncoding

def encodeQueryParamAsIs (nameOrValue : Text) : Text :=
  encodeFromArray nameOrValue queryNameValueEncoding true

def encodeFragment (value : Text) : Option Text := encodeValue value queryStringEncoding

def encodePathAsIs (segment : Text) : Text := encodeFromArray segment pathEncoding true

def encodePathSegmentAsIs (segment : Text) : Text :=
  encodeFromArray segment pathSegmentEncoding true

/-! ## Encoded texts -/

inductive Codes : Text → Prop where
  | nil : Codes []
  | cons {a b : Nat} {rest : Text} (ha : isHex a = true) (hb : isHex b = true)
      (hrest : Codes rest) : Codes (percent :: a :: b :: rest)

/-- The second text is an encoding of the first: codes and the characters that the table
allows are kept, everything else has become codes. -/
inductive Encodes (encoding : Encoding) : Text → Text → Prop where
  | nil : Encodes encoding [] []
  | allowed {c : Nat} {text encoded : Text} (hc : encode c encoding = none)
      (hrest : Encodes encoding text encoded) : Encodes encoding (c :: text) (c :: encoded)
  | code {a b : Nat} {text encoded : Text} (ha : isHex a = true) (hb : isHex b = true)
      (hrest : Encodes encoding text encoded) :
      Encodes encoding (percent :: a :: b :: text) (percent :: a :: b :: encoded)
  | escaped {c : Nat} {text codes encoded : Text} (hc : encode c encoding ≠ none)
      (hpercent : c = percent → startsWithCode text = false) (hcodes : Codes codes)
      (hne : codes ≠ []) (hrest : Encodes encoding text encoded) :
      Encodes encoding (c :: text) (codes ++ encoded)

/-- The tables that keep hexadecimal digits and the text for a template parameter, and turn
everything they do not keep into codes. -/
structure Lenient (encoding : Encoding) : Prop where
  hex : ∀ c, isHex c = true → encode c encoding = none
  parameter : ∀ c ∈ uriParameter, encode c encoding = none
  special : ∀ c ∈ [percent, openBrace, closeBrace, openCurlyReplacement, closeCurlyReplacement],
    encode c encoding ≠ none
  codes : ∀ c x, encode c encoding = some x → Codes x ∧ x ≠ []

theorem isHex_hexDigit (n : Nat) : isHex (hexDigit n) = true := by
  have hlt : n % 16 < 16 := Nat.mod_lt n (by decide)
  unfold hexDigit isHex
  simp only [Bool.or_eq_true, Bool.and_eq_true, decide_eq_true_eq]
  split_ifs <;> omega

theorem codes_escapeByte (bytes : List Nat) : Codes (bytes.flatMap escapeByte) := by
  induction bytes with
  | nil => exact Codes.nil
  | cons byte bytes ih => exact Codes.cons (isHex_hexDigit _) (isHex_hexDigit _) ih

theorem utf8_ne_nil (c : Nat) : utf8 c ≠ [] := by
  unfold utf8
  split_ifs <;> exact List.cons_ne_nil _ _

theorem codes_urlEncode {c : Nat} (halpha : isAlphanum c = false)
    (hsafe : (units ['-', '_', '.', '*']).contains c = false) (hspace : c ≠ 32) :
    Codes (urlEncode c) ∧ urlEncode c ≠ [] := by
  rw [urlEncode, if_neg (by rw [halpha, hsafe]; decide), if_neg hspace]
  refine ⟨codes_escapeByte (utf8 c), ?_⟩
  cases hbytes : utf8 c with
  | nil => exact absurd hbytes (utf8_ne_nil c)
  | cons byte bytes => exact List.cons_ne_nil _ _

theorem isAlphanum_of_isHex {c : Nat} (h : isHex c = true) : isAlphanum c = true := by
  simp only [isHex, isAlphanum, Bool.or_eq_true, Bool.and_eq_true, decide_eq_true_eq] at h ⊢
  omega

theorem lt_of_isAlphanum {c : Nat} (h : isAlphanum c = true) : c < 128 := by
  simp only [isAlphanum, Bool.or_eq_true, Bool.and_eq_true, decide_eq_true_eq] at h
  omega

theorem contains_lt : ∀ c, (units ['-', '_', '.', '*']).contains c = true → c < 128 := by
  have hall : ∀ c ∈ units ['-', '_', '.', '*'], c < 128 := by decide
  exact fun c hc => hall c (by simpa using hc)

/-- A table that keeps what `URLEncoder` keeps encodes everything else. -/
theorem codes_of_table {kept : List Char} {c : Nat} {x : Text}
    (hkept : ∀ c ∈ units ['-', '_', '.', '*'], (units kept).contains c = true)
    (h : encode c (table kept (units ['%', '2', '0'])) = some x) : Codes x ∧ x ≠ [] := by
  by_cases hlt : c < 128
  · rw [encode, if_pos hlt, table] at h
    split_ifs at h with hkeep hspace
    · cases h
      exact ⟨Codes.cons (by decide) (by decide) Codes.nil, by decide⟩
    · cases h
      simp only [Bool.or_eq_true, not_or, Bool.not_eq_true] at hkeep
      refine codes_urlEncode hkeep.1 ?_ hspace
      by_contra hsafe
      have hmem := hkept c (by simpa using hsafe)
      rw [hkeep.2] at hmem
      cases hmem
  · rw [encode, if_neg hlt, Option.some.injEq] at h
    subst h
    refine codes_urlEncode ?_ ?_ (by omega)
    · exact Bool.eq_false_iff.mpr fun halpha => hlt (lt_of_isAlphanum halpha)
    · exact Bool.eq_false_iff.mpr fun hsafe => hlt (contains_lt c hsafe)

theorem lenient_table {kept : List Char}
    (hkept : ∀ c ∈ units ['-', '_', '.', '*'], (units kept).contains c = true)
    (hspecial : ∀ c ∈ [percent, openBrace, closeBrace, openCurlyReplacement,
      closeCurlyReplacement], (units kept).contains c = false) :
    Lenient (table kept (units ['%', '2', '0'])) where
  hex c h := by
    have halpha := isAlphanum_of_isHex h
    rw [encode, if_pos (lt_of_isAlphanum halpha), table, halpha]
    rfl
  parameter c hmem := by
    have hkeep : ∀ c ∈ uriParameter, isAlphanum c = true ∨ c ∈ units ['-', '_', '.', '*'] := by
      decide
    rcases hkeep c hmem with halpha | hsafe
    · rw [encode, if_pos (lt_of_isAlphanum halpha), table, halpha]
      rfl
    · rw [encode, if_pos (contains_lt c (by simpa using hsafe)), table, hkept c hsafe, Bool.or_true]
      rfl
  special c hmem := by
    have hplain : ∀ c ∈ [percent, openBrace, closeBrace, openCurlyReplacement,
        closeCurlyReplacement], c < 128 ∧ isAlphanum c = false ∧ c ≠ 32 := by decide
    obtain ⟨hlt, halpha, hspace⟩ := hplain c hmem
    rw [encode, if_pos hlt, table, halpha, hspecial c hmem, if_neg (by decide), if_neg hspace]
    exact Option.some_ne_none _
  codes c x := codes_of_table hkept

theorem lenient_pathEncoding : Lenient pathEncoding :=
  lenient_table (by decide) (by decide)

theorem lenient_queryStringEncoding : Lenient queryStringEncoding :=
  lenient_table (by decide) (by decide)

theorem lenient_pathSegmentEncoding : Lenient pathSegmentEncoding := by
  have hpath := lenient_pathEncoding
  have hslash : ∀ c, c ≠ 47 → encode c pathSegmentEncoding = encode c pathEncoding := by
    intro c hc
    rw [encode, encode, pathSegmentEncoding, Function.update_of_ne hc]
  refine ⟨fun c h => ?_, fun c h => ?_, fun c h => ?_, fun c x h => ?_⟩
  · rw [hslash c (by rintro rfl; cases h)]
    exact hpath.hex c h
  · rw [hslash c (by rintro rfl; revert h; decide)]
    exact hpath.parameter c h
  · rw [hslash c (by rintro rfl; revert h; decide)]
    exact hpath.special c h
  · by_cases hc : c = 47
    · subst hc
      rw [encode, if_pos (by decide), pathSegmentEncoding, Function.update_self] at h
      cases h
      exact ⟨Codes.cons (by decide) (by decide) Codes.nil, by decide⟩
    · rw [hslash c hc] at h
      exact hpath.codes c x h

end Keycloak.Common.Encode
