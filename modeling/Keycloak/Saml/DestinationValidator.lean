import Keycloak.Lib.Split
import Keycloak.Lib.Uri
import Mathlib.Logic.Function.Basic

/-!
# Destinations of SAML messages

A message names the destination it is meant for.  It is compared with the expected one up to
the default port of the scheme, by `java.net.URI`: the expected URI is taken apart into decoded
components and put together again with its port added or removed.
-/

namespace Keycloak.Saml.Destination

abbrev Text := List Char

/-! ## java.net.URI -/

/-- An absolute hierarchical URI with a host; its components as they stand in the text. -/
structure URI where
  scheme : Text
  userInfo : Option Text
  host : Text
  port : Option Nat
  path : Text
  query : Option Text
  fragment : Option Text
  deriving DecidableEq

def lower (text : Text) : Text := text.map Char.toLower

def foldEscapes : Text → Text
  | [] => []
  | [c] => [c]
  | [c, d] => [c, d]
  | c :: d :: e :: rest =>
      if c = '%' then c :: d.toLower :: e.toLower :: foldEscapes rest
      else c :: foldEscapes (d :: e :: rest)

/-- `URI.equals`: scheme and host are compared without regard to case, and so are the
hexadecimal digits of escapes. -/
def URI.Equals (u v : URI) : Prop :=
  lower u.scheme = lower v.scheme ∧ u.userInfo.map foldEscapes = v.userInfo.map foldEscapes ∧
    lower u.host = lower v.host ∧ u.port = v.port ∧ foldEscapes u.path = foldEscapes v.path ∧
      u.query.map foldEscapes = v.query.map foldEscapes ∧
        u.fragment.map foldEscapes = v.fragment.map foldEscapes

instance (u v : URI) : Decidable (u.Equals v) :=
  inferInstanceAs (Decidable (_ ∧ _ ∧ _ ∧ _ ∧ _ ∧ _ ∧ _))

def hexValue (c : Char) : Nat :=
  if c.isDigit then c.toNat - '0'.toNat
  else if 'a' ≤ c ∧ c ≤ 'f' then c.toNat - 'a'.toNat + 10
  else c.toNat - 'A'.toNat + 10

def hexDigit (n : Nat) : Char := "0123456789ABCDEF".toList.getD n '0'

/-- Maximal runs of escapes are replaced by the characters that their bytes stand for. -/
def decodeRun (decodeBytes : List UInt8 → Text) : List UInt8 → Text → Text
  | run, [] => decodeBytes run
  | run, [c] => decodeBytes run ++ [c]
  | run, [c, d] => decodeBytes run ++ [c, d]
  | run, c :: d :: e :: rest =>
      if c = '%' then
        decodeRun decodeBytes (run ++ [UInt8.ofNat (16 * hexValue d + hexValue e)]) rest
      else decodeBytes run ++ c :: decodeRun decodeBytes [] (d :: e :: rest)

def decode (decodeBytes : List UInt8 → Text) (text : Text) : Text := decodeRun decodeBytes [] text

def escape (c : Char) : Text :=
  (String.utf8EncodeChar c).flatMap fun byte =>
    ['%', hexDigit (byte.toNat / 16), hexDigit (byte.toNat % 16)]

/-- The control characters and spaces beyond ASCII. -/
def isControlOrSpace (c : Char) : Bool :=
  (0x80 ≤ c.toNat && c.toNat ≤ 0xa0) || c.toNat = 0x1680 ||
    (0x2000 ≤ c.toNat && c.toNat ≤ 0x200a) ||
      [0x2028, 0x2029, 0x202f, 0x205f, 0x3000].contains c.toNat

/-- What the constructor does with a component: the percent sign is always quoted, characters
beyond ASCII only if they are control characters or spaces. -/
def quote (legal : Char → Bool) (text : Text) : Text :=
  text.flatMap fun c =>
    if c.toNat < 128 then
      if legal c then [c] else escape c
    else if isControlOrSpace c then escape c
    else [c]

def unreserved (c : Char) : Bool := c.isAlphanum || "-_.!~*'()".toList.contains c

def inUserInfo (c : Char) : Bool := unreserved c || ";:&=+$,".toList.contains c

def inPath (c : Char) : Bool := unreserved c || ":@&=+$,;/".toList.contains c

def inUric (c : Char) : Bool := unreserved c || ";/?:@&=+$,[]".toList.contains c

/-- `new URI(scheme, userInfo, host, port, path, query, fragment)` with the decoded components
of a URI. -/
def URI.rebuild (decodeBytes : List UInt8 → Text) (u : URI) (port : Option Nat) : URI where
  scheme := u.scheme
  userInfo := u.userInfo.map fun text => quote inUserInfo (decode decodeBytes text)
  host := u.host
  port := port
  path := quote inPath (decode decodeBytes u.path)
  query := u.query.map fun text => quote inUric (decode decodeBytes text)
  fragment := u.fragment.map fun text => quote inUric (decode decodeBytes text)

/-! ## Needed escapes -/

def isKept (legal : Char → Bool) (c : Char) : Bool :=
  if c.toNat < 128 then legal c else !isControlOrSpace c

/-- The text is made of one escape for each byte, with the digits in either case. -/
inductive EscapesOf : List UInt8 → Text → Prop
  | nil : EscapesOf [] []
  | cons {byte : UInt8} {bytes : List UInt8} {d e : Char} {rest : Text}
      (high : d.toLower = (hexDigit (byte.toNat / 16)).toLower)
      (low : e.toLower = (hexDigit (byte.toNat % 16)).toLower) (tail : EscapesOf bytes rest) :
      EscapesOf (byte :: bytes) ('%' :: d :: e :: rest)

/-- The text stands for the characters, and each of them that may be kept is not escaped. -/
inductive Spells (legal : Char → Bool) : Text → Text → Prop
  | nil : Spells legal [] []
  | kept {c : Char} {chars rest : Text} (hc : isKept legal c = true)
      (tail : Spells legal chars rest) : Spells legal (c :: chars) (c :: rest)
  | escaped {c : Char} {chars text rest : Text} (hc : isKept legal c = false)
      (escapes : EscapesOf (String.utf8EncodeChar c) text) (tail : Spells legal chars rest) :
      Spells legal (c :: chars) (text ++ rest)

/-- Every escape of the component stands for a character that may not be kept there. -/
def EscapesNeeded (legal : Char → Bool) (text : Text) : Prop := ∃ chars, Spells legal chars text

structure URI.EscapesNeeded (u : URI) : Prop where
  userInfo : ∀ text ∈ u.userInfo, Destination.EscapesNeeded inUserInfo text
  path : Destination.EscapesNeeded inPath u.path
  query : ∀ text ∈ u.query, Destination.EscapesNeeded inUric text
  fragment : ∀ text ∈ u.fragment, Destination.EscapesNeeded inUric text

/-- The two have the same scheme and host, and their decoded components are the same. -/
structure SameCharacters (decodeBytes : List UInt8 → Text) (u v : URI) : Prop where
  scheme : lower u.scheme = lower v.scheme
  userInfo : u.userInfo.map (decode decodeBytes) = v.userInfo.map (decode decodeBytes)
  host : lower u.host = lower v.host
  path : decode decodeBytes u.path = decode decodeBytes v.path
  query : u.query.map (decode decodeBytes) = v.query.map (decode decodeBytes)
  fragment : u.fragment.map (decode decodeBytes) = v.fragment.map (decode decodeBytes)

def DecodesUtf8 (decodeBytes : List UInt8 → Text) : Prop :=
  ∀ text : Text, decodeBytes (text.flatMap String.utf8EncodeChar) = text

section

variable {decodeBytes : List UInt8 → Text} {legal : Char → Bool}
variable {chars text text' rest rest' : Text} {bytes run : List UInt8} {c : Char}

def escapeBytes (bytes : List UInt8) : Text :=
  bytes.flatMap fun byte => ['%', hexDigit (byte.toNat / 16), hexDigit (byte.toNat % 16)]

theorem quote_cons_of_kept (hc : isKept legal c = true) :
    quote legal (c :: chars) = c :: quote legal chars := by
  unfold isKept at hc
  rw [quote, List.flatMap_cons]
  split_ifs at hc ⊢ <;> simp_all [quote]

theorem quote_cons_of_not_kept (hc : isKept legal c = false) :
    quote legal (c :: chars) = escapeBytes (String.utf8EncodeChar c) ++ quote legal chars := by
  unfold isKept at hc
  rw [quote, List.flatMap_cons]
  split_ifs at hc ⊢ <;> simp_all [quote, escape, escapeBytes]

theorem length_foldEscapes (text : Text) : (foldEscapes text).length = text.length := by
  fun_induction foldEscapes text <;> simp_all

theorem foldEscapes_cons (hc : c ≠ '%') (text : Text) :
    foldEscapes (c :: text) = c :: foldEscapes text := by
  match text with
  | [] => rfl
  | [d] => rfl
  | d :: e :: rest => exact if_neg hc

theorem foldEscapes_escape (d e : Char) (text : Text) :
    foldEscapes ('%' :: d :: e :: text) = '%' :: d.toLower :: e.toLower :: foldEscapes text := by
  rw [foldEscapes, if_pos rfl]

theorem exists_cons_of_foldEscapes (hc : c ≠ '%')
    (h : c :: text = foldEscapes text') : ∃ rest, text' = c :: rest ∧ text = foldEscapes rest := by
  match text' with
  | [] => cases h
  | [d] =>
      cases h
      exact ⟨[], rfl, rfl⟩
  | d :: e :: rest =>
      by_cases hd : d = '%'
      · subst hd
        cases rest with
        | nil =>
            cases h
            exact absurd rfl hc
        | cons e' rest =>
            rw [foldEscapes_escape] at h
            cases h
            exact absurd rfl hc
      · rw [foldEscapes_cons hd] at h
        obtain ⟨rfl, rfl⟩ := List.cons.inj h
        exact ⟨e :: rest, rfl, rfl⟩

theorem exists_escape_of_foldEscapes {d e : Char}
    (h : '%' :: d :: e :: text = foldEscapes text') :
    ∃ d' e' rest, text' = '%' :: d' :: e' :: rest ∧ d'.toLower = d ∧ e'.toLower = e ∧
      text = foldEscapes rest := by
  match text' with
  | [] => cases h
  | [_] => cases h
  | [_, _] => cases h
  | c :: d' :: e' :: rest =>
      by_cases hc : c = '%'
      · subst hc
        rw [foldEscapes_escape] at h
        cases h
        exact ⟨d', e', rest, rfl, rfl, rfl, rfl⟩
      · rw [foldEscapes_cons hc] at h
        exact absurd (List.cons.inj h).1.symm hc

theorem EscapesOf.foldEscapes_append (h : EscapesOf bytes text) (rest : Text) :
    foldEscapes (text ++ rest) = foldEscapes (escapeBytes bytes ++ rest) := by
  induction h with
  | nil => rfl
  | cons high low tail ih =>
      rw [escapeBytes, List.flatMap_cons]
      simp only [List.cons_append, List.nil_append]
      rw [foldEscapes_escape, foldEscapes_escape, high, low, ih, escapeBytes]

theorem foldEscapes_escapeBytes_append (h : foldEscapes rest = foldEscapes rest')
    (bytes : List UInt8) :
    foldEscapes (escapeBytes bytes ++ rest) = foldEscapes (escapeBytes bytes ++ rest') := by
  induction bytes with
  | nil => exact h
  | cons byte bytes ih =>
      rw [escapeBytes, List.flatMap_cons]
      simp only [List.cons_append, List.nil_append]
      rw [foldEscapes_escape, foldEscapes_escape, ← escapeBytes, ih]

theorem exists_escapesOf (h : foldEscapes (escapeBytes bytes ++ rest) = foldEscapes text) :
    ∃ escapes rest', text = escapes ++ rest' ∧ EscapesOf bytes escapes ∧
      foldEscapes rest = foldEscapes rest' := by
  induction bytes generalizing text with
  | nil => exact ⟨[], text, rfl, .nil, h⟩
  | cons byte bytes ih =>
      rw [escapeBytes, List.flatMap_cons] at h
      simp only [List.cons_append, List.nil_append] at h
      rw [foldEscapes_escape, ← escapeBytes] at h
      obtain ⟨d, e, text, rfl, hd, he, h⟩ := exists_escape_of_foldEscapes h
      obtain ⟨escapes, rest', rfl, hescapes, hrest⟩ := ih h
      exact ⟨'%' :: d :: e :: escapes, rest', rfl, .cons hd he hescapes, hrest⟩

/-- A component spells the characters exactly if it is their quotation, up to the case of
digits. -/
theorem spells_iff (hlegal : legal '%' = false) :
    Spells legal chars text ↔ foldEscapes (quote legal chars) = foldEscapes text := by
  have hne : ∀ {c}, isKept legal c = true → c ≠ '%' := by
    rintro _ hc rfl
    exact absurd (hlegal.symm.trans hc) (by decide)
  constructor
  · intro h
    induction h with
    | nil => rfl
    | kept hc tail ih =>
        rw [quote_cons_of_kept hc, foldEscapes_cons (hne hc), foldEscapes_cons (hne hc), ih]
    | escaped hc escapes tail ih =>
        rw [quote_cons_of_not_kept hc, escapes.foldEscapes_append]
        exact foldEscapes_escapeBytes_append ih _
  · intro h
    induction chars generalizing text with
    | nil =>
        have hlength : text.length = 0 := by
          rw [← length_foldEscapes, ← h]
          rfl
        rw [List.length_eq_zero_iff.mp hlength]
        exact .nil
    | cons c chars ih =>
        cases hc : isKept legal c with
        | true =>
            rw [quote_cons_of_kept hc, foldEscapes_cons (hne hc)] at h
            obtain ⟨rest, rfl, hrest⟩ := exists_cons_of_foldEscapes (hne hc) h
            exact .kept hc (ih hrest)
        | false =>
            rw [quote_cons_of_not_kept hc] at h
            obtain ⟨escapes, rest, rfl, hescapes, h⟩ := exists_escapesOf h
            exact .escaped hc hescapes (ih h)

theorem hexValue_of_toLower {d : Char} {n : Nat} (hn : n < 16)
    (h : d.toLower = (hexDigit n).toLower) : hexValue d = n := by
  have hall : ∀ n < 16, (hexDigit n).toLower.toNat < 128 ∧ ∀ code < 128,
      (Char.ofNat code).toLower = (hexDigit n).toLower → hexValue (Char.ofNat code) = n := by
    decide +kernel
  obtain ⟨hsmall, hvalue⟩ := hall n hn
  have hcode : d.toNat ≤ d.toLower.toNat := by
    rw [Uri.toNat_toLower]
    split <;> omega
  rw [h] at hcode
  rw [← Char.ofNat_toNat d] at h ⊢
  exact hvalue d.toNat (by omega) h

theorem EscapesOf.decodeRun_append (h : EscapesOf bytes text) (run : List UInt8) (rest : Text) :
    decodeRun decodeBytes run (text ++ rest) = decodeRun decodeBytes (run ++ bytes) rest := by
  induction h generalizing run with
  | nil => rw [List.append_nil, List.nil_append]
  | @cons byte bytes d e text high low tail ih =>
      have hbyte : UInt8.ofNat (16 * hexValue d + hexValue e) = byte := by
        have hlt := byte.toNat_lt
        rw [hexValue_of_toLower (by omega) high, hexValue_of_toLower (by omega) low,
          Nat.div_add_mod, UInt8.ofNat_toNat]
      simp only [List.cons_append, decodeRun, if_true]
      rw [hbyte, ih, List.append_assoc]
      rfl

theorem decodeRun_cons (hutf8 : DecodesUtf8 decodeBytes) (hc : c ≠ '%') (run : List UInt8)
    (text : Text) :
    decodeRun decodeBytes run (c :: text) =
      decodeBytes run ++ c :: decodeRun decodeBytes [] text := by
  have hempty : decodeBytes [] = [] := hutf8 []
  match text with
  | [] => simp [decodeRun, hempty]
  | [d] => simp [decodeRun, hempty]
  | d :: e :: rest => rw [decodeRun, if_neg hc]

theorem Spells.decodeRun_eq (hutf8 : DecodesUtf8 decodeBytes) (hlegal : legal '%' = false)
    (h : Spells legal chars text) (before : Text) :
    decodeRun decodeBytes (before.flatMap String.utf8EncodeChar) text = before ++ chars := by
  induction h generalizing before with
  | nil => rw [decodeRun, hutf8, List.append_nil]
  | @kept c chars rest hc tail ih =>
      have hne : c ≠ '%' := by
        rintro rfl
        exact absurd (hlegal.symm.trans hc) (by decide)
      have hrest : decodeRun decodeBytes [] rest = chars := ih []
      rw [decodeRun_cons hutf8 hne, hutf8, hrest]
  | @escaped c chars text rest hc escapes tail ih =>
      have hrun := ih (before ++ [c])
      rw [List.flatMap_append, List.flatMap_singleton] at hrun
      rw [escapes.decodeRun_append, hrun, List.append_assoc]
      rfl

/-- A component spells the characters that it stands for, and no others. -/
theorem Spells.decode_eq (hutf8 : DecodesUtf8 decodeBytes) (hlegal : legal '%' = false)
    (h : Spells legal chars text) : decode decodeBytes text = chars :=
  h.decodeRun_eq hutf8 hlegal []

/-- What is decoded and quoted again is the component with the same characters and needed
escapes only. -/
theorem quote_decode_iff (hutf8 : DecodesUtf8 decodeBytes) (hlegal : legal '%' = false) :
    foldEscapes (quote legal (decode decodeBytes text)) = foldEscapes text' ↔
      decode decodeBytes text = decode decodeBytes text' ∧ EscapesNeeded legal text' := by
  rw [← spells_iff hlegal]
  constructor
  · exact fun h => ⟨(h.decode_eq hutf8 hlegal).symm, _, h⟩
  · rintro ⟨hdecode, chars, h⟩
    rwa [hdecode, h.decode_eq hutf8 hlegal]

theorem quote_decode_option_iff (hutf8 : DecodesUtf8 decodeBytes) (hlegal : legal '%' = false)
    {o o' : Option Text} :
    (o.map fun text => quote legal (decode decodeBytes text)).map foldEscapes =
        o'.map foldEscapes ↔
      o.map (decode decodeBytes) = o'.map (decode decodeBytes) ∧
        ∀ text ∈ o', EscapesNeeded legal text := by
  cases o <;> cases o' <;> simp [quote_decode_iff hutf8 hlegal]

/-- Texts that are equal up to the case of digits have needed escapes only both or neither. -/
theorem escapesNeeded_congr (hlegal : legal '%' = false)
    (h : foldEscapes text = foldEscapes text') :
    EscapesNeeded legal text ↔ EscapesNeeded legal text' := by
  simp only [EscapesNeeded, spells_iff hlegal, h]

theorem escapesNeeded_option_congr (hlegal : legal '%' = false) {o o' : Option Text}
    (h : o.map foldEscapes = o'.map foldEscapes) :
    (∀ text ∈ o, EscapesNeeded legal text) ↔ ∀ text ∈ o', EscapesNeeded legal text := by
  cases o with
  | none => cases o' <;> simp_all
  | some text =>
      cases o' with
      | none => cases h
      | some text' =>
          rw [Option.map_some, Option.map_some, Option.some.injEq] at h
          simpa using escapesNeeded_congr hlegal h

theorem decode_congr (hutf8 : DecodesUtf8 decodeBytes) (hlegal : legal '%' = false)
    (h : foldEscapes text = foldEscapes text') (hneeded : EscapesNeeded legal text') :
    decode decodeBytes text = decode decodeBytes text' := by
  obtain ⟨chars, hchars⟩ := hneeded
  rw [hchars.decode_eq hutf8 hlegal]
  have hspells : Spells legal chars text :=
    (spells_iff hlegal).mpr (((spells_iff hlegal).mp hchars).trans h.symm)
  exact hspells.decode_eq hutf8 hlegal

theorem decode_option_congr (hutf8 : DecodesUtf8 decodeBytes) (hlegal : legal '%' = false)
    {o o' : Option Text} (h : o.map foldEscapes = o'.map foldEscapes)
    (hneeded : ∀ text ∈ o', EscapesNeeded legal text) :
    o.map (decode decodeBytes) = o'.map (decode decodeBytes) := by
  cases o with
  | none => cases o' <;> simp_all
  | some text =>
      cases o' with
      | none => cases h
      | some text' =>
          rw [Option.map_some, Option.map_some, Option.some.injEq] at h
          rw [Option.map_some, Option.map_some, decode_congr hutf8 hlegal h (hneeded text' rfl)]

end

/-! ## The validator -/

structure DestinationValidator where
  knownPorts : Text → Option Nat
  knownProtocols : Nat → Option Text

def isWhitespace (c : Char) : Bool := [' ', '\t', '\n', '\u000b', '\u000c', '\r'].contains c

/-- The characters of a protocol after its first; the range from plus to dot has the comma. -/
def inProtocol (c : Char) : Bool := c.isAlphanum || ['+', ',', '-', '.'].contains c

/-- `PROTOCOL_MAP_PATTERN`: the protocol and the digits of the port. -/
def matchMapping (protocolMapping : Text) : Option (Text × Text) :=
  match protocolMapping.dropWhile isWhitespace with
  | [] => none
  | c :: rest =>
      if c.isAlpha then
        match (rest.dropWhile inProtocol).dropWhile isWhitespace with
        | [] => none
        | d :: afterProtocol =>
            let digits := (afterProtocol.dropWhile isWhitespace).takeWhile Char.isDigit
            let afterDigits := (afterProtocol.dropWhile isWhitespace).dropWhile Char.isDigit
            if d = '=' ∧ digits ≠ [] ∧ afterDigits.all isWhitespace then
              some (c :: rest.takeWhile inProtocol, digits)
            else none
      else none

/-- `Integer.valueOf` of digits, none where it throws. -/
def integerValueOf (digits : Text) : Option Nat :=
  let value := digits.foldl (fun n c => 10 * n + (c.toNat - '0'.toNat)) 0
  if value ≤ 2147483647 then some value else none

/-- The entries of the mappings that match the pattern. -/
def entries : List Text → Option (List (Text × Nat))
  | [] => some []
  | protocolMapping :: rest =>
      match matchMapping protocolMapping with
      | none => entries rest
      | some (proto, digits) => do
          let port ← integerValueOf digits
          let rest ← entries rest
          some ((proto, port) :: rest)

def DestinationValidator.put (validator : DestinationValidator) (entry : Text × Nat) :
    DestinationValidator where
  knownPorts := Function.update validator.knownPorts entry.1 (some entry.2)
  knownProtocols := Function.update validator.knownProtocols entry.2 (some entry.1)

@[simp] theorem put_knownPorts (validator : DestinationValidator) (entry : Text × Nat) :
    (validator.put entry).knownPorts =
      Function.update validator.knownPorts entry.1 (some entry.2) := rfl

@[simp] theorem put_knownProtocols (validator : DestinationValidator) (entry : Text × Nat) :
    (validator.put entry).knownProtocols =
      Function.update validator.knownProtocols entry.2 (some entry.1) := rfl

/-- The maps after all entries have been put. -/
def ofEntries (entries : List (Text × Nat)) : DestinationValidator :=
  entries.foldl DestinationValidator.put ⟨fun _ => none, fun _ => none⟩

def defaultProtocolToPortMap : List Text := ["http=80".toList, "https=443".toList]

/-- None where a port is too large for `Integer.valueOf`. -/
def forProtocolMap (protocolMappings : Option (List Text)) : Option DestinationValidator :=
  (entries (protocolMappings.getD defaultProtocolToPortMap)).map ofEntries

section

variable (decodeBytes : List UInt8 → Text)

def updatedUri (validator : DestinationValidator) (expected : URI) : Option URI :=
  match expected.port with
  | none =>
      (validator.knownPorts expected.scheme).map fun portByScheme =>
        expected.rebuild decodeBytes (some portByScheme)
  | some port =>
      if validator.knownProtocols port = some expected.scheme then
        some (expected.rebuild decodeBytes none)
      else none

def validate (validator : DestinationValidator)
    (expectedDestination actualDestination : Option URI) : Bool :=
  match actualDestination with
  | none => true
  | some actual =>
      match expectedDestination with
      | none => false
      | some expected =>
          if expected.Equals actual then true
          else
            match updatedUri decodeBytes validator expected with
            | none => false
            | some updated => decide (updated.Equals actual)

end

/-! ## Default ports -/

def URI.withoutKnownPort (knownPorts : Text → Option Nat) (u : URI) : URI :=
  if u.port.isSome ∧ u.port = knownPorts u.scheme then { u with port := none } else u

def SameElsewhere (u v : URI) : Prop := URI.Equals { u with port := none } { v with port := none }

instance (u v : URI) : Decidable (SameElsewhere u v) :=
  inferInstanceAs (Decidable (URI.Equals _ _))

def LastOfProtocol (entries : List (Text × Nat)) (entry : Text × Nat) : Prop :=
  ∃ earlier later, entries = earlier ++ entry :: later ∧ ∀ other ∈ later, other.1 ≠ entry.1

def LastOfPort (entries : List (Text × Nat)) (entry : Text × Nat) : Prop :=
  ∃ earlier later, entries = earlier ++ entry :: later ∧ ∀ other ∈ later, other.2 ≠ entry.2

/-- The one port is the known port of the scheme, and the other is not given. -/
def DefaultPortOnly (entries : List (Text × Nat)) (expected actual : URI) : Prop :=
  ∃ port, LastOfProtocol entries (expected.scheme, port) ∧
    (expected.port = none ∧ actual.port = some port ∨
      expected.port = some port ∧ actual.port = none)

/-- The expected port is the known one of the scheme, but a later entry gives it to another
protocol; the actual port is not given. -/
def TakenPort (entries : List (Text × Nat)) (expected actual : URI) : Prop :=
  ∃ port, LastOfProtocol entries (expected.scheme, port) ∧
    ¬ LastOfPort entries (expected.scheme, port) ∧
      expected.port = some port ∧ actual.port = none

/-- The scheme has a later entry than the one that gives it the expected port; the actual port
is not given. -/
def FormerPort (entries : List (Text × Nat)) (expected actual : URI) : Prop :=
  ∃ port, LastOfPort entries (expected.scheme, port) ∧
    ¬ LastOfProtocol entries (expected.scheme, port) ∧
      expected.port = some port ∧ actual.port = none

section

variable {decodeBytes : List UInt8 → Text} {entries : List (Text × Nat)} {e a : URI}
variable {proto : Text} {port : Nat}

theorem ofEntries_append_singleton (entries : List (Text × Nat)) (entry : Text × Nat) :
    ofEntries (entries ++ [entry]) = (ofEntries entries).put entry := by
  rw [ofEntries, ofEntries, List.foldl_append]
  rfl

/-- A list with one more entry at its end: that one, or the last before it unless it has the
same key. -/
theorem last_append_singleton {α β : Type} {key : α → β} {list : List α} {x y : α} :
    (∃ earlier later, list ++ [y] = earlier ++ x :: later ∧ ∀ z ∈ later, key z ≠ key x) ↔
      x = y ∨ key y ≠ key x ∧
        ∃ earlier later, list = earlier ++ x :: later ∧ ∀ z ∈ later, key z ≠ key x := by
  constructor
  · rintro ⟨earlier, later, heq, hlater⟩
    induction later using List.reverseRecOn with
    | nil =>
        obtain ⟨-, hx⟩ := List.append_inj' heq rfl
        cases hx
        exact .inl rfl
    | append_singleton later z =>
        rw [← List.cons_append, ← List.append_assoc] at heq
        obtain ⟨rfl, hz⟩ := List.append_inj' heq rfl
        cases hz
        exact .inr ⟨hlater y (by simp), earlier, later, rfl,
          fun z hz => hlater z (List.mem_append_left _ hz)⟩
  · rintro (rfl | ⟨hne, earlier, later, rfl, hlater⟩)
    · exact ⟨list, [], rfl, fun z hz => absurd hz List.not_mem_nil⟩
    · refine ⟨earlier, later ++ [y], by simp, fun z hz => ?_⟩
      rcases List.mem_append.mp hz with hz | hz
      · exact hlater z hz
      · rw [List.mem_singleton] at hz
        exact hz ▸ hne

theorem knownPorts_eq_some_iff :
    (ofEntries entries).knownPorts proto = some port ↔ LastOfProtocol entries (proto, port) := by
  induction entries using List.reverseRecOn with
  | nil => simp [ofEntries, LastOfProtocol]
  | append_singleton entries entry ih =>
      obtain ⟨proto', port'⟩ := entry
      rw [ofEntries_append_singleton, put_knownPorts, LastOfProtocol, last_append_singleton]
      by_cases hproto : proto = proto'
      · subst hproto
        simp [eq_comm]
      · rw [Function.update_of_ne hproto, ih, LastOfProtocol]
        simp [hproto, Ne.symm hproto]

theorem knownProtocols_eq_some_iff :
    (ofEntries entries).knownProtocols port = some proto ↔ LastOfPort entries (proto, port) := by
  induction entries using List.reverseRecOn with
  | nil => simp [ofEntries, LastOfPort]
  | append_singleton entries entry ih =>
      obtain ⟨proto', port'⟩ := entry
      rw [ofEntries_append_singleton, put_knownProtocols, LastOfPort, last_append_singleton]
      by_cases hport : port = port'
      · subst hport
        simp [eq_comm]
      · rw [Function.update_of_ne hport, ih, LastOfPort]
        simp [hport, Ne.symm hport]

theorem equals_iff : e.Equals a ↔ SameElsewhere e a ∧ e.port = a.port := by
  unfold SameElsewhere URI.Equals
  constructor
  · rintro ⟨hscheme, huser, hhost, hport, hrest⟩
    exact ⟨⟨hscheme, huser, hhost, rfl, hrest⟩, hport⟩
  · rintro ⟨⟨hscheme, huser, hhost, -, hrest⟩, hport⟩
    exact ⟨hscheme, huser, hhost, hport, hrest⟩

theorem port_withoutKnownPort (knownPorts : Text → Option Nat) (u : URI) :
    (u.withoutKnownPort knownPorts).port =
      if u.port = knownPorts u.scheme then none else u.port := by
  unfold URI.withoutKnownPort
  by_cases hport : u.port = knownPorts u.scheme
  · rw [if_pos hport]
    split_ifs with h
    · rfl
    · simpa [hport] using h
  · rw [if_neg hport, if_neg fun h => hport h.2]

theorem sameElsewhere_withoutKnownPort (knownPorts : Text → Option Nat) (u v : URI) :
    SameElsewhere (u.withoutKnownPort knownPorts) (v.withoutKnownPort knownPorts) ↔
      SameElsewhere u v := by
  have hfree : ∀ u : URI, { u.withoutKnownPort knownPorts with port := none } =
      { u with port := none } := by
    intro u
    unfold URI.withoutKnownPort
    split_ifs <;> rfl
  rw [SameElsewhere, hfree u, hfree v, SameElsewhere]

theorem scheme_eq (he : lower e.scheme = e.scheme) (ha : lower a.scheme = a.scheme)
    (h : SameElsewhere e a) : e.scheme = a.scheme := by
  rw [← he, ← ha]
  exact h.1

/-- Two ports are the same up to the known one. -/
theorem ports_eq_iff {known p q : Option Nat} :
    (if p = known then none else p) = (if q = known then none else q) ↔
      p = q ∨ ∃ port, known = some port ∧
        (p = none ∧ q = some port ∨ p = some port ∧ q = none) := by
  constructor
  · intro h
    split_ifs at h with hp hq hq
    · exact .inl (hp.trans hq.symm)
    · cases known with
      | none => exact .inl (hp.trans h)
      | some port => exact .inr ⟨port, rfl, .inr ⟨hp, h.symm⟩⟩
    · cases known with
      | none => exact .inl (h.trans hq.symm)
      | some port => exact .inr ⟨port, rfl, .inl ⟨h, hq⟩⟩
    · exact .inl h
  · rintro (rfl | ⟨port, rfl, ⟨rfl, rfl⟩ | ⟨rfl, rfl⟩⟩)
    · rfl
    · simp
    · simp

/-- What it means to be equal up to the known ports. -/
theorem equals_withoutKnownPort_iff (he : lower e.scheme = e.scheme)
    (ha : lower a.scheme = a.scheme) :
    (e.withoutKnownPort (ofEntries entries).knownPorts).Equals
        (a.withoutKnownPort (ofEntries entries).knownPorts) ↔
      SameElsewhere e a ∧ (e.port = a.port ∨ DefaultPortOnly entries e a) := by
  rw [equals_iff, sameElsewhere_withoutKnownPort, port_withoutKnownPort, port_withoutKnownPort]
  refine and_congr_right fun hsame => ?_
  rw [← scheme_eq he ha hsame, ports_eq_iff]
  simp only [DefaultPortOnly, knownPorts_eq_some_iff]

/-- Up to the port, the URI that is put together again has the same characters as the expected
one, with needed escapes only. -/
theorem sameElsewhere_rebuild_iff (hutf8 : DecodesUtf8 decodeBytes) :
    SameElsewhere (e.rebuild decodeBytes none) a ↔
      SameCharacters decodeBytes e a ∧ a.EscapesNeeded := by
  have huser : inUserInfo '%' = false := by decide
  have hpath : inPath '%' = false := by decide
  have huric : inUric '%' = false := by decide
  unfold SameElsewhere URI.Equals
  simp only [URI.rebuild, quote_decode_iff hutf8 hpath, quote_decode_option_iff hutf8 huser,
    quote_decode_option_iff hutf8 huric, true_and]
  constructor
  · rintro ⟨hscheme, ⟨huser, huser'⟩, hhost, ⟨hpath, hpath'⟩, ⟨hquery, hquery'⟩, hfragment,
      hfragment'⟩
    exact ⟨⟨hscheme, huser, hhost, hpath, hquery, hfragment⟩,
      ⟨huser', hpath', hquery', hfragment'⟩⟩
  · rintro ⟨⟨hscheme, huser, hhost, hpath, hquery, hfragment⟩,
      ⟨huser', hpath', hquery', hfragment'⟩⟩
    exact ⟨hscheme, ⟨huser, huser'⟩, hhost, ⟨hpath, hpath'⟩, ⟨hquery, hquery'⟩, hfragment,
      hfragment'⟩

/-- URIs that are equal up to the port have needed escapes only both or neither. -/
theorem SameElsewhere.escapesNeeded_iff (h : SameElsewhere e a) :
    e.EscapesNeeded ↔ a.EscapesNeeded := by
  obtain ⟨-, huser, -, -, hpath, hquery, hfragment⟩ := h
  constructor
  · rintro ⟨huser', hpath', hquery', hfragment'⟩
    exact ⟨(escapesNeeded_option_congr (by decide) huser).mp huser',
      (escapesNeeded_congr (by decide) hpath).mp hpath',
      (escapesNeeded_option_congr (by decide) hquery).mp hquery',
      (escapesNeeded_option_congr (by decide) hfragment).mp hfragment'⟩
  · rintro ⟨huser', hpath', hquery', hfragment'⟩
    exact ⟨(escapesNeeded_option_congr (by decide) huser).mpr huser',
      (escapesNeeded_congr (by decide) hpath).mpr hpath',
      (escapesNeeded_option_congr (by decide) hquery).mpr hquery',
      (escapesNeeded_option_congr (by decide) hfragment).mpr hfragment'⟩

theorem SameElsewhere.sameCharacters (h : SameElsewhere e a) (hutf8 : DecodesUtf8 decodeBytes)
    (hneeded : a.EscapesNeeded) : SameCharacters decodeBytes e a := by
  obtain ⟨hscheme, huser, hhost, -, hpath, hquery, hfragment⟩ := h
  obtain ⟨huser', hpath', hquery', hfragment'⟩ := hneeded
  exact ⟨hscheme, decode_option_congr hutf8 (by decide) huser huser', hhost,
    decode_congr hutf8 (by decide) hpath hpath',
    decode_option_congr hutf8 (by decide) hquery hquery',
    decode_option_congr hutf8 (by decide) hfragment hfragment'⟩

/-- What the updated URI is compared with: the ports that it adds or takes away. -/
theorem exists_updatedUri_iff :
    (∃ updated, updatedUri decodeBytes (ofEntries entries) e = some updated ∧ updated.Equals a) ↔
      SameElsewhere (e.rebuild decodeBytes none) a ∧
        (DefaultPortOnly entries e a ∧ ¬ TakenPort entries e a ∨ FormerPort entries e a) := by
  have hrebuilt : ∀ port, (e.rebuild decodeBytes port).Equals a ↔
      SameElsewhere (e.rebuild decodeBytes none) a ∧ port = a.port := fun port => equals_iff
  unfold updatedUri DefaultPortOnly TakenPort FormerPort
  cases heport : e.port with
  | none =>
      simp only [Option.map_eq_some_iff, knownPorts_eq_some_iff]
      constructor
      · rintro ⟨updated, ⟨port, hlast, rfl⟩, hequals⟩
        obtain ⟨hsame, hport⟩ := (hrebuilt (some port)).mp hequals
        exact ⟨hsame, .inl ⟨⟨port, hlast, .inl ⟨trivial, hport.symm⟩⟩, by simp⟩⟩
      · rintro ⟨hsame, ⟨⟨port, hlast, ⟨-, hport⟩ | ⟨h, -⟩⟩, -⟩ | ⟨port, -, -, h, -⟩⟩
        · exact ⟨_, ⟨port, hlast, rfl⟩, (hrebuilt (some port)).mpr ⟨hsame, hport.symm⟩⟩
        · cases h
        · cases h
  | some port =>
      constructor
      · rintro ⟨updated, hupdated, hequals⟩
        dsimp only at hupdated
        split_ifs at hupdated with hknown
        cases hupdated
        have hport := knownProtocols_eq_some_iff.mp hknown
        obtain ⟨hsame, hnone⟩ := (hrebuilt none).mp hequals
        by_cases hproto : LastOfProtocol entries (e.scheme, port)
        · refine ⟨hsame, .inl ⟨⟨port, hproto, .inr ⟨rfl, hnone.symm⟩⟩, ?_⟩⟩
          rintro ⟨port', -, hnot, heq, -⟩
          cases heq
          exact hnot hport
        · exact ⟨hsame, .inr ⟨port, hport, hproto, rfl, hnone.symm⟩⟩
      · rintro ⟨hsame, hports⟩
        have hlast : LastOfPort entries (e.scheme, port) ∧ a.port = none := by
          rcases hports with ⟨⟨port', hproto, ⟨h, -⟩ | ⟨h, hnone⟩⟩, hnot⟩ |
            ⟨port', hlast, -, h, hnone⟩
          · cases h
          · cases h
            by_contra hfree
            exact hnot ⟨port, hproto, fun hlast => hfree ⟨hlast, hnone⟩, rfl, hnone⟩
          · cases h
            exact ⟨hlast, hnone⟩
        exact ⟨_, if_pos (knownProtocols_eq_some_iff.mpr hlast.1),
          (hrebuilt none).mpr ⟨hsame, hlast.2.symm⟩⟩

theorem validate_eq_true_iff {validator : DestinationValidator} :
    validate decodeBytes validator (some e) (some a) = true ↔
      e.Equals a ∨
        ∃ updated, updatedUri decodeBytes validator e = some updated ∧ updated.Equals a := by
  unfold validate
  by_cases h : e.Equals a
  · simp [h]
  · cases hupdated : updatedUri decodeBytes validator e with
    | none => simp [h, hupdated]
    | some updated => simp [h, hupdated]

end

section

variable {entries : List (Text × Nat)} {e a : URI}

theorem TakenPort.defaultPortOnly (h : TakenPort entries e a) : DefaultPortOnly entries e a := by
  obtain ⟨port, hlast, -, heport, haport⟩ := h
  exact ⟨port, hlast, .inr ⟨heport, haport⟩⟩

theorem FormerPort.not_defaultPortOnly (h : FormerPort entries e a) :
    ¬ DefaultPortOnly entries e a := by
  obtain ⟨port, -, hnot, heport, -⟩ := h
  rintro ⟨port', hlast, ⟨heport', -⟩ | ⟨heport', -⟩⟩
  · cases heport.symm.trans heport'
  · cases heport.symm.trans heport'
    exact hnot hlast

theorem port_ne_of_defaultPortOnly (h : DefaultPortOnly entries e a) : e.port ≠ a.port := by
  obtain ⟨port, -, ⟨heport, haport⟩ | ⟨heport, haport⟩⟩ := h <;> simp [heport, haport]

theorem FormerPort.port_ne (h : FormerPort entries e a) : e.port ≠ a.port := by
  obtain ⟨port, -, -, heport, haport⟩ := h
  simp [heport, haport]

end

/-- The validator compares up to default ports, exactly if
- where the URIs differ by a default port and are equal elsewhere, all escapes of the expected
  one are needed;
- where they differ by a default port and not only there, the actual one is not the expected one
  with its needless escapes taken back;
- no later entry gives the expected port, which the actual URI leaves out, to another protocol;
- where the expected port is an earlier one of its scheme, the actual URI is not the expected one
  without it. -/
theorem validate_iff {decodeBytes : List UInt8 → Text} (hutf8 : DecodesUtf8 decodeBytes)
    {protocolMappings : Option (List Text)} {given : List (Text × Nat)}
    (hgiven : entries (protocolMappings.getD defaultProtocolToPortMap) = some given) (e a : URI)
    (he : lower e.scheme = e.scheme) (ha : lower a.scheme = a.scheme) :
    ∃ validator, forProtocolMap protocolMappings = some validator ∧
      ((validate decodeBytes validator (some e) (some a) = true ↔
          (e.withoutKnownPort validator.knownPorts).Equals
            (a.withoutKnownPort validator.knownPorts)) ↔
        (DefaultPortOnly given e a → ¬ TakenPort given e a →
          (SameElsewhere e a → e.EscapesNeeded) ∧
            (SameCharacters decodeBytes e a → a.EscapesNeeded → SameElsewhere e a)) ∧
        (TakenPort given e a → ¬ SameElsewhere e a) ∧
        (FormerPort given e a → SameCharacters decodeBytes e a → ¬ a.EscapesNeeded)) := by
  refine ⟨ofEntries given, by rw [forProtocolMap, hgiven, Option.map_some], ?_⟩
  have hneeded : (SameElsewhere e a ↔ SameCharacters decodeBytes e a ∧ a.EscapesNeeded) ↔
      (SameElsewhere e a → e.EscapesNeeded) ∧
        (SameCharacters decodeBytes e a → a.EscapesNeeded → SameElsewhere e a) := by
    constructor
    · exact fun h => ⟨fun hsame => hsame.escapesNeeded_iff.mpr (h.mp hsame).2,
        fun hchars hescapes => h.mpr ⟨hchars, hescapes⟩⟩
    · rintro ⟨hescapes, hsame⟩
      refine ⟨fun h => ?_, fun h => hsame h.1 h.2⟩
      have hactual := h.escapesNeeded_iff.mp (hescapes h)
      exact ⟨h.sameCharacters hutf8 hactual, hactual⟩
  rw [validate_eq_true_iff, exists_updatedUri_iff, equals_withoutKnownPort_iff he ha, equals_iff,
    sameElsewhere_rebuild_iff hutf8, ← hneeded]
  by_cases hdefault : DefaultPortOnly given e a
  · have hport := port_ne_of_defaultPortOnly hdefault
    have hformer : ¬ FormerPort given e a := fun h => h.not_defaultPortOnly hdefault
    by_cases htaken : TakenPort given e a
    · simp [hport, hdefault, hformer, htaken]
    · simp [hport, hdefault, hformer, htaken, iff_comm]
  · have htaken : ¬ TakenPort given e a := fun h => hdefault h.defaultPortOnly
    by_cases hformer : FormerPort given e a
    · simp [hformer.port_ne, hdefault, hformer, htaken]
    · simp [hdefault, hformer, htaken]

/-! ## Escapes -/

/-- The replacement character stands for bytes that are no text. -/
def decodeUtf8 (bytes : List UInt8) : Text :=
  (bytes.toByteArray.utf8Decode?.map Array.toList).getD ['\ufffd']

theorem decodesUtf8 : DecodesUtf8 decodeUtf8 := by
  intro text
  have hdecode : (text.flatMap String.utf8EncodeChar).toByteArray.utf8Decode? =
      some text.toArray := List.utf8Decode?_utf8Encode
  rw [decodeUtf8, hdecode, Option.map_some, Option.getD_some, List.toList_toArray]

def defaultEntries : List (Text × Nat) := [("http".toList, 80), ("https".toList, 443)]

theorem entries_defaultProtocolToPortMap :
    entries defaultProtocolToPortMap = some defaultEntries := by
  decide +kernel

def destination (port : Option Nat) (path : String) : URI :=
  ⟨"https".toList, none, "sso.example.com".toList, port, path.toList, none, none⟩

theorem escapesNeeded_space : (destination none "/a%20b").EscapesNeeded where
  userInfo _ h := by cases h
  path := ⟨"/a b".toList, .kept rfl (.kept rfl (@Spells.escaped inPath ' ' ['b'] "%20".toList ['b']
    rfl (.cons rfl rfl .nil) (.kept rfl .nil)))⟩
  query _ h := by cases h
  fragment _ h := by cases h

/-- A space in the path is quoted again as it was, so the default port makes no difference. -/
theorem validate_of_space :
    ∃ validator, forProtocolMap none = some validator ∧
      validate decodeUtf8 validator (some (destination none "/a%20b"))
        (some (destination (some 443) "/a%20b")) = true := by
  obtain ⟨validator, hvalidator, hiff⟩ := @validate_iff decodeUtf8 decodesUtf8 none defaultEntries
    entries_defaultProtocolToPortMap (destination none "/a%20b") (destination (some 443) "/a%20b")
    (by decide +kernel) (by decide +kernel)
  refine ⟨validator, hvalidator, (hiff.mpr ⟨fun _ _ => ⟨fun _ => escapesNeeded_space,
    fun _ _ => by decide +kernel⟩, ?_, ?_⟩).mpr ?_⟩
  · rintro ⟨port, -, -, h, -⟩
    cases h
  · rintro ⟨port, -, -, h, -⟩
    cases h
  · rw [forProtocolMap, Option.getD_none, entries_defaultProtocolToPortMap, Option.map_some,
      Option.some.injEq] at hvalidator
    subst hvalidator
    decide +kernel

/-- An escaped slash in the path is a plain one after quoting, so the same URI with its default
port is refused. -/
theorem not_validate_of_slash :
    ¬ (validate decodeUtf8 (ofEntries defaultEntries) (some (destination none "/a%2Fb"))
        (some (destination (some 443) "/a%2Fb")) = true ↔
      ((destination none "/a%2Fb").withoutKnownPort (ofEntries defaultEntries).knownPorts).Equals
        ((destination (some 443) "/a%2Fb").withoutKnownPort
          (ofEntries defaultEntries).knownPorts)) := by
  decide +kernel

end Keycloak.Saml.Destination
