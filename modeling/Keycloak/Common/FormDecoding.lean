import Keycloak.Common.Encode
import Keycloak.Lib.GenericUri
import Keycloak.Lib.Utf16

/-!
# Form decoding

A query is a list of pieces between ampersands, each a name and a value; a name or a value
stands for bytes, with plus signs for spaces and percent signs for other bytes, and the bytes
for a text in UTF-8.  The encoding of a name or value is one 16-bit unit at a time, so it is
read back unless the text has characters of two units.
-/

namespace Keycloak.Common.FormDecoding

open Encode (Text isAlphanum isHex percent openBrace closeBrace hexDigit escapeByte utf8 urlEncode
  queryNameValueEncoding encodeQueryParamAsIs)
open GenericUri (noneOf)

/-! ## Decoding -/

def hexValue (c : Nat) : Nat :=
  if c ≤ 57 then c - 48 else if c ≤ 70 then c - 55 else c - 87

/-- The bytes that a text stands for, none for a percent sign without digits. -/
def bytes : Text → Option (List UInt8)
  | [] => some []
  | c :: rest =>
      if c = percent then
        match rest with
        | a :: b :: rest =>
            if isHex a && isHex b then
              (bytes rest).map (UInt8.ofNat (16 * hexValue a + hexValue b) :: ·)
            else none
        | _ => none
      else if c < 128 then (bytes rest).map (UInt8.ofNat (if c = 43 then 32 else c) :: ·)
      else none

def decodeText (text : Text) : Option (List Char) :=
  (bytes text).bind fun bytes => bytes.toByteArray.utf8Decode?.map Array.toList

/-- A name up to the first equals sign, and the value behind it. -/
def decodePair (piece : Text) : Option (List Char × List Char) := do
  let name ← decodeText (piece.takeWhile (noneOf [61]))
  let value ← decodeText ((piece.dropWhile (noneOf [61])).drop 1)
  return (name, value)

def formDecode (query : Text) : Option (List (List Char × List Char)) :=
  ((query.splitOn 38).filter (· ≠ [])).mapM decodePair

/-! ## What encoded units stand for -/

theorem bytes_cons_of_ne {c : Nat} (hc : c ≠ percent) (hlt : c < 128) (text : Text) :
    bytes (c :: text) = (bytes text).map (UInt8.ofNat (if c = 43 then 32 else c) :: ·) := by
  rw [bytes.eq_def]
  simp only [if_neg hc, if_pos hlt]

theorem bytes_code {a b : Nat} (ha : isHex a = true) (hb : isHex b = true) (text : Text) :
    bytes (percent :: a :: b :: text) =
      (bytes text).map (UInt8.ofNat (16 * hexValue a + hexValue b) :: ·) := by
  rw [bytes, if_pos rfl, ha, hb]
  rfl

theorem hexValue_hexDigit (n : Nat) : hexValue (hexDigit n) = n % 16 := by
  have hlt : n % 16 < 16 := Nat.mod_lt n (by decide)
  unfold hexValue hexDigit
  split_ifs <;> omega

theorem bytes_escapeByte {byte : Nat} (h : byte < 256) (text : Text) :
    bytes (escapeByte byte ++ text) = (bytes text).map (UInt8.ofNat byte :: ·) := by
  have hvalue : 16 * hexValue (hexDigit (byte / 16)) + hexValue (hexDigit byte) = byte := by
    rw [hexValue_hexDigit, hexValue_hexDigit]
    omega
  rw [escapeByte, List.cons_append, List.cons_append, List.singleton_append,
    bytes_code (Encode.isHex_hexDigit _) (Encode.isHex_hexDigit _), hvalue]

theorem bytes_flatMap_escapeByte {list : List Nat} (h : ∀ byte ∈ list, byte < 256) (text : Text) :
    bytes (list.flatMap escapeByte ++ text) = (bytes text).map (list.map UInt8.ofNat ++ ·) := by
  induction list with
  | nil =>
      rw [List.flatMap_nil, List.nil_append, List.map_nil]
      simp
  | cons byte list ih =>
      obtain ⟨hbyte, hlist⟩ := List.forall_mem_cons.mp h
      rw [List.flatMap_cons, List.append_assoc, bytes_escapeByte hbyte, ih hlist, Option.map_map]
      rfl

def encodeUnit (c : Nat) : Text := (Encode.encode c queryNameValueEncoding).getD [c]

theorem encodeQueryParamAsIs_eq (text : Text) :
    encodeQueryParamAsIs text = text.flatMap encodeUnit := by
  simp only [encodeQueryParamAsIs, Encode.encodeFromArray, Bool.not_true, Bool.false_and,
    Bool.false_eq_true, if_false]
  rfl

theorem isAlphanum_ne {c : Nat} (h : isAlphanum c = true) : c < 128 ∧ c ≠ percent ∧ c ≠ 43 := by
  simp only [isAlphanum, Bool.or_eq_true, Bool.and_eq_true, decide_eq_true_eq] at h
  refine ⟨by omega, fun heq => ?_, fun heq => ?_⟩
  · rw [heq] at h
    revert h
    decide
  · omega

theorem utf8_lt {c : Nat} (h : c < 65536) : ∀ byte ∈ utf8 c, byte < 256 := by
  intro byte hbyte
  unfold utf8 at hbyte
  split_ifs at hbyte <;>
    simp only [List.mem_cons, List.not_mem_nil, or_false] at hbyte <;> omega

theorem encodeUnit_cases (c : Nat) :
    (encodeUnit c = [c] ∧ c < 128 ∧
      (isAlphanum c = true ∨ c ∈ [45, 46, 95, 126, 63, 42])) ∨
    (encodeUnit c = [43] ∧ c = 32) ∨
    (encodeUnit c = (utf8 c).flatMap escapeByte ∧ c ≠ 32) := by
  have hkept : Encode.units ['-', '.', '_', '~', '?'] = [45, 46, 95, 126, 63] := by decide
  have hsafe : Encode.units ['-', '_', '.', '*'] = [45, 95, 46, 42] := by decide
  have hplus : Encode.units ['+'] = [43] := by decide
  have hurl : ∀ c, c ≠ 32 → (urlEncode c = [c] ∧ c < 128 ∧
      (isAlphanum c = true ∨ c ∈ [45, 46, 95, 126, 63, 42])) ∨
      urlEncode c = (utf8 c).flatMap escapeByte := by
    intro c hspace
    rw [urlEncode, hsafe]
    split_ifs with hkeep
    · refine .inl ⟨rfl, ?_⟩
      simp only [Bool.or_eq_true, List.contains_eq_mem, decide_eq_true_eq] at hkeep
      rcases hkeep with halnum | hmem
      · exact ⟨(isAlphanum_ne halnum).1, .inl halnum⟩
      · have hclass : ∀ c ∈ [45, 95, 46, 42], c < 128 ∧ c ∈ [45, 46, 95, 126, 63, 42] := by decide
        exact ⟨(hclass c hmem).1, .inr (hclass c hmem).2⟩
    · exact .inr rfl
  rw [encodeUnit, Encode.encode]
  by_cases hlt : c < 128
  · rw [if_pos hlt, queryNameValueEncoding, Encode.table, hkept]
    split_ifs with hkeep hspace
    · refine .inl ⟨rfl, hlt, ?_⟩
      simp only [Bool.or_eq_true, List.contains_eq_mem, decide_eq_true_eq] at hkeep
      have hclass : ∀ c ∈ [45, 46, 95, 126, 63], c ∈ [45, 46, 95, 126, 63, 42] := by decide
      exact hkeep.imp id (hclass c)
    · exact .inr (.inl ⟨hplus, hspace⟩)
    · rw [Option.getD_some]
      exact (hurl c hspace).imp id fun h => .inr ⟨h, hspace⟩
  · have hspace : c ≠ 32 := by omega
    rw [if_neg hlt, Option.getD_some]
    exact (hurl c hspace).imp id fun h => .inr ⟨h, hspace⟩

theorem bytes_encodeUnit {c : Nat} (h : c < 65536) (text : Text) :
    bytes (encodeUnit c ++ text) = (bytes text).map ((utf8 c).map UInt8.ofNat ++ ·) := by
  rcases encodeUnit_cases c with ⟨hunit, hlt, hclass⟩ | ⟨hunit, rfl⟩ | ⟨hunit, -⟩
  · have hne : c ≠ percent ∧ c ≠ 43 := by
      rcases hclass with halnum | hmem
      · exact (isAlphanum_ne halnum).2
      · have hmarks : ∀ c ∈ [45, 46, 95, 126, 63, 42], c ≠ percent ∧ c ≠ 43 := by decide
        exact hmarks c hmem
    rw [hunit, List.singleton_append, bytes_cons_of_ne hne.1 hlt, if_neg hne.2, utf8, if_pos hlt]
    rfl
  · rw [hunit, List.singleton_append, bytes_cons_of_ne (by decide) (by decide)]
    rfl
  · rw [hunit, bytes_flatMap_escapeByte (utf8_lt h)]

theorem not_mem_encodeQueryParamAsIs (text : Text) {c : Nat}
    (hc : c ∈ [38, 61, openBrace, closeBrace, GenericUri.hash]) :
    c ∉ encodeQueryParamAsIs text := by
  rw [encodeQueryParamAsIs_eq, List.mem_flatMap]
  rintro ⟨unit, -, hmem⟩
  have hclass : ∀ c ∈ [38, 61, openBrace, closeBrace, GenericUri.hash],
      isAlphanum c = false ∧ isHex c = false ∧ c ≠ percent ∧ c ≠ 43 ∧
        c ∉ [45, 46, 95, 126, 63, 42] := by decide
  obtain ⟨halnum, hhex, hpercent, hplus, hmark⟩ := hclass c hc
  rcases encodeUnit_cases unit with ⟨hunit, -, hkept⟩ | ⟨hunit, -⟩ | ⟨hunit, -⟩
  · rw [hunit, List.mem_singleton] at hmem
    subst hmem
    exact hkept.elim (fun h => Bool.false_ne_true (halnum.symm.trans h)) hmark
  · rw [hunit, List.mem_singleton] at hmem
    exact hplus hmem
  · rw [hunit, List.mem_flatMap] at hmem
    obtain ⟨byte, -, hbyte⟩ := hmem
    simp only [escapeByte, List.mem_cons, List.not_mem_nil, or_false] at hbyte
    rcases hbyte with heq | heq | heq
    · exact hpercent heq
    · exact Bool.false_ne_true (hhex.symm.trans (heq ▸ Encode.isHex_hexDigit _))
    · exact Bool.false_ne_true (hhex.symm.trans (heq ▸ Encode.isHex_hexDigit _))

/-! ## What encoded texts stand for -/

/-- A character of two units comes out as two question marks. -/
def shownChar (c : Char) : List Char := if c.toNat < 65536 then [c] else ['?', '?']

def shown (text : List Char) : List Char := text.flatMap shownChar

theorem utf8_units (c : Char) :
    ((Utf16.units c).flatMap fun unit => (utf8 unit).map UInt8.ofNat) =
      (shownChar c).flatMap String.utf8EncodeChar := by
  have hvalid := Utf16.toNat_not_surrogate c
  have hval : c.val.toNat = c.toNat := rfl
  by_cases hbasic : c.toNat < 65536
  · rw [Utf16.units, if_pos hbasic, shownChar, if_pos hbasic, List.flatMap_singleton,
      List.flatMap_singleton, String.utf8EncodeChar, hval, utf8]
    by_cases hone : c.toNat < 128
    · have hone' : c.toNat ≤ 127 := by omega
      rw [if_pos hone, if_pos hone']
      rfl
    have hone' : ¬ c.toNat ≤ 127 := by omega
    rw [if_neg hone, if_neg hone']
    by_cases htwo : c.toNat < 2048
    · have htwo' : c.toNat ≤ 2047 := by omega
      rw [if_pos htwo, if_pos htwo']
      have hfirst : 192 + c.toNat / 64 = c.toNat / 64 % 32 + 192 := by omega
      have hsecond : 128 + c.toNat % 64 = c.toNat % 64 + 128 := by omega
      rw [hfirst, hsecond]
      rfl
    · have hhalf : ¬ (55296 ≤ c.toNat ∧ c.toNat < 57344) := by omega
      have htwo' : ¬ c.toNat ≤ 2047 := by omega
      have hthree : c.toNat ≤ 65535 := by omega
      rw [if_neg htwo, if_neg hhalf, if_neg htwo', if_pos hthree]
      have hfirst : 224 + c.toNat / 4096 = c.toNat / 4096 % 16 + 224 := by omega
      have hsecond : 128 + c.toNat / 64 % 64 = c.toNat / 64 % 64 + 128 := by omega
      have hthird : 128 + c.toNat % 64 = c.toNat % 64 + 128 := by omega
      rw [hfirst, hsecond, hthird]
      rfl
  · have hhigh : utf8 (55296 + (c.toNat - 65536) / 1024) = [63] := by
      rw [utf8, if_neg (by omega), if_neg (by omega), if_pos (by omega)]
    have hlow : utf8 (56320 + (c.toNat - 65536) % 1024) = [63] := by
      rw [utf8, if_neg (by omega), if_neg (by omega), if_pos (by omega)]
    rw [Utf16.units, if_neg hbasic, shownChar, if_neg hbasic, List.flatMap_cons,
      List.flatMap_singleton, hhigh, hlow]
    decide

theorem bytes_encoded (text : List Char) :
    bytes (encodeQueryParamAsIs (Utf16.encode text)) =
      some ((shown text).flatMap String.utf8EncodeChar) := by
  have hunits : ∀ {units : Text}, (∀ unit ∈ units, unit < 65536) → ∀ rest,
      bytes (units.flatMap encodeUnit ++ rest) =
        (bytes rest).map ((units.flatMap fun unit => (utf8 unit).map UInt8.ofNat) ++ ·) := by
    intro units hlt rest
    induction units with
    | nil =>
        rw [List.flatMap_nil, List.flatMap_nil, List.nil_append]
        simp
    | cons unit units ih =>
        obtain ⟨hunit, htail⟩ := List.forall_mem_cons.mp hlt
        rw [List.flatMap_cons, List.append_assoc, bytes_encodeUnit hunit, ih htail, Option.map_map,
          List.flatMap_cons]
        simp [Function.comp_def]
  have hbound : ∀ c : Char, ∀ unit ∈ Utf16.units c, unit < 65536 := by
    intro c unit hunit
    have hvalid := Utf16.toNat_not_surrogate c
    unfold Utf16.units at hunit
    split_ifs at hunit <;>
      simp only [List.mem_cons, List.not_mem_nil, or_false] at hunit <;> omega
  have hall : ∀ unit ∈ Utf16.encode text, unit < 65536 := by
    intro unit hunit
    obtain ⟨c, -, hc⟩ := List.mem_flatMap.mp hunit
    exact hbound c unit hc
  have hread := hunits hall []
  rw [List.append_nil] at hread
  rw [encodeQueryParamAsIs_eq, hread, bytes, Option.map_some, List.append_nil, Utf16.encode,
    List.flatMap_assoc, shown, List.flatMap_assoc]
  simp only [utf8_units]

theorem decodeText_encoded (text : List Char) :
    decodeText (encodeQueryParamAsIs (Utf16.encode text)) = some (shown text) := by
  have hdecode : ((shown text).flatMap String.utf8EncodeChar).toByteArray.utf8Decode? =
      some (shown text).toArray := List.utf8Decode?_utf8Encode
  rw [decodeText, bytes_encoded, Option.bind_some, hdecode]
  rfl

theorem shown_eq_iff (text : List Char) : shown text = text ↔ ∀ c ∈ text, c.toNat < 65536 := by
  have hlength : ∀ text, text.length ≤ (shown text).length := by
    intro text
    induction text with
    | nil => exact Nat.le_refl 0
    | cons c text ih =>
        rw [shown, List.flatMap_cons, List.length_append, List.length_cons]
        have hchar : 1 ≤ (shownChar c).length := by
          unfold shownChar
          split_ifs <;> simp
        rw [shown] at ih
        omega
  induction text with
  | nil => simp [shown]
  | cons c text ih =>
      have hcons : shown (c :: text) = shownChar c ++ shown text := rfl
      rw [hcons, List.forall_mem_cons]
      by_cases hbasic : c.toNat < 65536
      · rw [shownChar, if_pos hbasic, List.singleton_append, List.cons.injEq]
        exact ⟨fun h => ⟨hbasic, ih.mp h.2⟩, fun h => ⟨rfl, ih.mpr h.2⟩⟩
      · rw [shownChar, if_neg hbasic]
        constructor
        · intro heq
          have hlen := congrArg List.length heq
          rw [List.length_append, List.length_cons, List.length_cons, List.length_cons,
            List.length_nil] at hlen
          have hle := hlength text
          omega
        · exact fun h => absurd h.1 hbasic

end Keycloak.Common.FormDecoding
