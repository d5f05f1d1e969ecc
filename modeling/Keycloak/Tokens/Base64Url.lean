import Keycloak.Lib.Utf16
import Mathlib.Data.List.Basic
import Mathlib.Algebra.Ring.Nat
import Mathlib.Data.Nat.Bits

/-!
# The URL variant of Base64

The text is decoded four characters at a time.  White space is skipped, an equals sign ends
the text, and what does not fill a group of four at the end is dropped.
-/

namespace Keycloak.Tokens.Base64Url

abbrev Bytes := List UInt8

abbrev Text := List Char

/-! ## The alphabet -/

def alphabet (index : Nat) : Char :=
  if index < 26 then Char.ofNat (65 + index)
  else if index < 52 then Char.ofNat (71 + index)
  else if index < 62 then Char.ofNat (index - 4)
  else if index = 62 then '+'
  else '/'

inductive Symbol where
  | value (index : Nat)
  | whiteSpace
  | equals
  | bad
  deriving DecidableEq, Repr

def decodabet (c : Char) : Symbol :=
  let code := c.toNat
  if 65 ≤ code ∧ code ≤ 90 then .value (code - 65)
  else if 97 ≤ code ∧ code ≤ 122 then .value (code - 71)
  else if 48 ≤ code ∧ code ≤ 57 then .value (code + 4)
  else if c = '+' then .value 62
  else if c = '/' then .value 63
  else if c = '=' then .equals
  else if code = 9 ∨ code = 10 ∨ code = 13 ∨ code = 32 then .whiteSpace
  else .bad

/-- The table entry as the unsigned byte that `decode4to3` reads. -/
def bits (c : Char) : Nat :=
  match decodabet c with
  | .value index => index
  | .whiteSpace => 251
  | .equals => 255
  | .bad => 247

theorem decodabet_alphabet : ∀ index < 64, decodabet (alphabet index) = .value index := by
  decide

/-! ## Decoding -/

/-- The bytes of a group of four. -/
def decode4to3 : Text → Bytes
  | [c0, c1, c2, c3] =>
      let outBuff := bits c0 <<< 18 ||| bits c1 <<< 12
      if c2 = '=' then [UInt8.ofNat (outBuff >>> 16)]
      else
        let outBuff := outBuff ||| bits c2 <<< 6
        if c3 = '=' then [UInt8.ofNat (outBuff >>> 16), UInt8.ofNat (outBuff >>> 8)]
        else
          let outBuff := outBuff ||| bits c3
          [UInt8.ofNat (outBuff >>> 16), UInt8.ofNat (outBuff >>> 8), UInt8.ofNat outBuff]
  | _ => []

/-- The loop of `Base64.decode`: `b4` is the group that is being filled. -/
def decodeLoop : Text → Text → Bytes → Option Bytes
  | [], _, outBuff => some outBuff
  | c :: rest, b4, outBuff =>
      match decodabet c with
      | .bad => none
      | .whiteSpace => decodeLoop rest b4 outBuff
      | .value _ | .equals =>
          if b4.length < 3 then decodeLoop rest (b4 ++ [c]) outBuff
          else if c = '=' then some (outBuff ++ decode4to3 (b4 ++ [c]))
          else decodeLoop rest [] (outBuff ++ decode4to3 (b4 ++ [c]))

/-- `Base64.decode`; `none` when it throws. -/
def base64Decode (s : Text) : Option Bytes :=
  if s.length = 0 then some []
  else if s.length < 4 then none
  else decodeLoop s [] []

def standardChar (c : Char) : Char :=
  if c = '-' then '+' else if c = '_' then '/' else c

/-- `Base64Url.decode`; `none` when it throws. -/
def decode (s : Text) : Option Bytes :=
  let s := s.map standardChar
  match (Utf16.encode s).length % 4 with
  | 0 => base64Decode s
  | 2 => base64Decode (s ++ ['=', '='])
  | 3 => base64Decode (s ++ ['='])
  | _ => none

/-! ## Encoding -/

/-- The characters of up to three bytes. -/
def encode3to4 : Bytes → Text
  | [] => []
  | [x] =>
      let inBuff := x.toNat <<< 16
      [alphabet (inBuff >>> 18), alphabet (inBuff >>> 12 &&& 63), '=', '=']
  | [x, y] =>
      let inBuff := x.toNat <<< 16 ||| y.toNat <<< 8
      [alphabet (inBuff >>> 18), alphabet (inBuff >>> 12 &&& 63),
        alphabet (inBuff >>> 6 &&& 63), '=']
  | x :: y :: z :: _ =>
      let inBuff := x.toNat <<< 16 ||| y.toNat <<< 8 ||| z.toNat
      [alphabet (inBuff >>> 18), alphabet (inBuff >>> 12 &&& 63),
        alphabet (inBuff >>> 6 &&& 63), alphabet (inBuff &&& 63)]

def encodeBytes : Bytes → Text
  | [] => []
  | [x] => encode3to4 [x]
  | [x, y] => encode3to4 [x, y]
  | x :: y :: z :: rest => encode3to4 [x, y, z] ++ encodeBytes rest

def urlChar (c : Char) : Char :=
  if c = '+' then '-' else if c = '/' then '_' else c

def encode (bytes : Bytes) : Text :=
  ((encodeBytes bytes).takeWhile (· != '=')).map urlChar

/-! ## Decoding gives back what was encoded -/

theorem or_eq_add {a b k : Nat} (hb : b < 2 ^ k) (ha : 2 ^ k ∣ a) : a ||| b = a + b := by
  obtain ⟨q, rfl⟩ := ha
  rw [Nat.mul_comm, ← Nat.shiftLeft_eq, Nat.shiftLeft_add_eq_or_of_lt hb]

theorem alphabet_ne_equals : ∀ index < 64, alphabet index ≠ '=' := by decide

theorem standardChar_urlChar_alphabet :
    ∀ index < 64, standardChar (urlChar (alphabet index)) = alphabet index := by
  decide

theorem urlChar_alphabet_ne_dot : ∀ index < 64, urlChar (alphabet index) ≠ '.' := by decide

theorem alphabet_lt : ∀ index < 64, (alphabet index).toNat < 65536 := by decide

theorem bits_alphabet {index : Nat} (h : index < 64) : bits (alphabet index) = index := by
  rw [bits, decodabet_alphabet index h]

theorem inBuff_three (x y z : UInt8) :
    x.toNat <<< 16 ||| y.toNat <<< 8 ||| z.toNat =
      x.toNat * 65536 + y.toNat * 256 + z.toNat := by
  have hx := x.toNat_lt
  have hy := y.toNat_lt
  have hz := z.toNat_lt
  have hxy : x.toNat <<< 16 ||| y.toNat <<< 8 = x.toNat <<< 16 + y.toNat <<< 8 := by
    apply or_eq_add (k := 16)
    · simp only [Nat.shiftLeft_eq]
      omega
    · exact ⟨x.toNat, by rw [Nat.shiftLeft_eq, Nat.mul_comm]⟩
  rw [hxy, or_eq_add (k := 8) hz]
  · simp only [Nat.shiftLeft_eq]
  · simp only [Nat.shiftLeft_eq]
    omega

theorem inBuff_two (x y : UInt8) :
    x.toNat <<< 16 ||| y.toNat <<< 8 = x.toNat * 65536 + y.toNat * 256 := by
  have h := inBuff_three x y 0
  simpa using h

theorem outBuff_eq {a b c d : Nat} (hb : b < 64) (hc : c < 64) (hd : d < 64) :
    a <<< 18 ||| b <<< 12 ||| c <<< 6 ||| d = a * 262144 + b * 4096 + c * 64 + d := by
  have hab : a <<< 18 ||| b <<< 12 = a * 262144 + b * 4096 := by
    rw [or_eq_add (k := 18) (by rw [Nat.shiftLeft_eq]; omega) ⟨a, by rw [Nat.shiftLeft_eq,
      Nat.mul_comm]⟩]
    simp only [Nat.shiftLeft_eq]
  have habc : a * 262144 + b * 4096 ||| c * 64 = a * 262144 + b * 4096 + c * 64 :=
    or_eq_add (k := 12) (by omega) (by omega)
  have hc' : c <<< 6 = c * 64 := by simp only [Nat.shiftLeft_eq]
  rw [hab, hc', habc, or_eq_add (k := 6) hd (by omega)]

theorem sextets_eq (v : Nat) :
    v / 262144 * 262144 + v / 4096 % 64 * 4096 + v / 64 % 64 * 64 + v % 64 = v := by
  have h12 : v / 4096 = v / 64 / 64 := by rw [Nat.div_div_eq_div_mul]
  have h18 : v / 262144 = v / 64 / 64 / 64 := by
    rw [Nat.div_div_eq_div_mul, Nat.div_div_eq_div_mul]
  rw [h12, h18]
  omega

theorem ofNat_eq_of_mod {n : Nat} {x : UInt8} (h : n % 256 = x.toNat) : UInt8.ofNat n = x := by
  rw [← UInt8.toNat_inj, UInt8.toNat_ofNat']
  exact h

theorem sextet_lt (n : Nat) : n &&& 63 < 64 := Nat.lt_succ_of_le Nat.and_le_right

theorem and_sixtyThree (n : Nat) : n &&& 63 = n % 64 := Nat.and_two_pow_sub_one_eq_mod n 6

/-- `c` stands for six bits. -/
def Alphabetic (c : Char) : Prop := ∃ index < 64, c = alphabet index

/-- `c` stands for six bits or ends the text. -/
def InGroup (c : Char) : Prop := Alphabetic c ∨ c = '='

theorem decodeLoop_cons {c : Char} (h : InGroup c) (rest b4 : Text) (outBuff : Bytes) :
    decodeLoop (c :: rest) b4 outBuff =
      if b4.length < 3 then decodeLoop rest (b4 ++ [c]) outBuff
      else if c = '=' then some (outBuff ++ decode4to3 (b4 ++ [c]))
      else decodeLoop rest [] (outBuff ++ decode4to3 (b4 ++ [c])) := by
  rcases h with ⟨index, hlt, rfl⟩ | rfl
  · rw [decodeLoop, decodabet_alphabet index hlt]
  · rfl

theorem decodeLoop_group {c0 c1 c2 c3 : Char} (h0 : InGroup c0) (h1 : InGroup c1)
    (h2 : InGroup c2) (h3 : InGroup c3) (rest : Text) (outBuff : Bytes) :
    decodeLoop (c0 :: c1 :: c2 :: c3 :: rest) [] outBuff =
      if c3 = '=' then some (outBuff ++ decode4to3 [c0, c1, c2, c3])
      else decodeLoop rest [] (outBuff ++ decode4to3 [c0, c1, c2, c3]) := by
  rw [decodeLoop_cons h0, if_pos (by simp), decodeLoop_cons h1, if_pos (by simp),
    decodeLoop_cons h2, if_pos (by simp), decodeLoop_cons h3, if_neg (by simp)]
  rfl

theorem decode4to3_three (x y z : UInt8) : decode4to3 (encode3to4 [x, y, z]) = [x, y, z] := by
  have hx := x.toNat_lt
  have hy := y.toNat_lt
  have hz := z.toNat_lt
  simp only [encode3to4, inBuff_three]
  generalize hv : x.toNat * 65536 + y.toNat * 256 + z.toNat = v
  have hshift : v >>> 18 < 64 := by
    rw [Nat.shiftRight_eq_div_pow]
    omega
  simp only [decode4to3, if_neg (alphabet_ne_equals _ (sextet_lt _)), bits_alphabet hshift,
    bits_alphabet (sextet_lt _)]
  rw [outBuff_eq (sextet_lt _) (sextet_lt _) (sextet_lt _)]
  simp only [and_sixtyThree, Nat.shiftRight_eq_div_pow, Nat.reducePow]
  rw [sextets_eq, ofNat_eq_of_mod (x := x) (by omega), ofNat_eq_of_mod (x := y) (by omega),
    ofNat_eq_of_mod (x := z) (by omega)]

theorem decode4to3_two (x y : UInt8) : decode4to3 (encode3to4 [x, y]) = [x, y] := by
  have hx := x.toNat_lt
  have hy := y.toNat_lt
  simp only [encode3to4, inBuff_two]
  generalize hv : x.toNat * 65536 + y.toNat * 256 = v
  have hshift : v >>> 18 < 64 := by
    rw [Nat.shiftRight_eq_div_pow]
    omega
  have hsix := outBuff_eq (a := v >>> 18) (sextet_lt (v >>> 12)) (sextet_lt (v >>> 6))
    (d := 0) (by omega)
  simp only [decode4to3, if_neg (alphabet_ne_equals _ (sextet_lt _)), bits_alphabet hshift,
    bits_alphabet (sextet_lt _), if_true]
  rw [Nat.or_zero] at hsix
  rw [hsix]
  simp only [and_sixtyThree, Nat.shiftRight_eq_div_pow, Nat.reducePow]
  rw [ofNat_eq_of_mod (x := x) (by omega), ofNat_eq_of_mod (x := y) (by omega)]

theorem decode4to3_one (x : UInt8) : decode4to3 (encode3to4 [x]) = [x] := by
  have hx := x.toNat_lt
  simp only [encode3to4, decode4to3, if_true]
  have hshift : x.toNat <<< 16 >>> 18 < 64 := by
    rw [Nat.shiftRight_eq_div_pow, Nat.shiftLeft_eq]
    omega
  have hsix := outBuff_eq (a := x.toNat <<< 16 >>> 18) (sextet_lt (x.toNat <<< 16 >>> 12))
    (c := 0) (d := 0) (by omega) (by omega)
  simp only [Nat.zero_shiftLeft, Nat.or_zero] at hsix
  rw [bits_alphabet hshift, bits_alphabet (sextet_lt _), hsix]
  simp only [and_sixtyThree, Nat.shiftRight_eq_div_pow, Nat.shiftLeft_eq, Nat.reducePow]
  rw [ofNat_eq_of_mod (x := x) (by omega)]

/-! The characters of one group. -/

theorem alphabetic_sextet (n : Nat) : Alphabetic (alphabet (n &&& 63)) := ⟨_, sextet_lt n, rfl⟩

theorem alphabetic_first {n : Nat} (h : n < 16777216) : Alphabetic (alphabet (n >>> 18)) := by
  refine ⟨_, ?_, rfl⟩
  rw [Nat.shiftRight_eq_div_pow]
  omega

theorem encode3to4_one (x : UInt8) :
    ∃ c0 c1, encode3to4 [x] = [c0, c1, '=', '='] ∧ Alphabetic c0 ∧ Alphabetic c1 := by
  have hx := x.toNat_lt
  refine ⟨_, _, rfl, alphabetic_first ?_, alphabetic_sextet _⟩
  rw [Nat.shiftLeft_eq]
  omega

theorem encode3to4_two (x y : UInt8) :
    ∃ c0 c1 c2, encode3to4 [x, y] = [c0, c1, c2, '='] ∧ Alphabetic c0 ∧ Alphabetic c1 ∧
      Alphabetic c2 := by
  have hx := x.toNat_lt
  have hy := y.toNat_lt
  refine ⟨_, _, _, rfl, alphabetic_first ?_, alphabetic_sextet _, alphabetic_sextet _⟩
  rw [inBuff_two]
  omega

theorem encode3to4_three (x y z : UInt8) :
    ∃ c0 c1 c2 c3, encode3to4 [x, y, z] = [c0, c1, c2, c3] ∧ Alphabetic c0 ∧ Alphabetic c1 ∧
      Alphabetic c2 ∧ Alphabetic c3 := by
  have hx := x.toNat_lt
  have hy := y.toNat_lt
  have hz := z.toNat_lt
  refine ⟨_, _, _, _, rfl, alphabetic_first ?_, alphabetic_sextet _, alphabetic_sextet _,
    alphabetic_sextet _⟩
  rw [inBuff_three]
  omega

theorem decodeLoop_encodeBytes (bytes outBuff : Bytes) :
    decodeLoop (encodeBytes bytes) [] outBuff = some (outBuff ++ bytes) := by
  induction bytes using encodeBytes.induct generalizing outBuff with
  | case1 => simp [encodeBytes, decodeLoop]
  | case2 x =>
      obtain ⟨c0, c1, heq, h0, h1⟩ := encode3to4_one x
      have hdecode := decode4to3_one x
      rw [heq] at hdecode
      rw [encodeBytes, heq, decodeLoop_group (.inl h0) (.inl h1) (.inr rfl) (.inr rfl),
        if_pos rfl, hdecode]
  | case3 x y =>
      obtain ⟨c0, c1, c2, heq, h0, h1, h2⟩ := encode3to4_two x y
      have hdecode := decode4to3_two x y
      rw [heq] at hdecode
      rw [encodeBytes, heq, decodeLoop_group (.inl h0) (.inl h1) (.inl h2) (.inr rfl),
        if_pos rfl, hdecode]
  | case4 x y z rest ih =>
      obtain ⟨c0, c1, c2, c3, heq, h0, h1, h2, h3⟩ := encode3to4_three x y z
      have hdecode := decode4to3_three x y z
      rw [heq] at hdecode
      have hne : c3 ≠ '=' := by
        obtain ⟨index, hlt, rfl⟩ := h3
        exact alphabet_ne_equals index hlt
      rw [encodeBytes, heq]
      simp only [List.cons_append, List.nil_append]
      rw [decodeLoop_group (.inl h0) (.inl h1) (.inl h2) (.inl h3), if_neg hne, hdecode, ih]
      simp

/-- What `encodeBytes` gives: characters of the alphabet, filled up with equals signs to
groups of four. -/
structure Padded (bytes : Bytes) (core pad : Text) : Prop where
  eq : encodeBytes bytes = core ++ pad
  alphabetic : ∀ c ∈ core, Alphabetic c
  pad : core.length % 4 = 0 ∧ pad = [] ∨ core.length % 4 = 2 ∧ pad = ['=', '='] ∨
    core.length % 4 = 3 ∧ pad = ['=']
  length : bytes.length ≤ core.length

theorem exists_padded (bytes : Bytes) : ∃ core pad, Padded bytes core pad := by
  induction bytes using encodeBytes.induct with
  | case1 => exact ⟨[], [], by simp [encodeBytes], by simp, by simp, by simp⟩
  | case2 x =>
      obtain ⟨c0, c1, heq, h0, h1⟩ := encode3to4_one x
      exact ⟨[c0, c1], ['=', '='], heq, by simp [h0, h1], by simp, by simp⟩
  | case3 x y =>
      obtain ⟨c0, c1, c2, heq, h0, h1, h2⟩ := encode3to4_two x y
      exact ⟨[c0, c1, c2], ['='], heq, by simp [h0, h1, h2], by simp, by simp⟩
  | case4 x y z rest ih =>
      obtain ⟨core, pad, h⟩ := ih
      obtain ⟨c0, c1, c2, c3, heq, h0, h1, h2, h3⟩ := encode3to4_three x y z
      refine ⟨c0 :: c1 :: c2 :: c3 :: core, pad, ?_, ?_, ?_, ?_⟩
      · rw [encodeBytes, heq, h.eq]
        rfl
      · simp only [List.mem_cons, forall_eq_or_imp]
        exact ⟨h0, h1, h2, h3, h.alphabetic⟩
      · have hlength : (c0 :: c1 :: c2 :: c3 :: core).length % 4 = core.length % 4 := by
          simp only [List.length_cons]
          omega
        rw [hlength]
        exact h.pad
      · have hle := h.length
        simp only [List.length_cons]
        omega

/-- The encoded text is what `encodeBytes` gives without the equals signs. -/
theorem Padded.encode_eq {bytes : Bytes} {core pad : Text} (h : Padded bytes core pad) :
    encode bytes = core.map urlChar := by
  have hcore : ∀ c ∈ core, (c != '=') = true := by
    intro c hc
    obtain ⟨index, hlt, rfl⟩ := h.alphabetic c hc
    simpa using alphabet_ne_equals index hlt
  have hpad : pad.takeWhile (· != '=') = [] := by
    rcases h.pad with ⟨_, rfl⟩ | ⟨_, rfl⟩ | ⟨_, rfl⟩ <;> rfl
  rw [encode, h.eq, List.takeWhile_append_of_pos hcore, hpad, List.append_nil]

theorem Padded.map_standardChar {bytes : Bytes} {core pad : Text} (h : Padded bytes core pad) :
    (core.map urlChar).map standardChar = core := by
  have hback : core.map (standardChar ∘ urlChar) = core.map id := by
    apply List.map_congr_left
    intro c hc
    obtain ⟨index, hlt, rfl⟩ := h.alphabetic c hc
    exact standardChar_urlChar_alphabet index hlt
  rw [List.map_map, hback, List.map_id]

theorem Padded.length_encode {bytes : Bytes} {core pad : Text} (h : Padded bytes core pad) :
    (Utf16.encode core).length = core.length := by
  apply Utf16.length_encode_of_basic
  intro c hc
  obtain ⟨index, hlt, rfl⟩ := h.alphabetic c hc
  exact alphabet_lt index hlt

theorem base64Decode_encodeBytes (bytes : Bytes) :
    base64Decode (encodeBytes bytes) = some bytes := by
  have hlength : bytes = [] ∨ 4 ≤ (encodeBytes bytes).length := by
    cases bytes using encodeBytes.induct with
    | case1 => exact .inl rfl
    | case2 x => exact .inr (by simp [encodeBytes, encode3to4])
    | case3 x y => exact .inr (by simp [encodeBytes, encode3to4])
    | case4 x y z rest => exact .inr (by simp [encodeBytes, encode3to4])
  rcases hlength with rfl | hfour
  · rfl
  · rw [base64Decode, if_neg (by omega), if_neg (by omega), decodeLoop_encodeBytes]
    rfl

/-- `Base64Url.decode` gives back the bytes that `Base64Url.encode` was given. -/
theorem decode_encode (bytes : Bytes) : decode (encode bytes) = some bytes := by
  obtain ⟨core, pad, h⟩ := exists_padded bytes
  unfold decode
  have hdecode := base64Decode_encodeBytes bytes
  rw [h.eq] at hdecode
  simp only [h.encode_eq, h.map_standardChar, h.length_encode]
  rcases h.pad with ⟨hmod, rfl⟩ | ⟨hmod, rfl⟩ | ⟨hmod, rfl⟩
  · rw [hmod]
    simpa using hdecode
  · rw [hmod]
    exact hdecode
  · rw [hmod]
    exact hdecode

theorem dot_not_mem_encode (bytes : Bytes) : '.' ∉ encode bytes := by
  obtain ⟨core, pad, h⟩ := exists_padded bytes
  rw [h.encode_eq, List.mem_map]
  rintro ⟨c, hc, hdot⟩
  obtain ⟨index, hlt, rfl⟩ := h.alphabetic c hc
  exact urlChar_alphabet_ne_dot index hlt hdot

theorem encode_ne_nil {bytes : Bytes} (hne : bytes ≠ []) : encode bytes ≠ [] := by
  obtain ⟨core, pad, h⟩ := exists_padded bytes
  have hlength := List.length_pos_of_ne_nil hne
  have hle := h.length
  rw [h.encode_eq]
  apply List.ne_nil_of_length_pos
  rw [List.length_map]
  omega

end Keycloak.Tokens.Base64Url
