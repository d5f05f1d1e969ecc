import Keycloak.Lib.Split
import Keycloak.Tokens.Base64Url

/-!
# Encrypted tokens in compact form

Decoding of an encrypted token: the header chosen by the sender selects how the content
encryption key is obtained and how the content is protected; the key storage cuts that
key into a key for the authentication tag and one for the content.

JSON, the AES key unwrapping, the AES cipher and the message authentication codes are the
functions of `Primitives`; one that throws gives `none`.
-/

namespace Keycloak.Tokens.Jwe

open Base64Url (Bytes Text)

structure JWEHeader where
  algorithm : Option String
  encryptionAlgorithm : Option String
  deriving DecidableEq, Repr

structure Primitives where
  readHeader : Bytes → Option JWEHeader
  /-- The key and the wrapped bytes. -/
  unwrap : Bytes → Bytes → Option Bytes
  /-- The algorithm, the key and the message. -/
  mac : String → Bytes → Bytes → Bytes
  /-- The content, the initialization vector and the key. -/
  decryptBytes : Bytes → Bytes → Bytes → Option Bytes

inductive Failure where
  | illegalState (message : String)
  | illegalArgument (message : String)
  | nullPointer
  | arrayIndexOutOfBounds
  /-- Thrown while Base64, JSON or ciphertext is decoded. -/
  | undecodable
  deriving DecidableEq, Repr

def orThrow {α : Type} (failure : Failure) : Option α → Except Failure α
  | some value => .ok value
  | none => .error failure

def throwUnless (failure : Failure) (condition : Prop) [Decidable condition] :
    Except Failure Unit :=
  if condition then .ok () else .error failure

theorem bind_eq_ok {α β : Type} {x : Except Failure α} {f : α → Except Failure β} {b : β} :
    (x >>= f) = .ok b ↔ ∃ a, x = .ok a ∧ f a = .ok b := by
  cases x <;> simp [bind, Except.bind]

@[simp] theorem orThrow_eq_ok {α : Type} {failure : Failure} {value : Option α} {a : α} :
    orThrow failure value = .ok a ↔ value = some a := by
  cases value <;> simp [orThrow]

@[simp] theorem throwUnless_eq_ok {failure : Failure} {condition : Prop} [Decidable condition]
    {a : Unit} : throwUnless failure condition = .ok a ↔ condition := by
  by_cases h : condition <;> simp [throwUnless, h]

/-! ## The registry -/

structure EncryptionProvider where
  expectedAesKeyLength : Nat
  hmacShaAlgorithm : String
  authenticationTagLength : Nat
  expectedCEKLength : Nat
  deriving DecidableEq, Repr

def aes128CbcHmacSha256Provider : EncryptionProvider := ⟨16, "HMACSHA256", 16, 32⟩

def aes192CbcHmacSha384Provider : EncryptionProvider := ⟨24, "HMACSHA384", 24, 48⟩

def aes256CbcHmacSha512Provider : EncryptionProvider := ⟨32, "HMACSHA512", 32, 64⟩

def getEncProvider : Option String → Option EncryptionProvider
  | some "A128CBC-HS256" => some aes128CbcHmacSha256Provider
  | some "A192CBC-HS384" => some aes192CbcHmacSha384Provider
  | some "A256CBC-HS512" => some aes256CbcHmacSha512Provider
  | _ => none

inductive AlgorithmProvider where
  | direct
  | aesKeyWrap
  deriving DecidableEq, Repr

def getAlgProvider : Option String → Option AlgorithmProvider
  | some "dir" => some .direct
  | some "A128KW" => some .aesKeyWrap
  | _ => none

/-- A provider cuts the content encryption key into two halves, each as long as its AES
key. -/
theorem getEncProvider_spec {name : Option String} {enc : EncryptionProvider}
    (h : getEncProvider name = some enc) :
    enc.expectedCEKLength = 2 * enc.expectedAesKeyLength ∧
      enc.expectedAesKeyLength ∈ [16, 24, 32] ∧ 0 < enc.authenticationTagLength := by
  unfold getEncProvider at h
  split at h <;> cases h <;> decide

def AlgorithmProvider.decodeCek (P : Primitives) (encodedCek : Bytes)
    (encryptionKey : Option Bytes) : AlgorithmProvider → Except Failure Bytes
  | .direct => .ok []
  | .aesKeyWrap => do
      let key ← orThrow .nullPointer encryptionKey
      orThrow .undecodable (P.unwrap key encodedCek)

/-! ## The key storage -/

inductive KeyUse where
  | encryption
  | signature
  deriving DecidableEq, Repr

structure JWEKeyStorage where
  encryptionKey : Option Bytes
  cekBytes : Option Bytes
  decodedCEK : KeyUse → Option Bytes
  encryptionProvider : Option EncryptionProvider

def JWEKeyStorage.new : JWEKeyStorage := ⟨none, none, fun _ => none, none⟩

def JWEKeyStorage.setEncryptionKey (storage : JWEKeyStorage) (key : Bytes) : JWEKeyStorage :=
  { storage with encryptionKey := some key }

def JWEKeyStorage.setCEKKey (storage : JWEKeyStorage) (key : Bytes) (keyUse : KeyUse) :
    JWEKeyStorage :=
  { storage with
    decodedCEK := fun use => if use = keyUse then some key else storage.decodedCEK use }

/-- `Arrays.copyOf`: cut at the length, or filled up with zeros. -/
def copyOf (bytes : Bytes) (length : Nat) : Bytes :=
  bytes.take length ++ List.replicate (length - bytes.length) 0

def copyOfRange (bytes : Bytes) (start stop : Nat) : Except Failure Bytes :=
  if bytes.length < start then .error .arrayIndexOutOfBounds
  else .ok (copyOf (bytes.drop start) (stop - start))

@[simp] theorem copyOfRange_eq_ok {bytes range : Bytes} {start stop : Nat} :
    copyOfRange bytes start stop = .ok range ↔
      start ≤ bytes.length ∧ copyOf (bytes.drop start) (stop - start) = range := by
  unfold copyOfRange
  split
  · simp only [reduceCtorEq, false_iff, not_and]
    omega
  · simp only [Except.ok.injEq]
    constructor
    · intro h
      exact ⟨by omega, h⟩
    · exact fun h => h.2

@[simp] theorem copyOf_length (bytes : Bytes) (length : Nat) :
    (copyOf bytes length).length = length := by
  simp only [copyOf, List.length_append, List.length_take, List.length_replicate]
  omega

theorem copyOf_of_le {bytes : Bytes} {length : Nat} (h : length ≤ bytes.length) :
    copyOf bytes length = bytes.take length := by
  simp [copyOf, Nat.sub_eq_zero_of_le h]

def deserializeCEK (enc : EncryptionProvider) (storage : JWEKeyStorage) (cekBytes : Bytes) :
    Except Failure JWEKeyStorage := do
  let cekMacKey := copyOf cekBytes (enc.expectedCEKLength / 2)
  let cekAesKey ← copyOfRange cekBytes (enc.expectedCEKLength / 2) enc.expectedCEKLength
  .ok ((storage.setCEKKey cekAesKey .encryption).setCEKKey cekMacKey .signature)

/-- `getCEKKey`; `generated` are the bytes that `generateCekBytes` draws when the caller
lets it generate them. -/
def getCEKKey (storage : JWEKeyStorage) (keyUse : KeyUse) (generated : Option Bytes) :
    Except Failure (Option Bytes × JWEKeyStorage) :=
  match storage.decodedCEK keyUse with
  | some key => .ok (some key, storage)
  | none =>
      match storage.encryptionProvider with
      | none => .error (.illegalState "encryptionProvider needs to be set")
      | some enc =>
          match storage.cekBytes <|> generated with
          | none => .ok (none, storage)
          | some cekBytes => do
              let storage ← deserializeCEK enc { storage with cekBytes := some cekBytes } cekBytes
              .ok (storage.decodedCEK keyUse, storage)

/-! ## The token -/

structure JWE where
  header : Option JWEHeader
  base64Header : Option Text
  keyStorage : JWEKeyStorage
  base64Cek : Option Text
  initializationVector : Bytes
  content : Option Bytes
  encryptedContent : Bytes
  authenticationTag : Bytes

def JWE.fresh (keyStorage : JWEKeyStorage) : JWE := ⟨none, none, keyStorage, none, [], none, [], []⟩

def keyEncryptionReceiver (aesKey : Bytes) : JWE :=
  JWE.fresh (JWEKeyStorage.new.setEncryptionKey aesKey)

def directReceiver (aesKey hmacKey : Bytes) : JWE :=
  JWE.fresh ((JWEKeyStorage.new.setCEKKey aesKey .encryption).setCEKKey hmacKey .signature)

def utf8 (text : Text) : Bytes := text.flatMap String.utf8EncodeChar

/-- The number of bits of the header as a big-endian `int` in the last four of eight
bytes. -/
def lengthInBits (aad : Bytes) : Bytes :=
  let bits := UInt32.ofNat (aad.length * 8)
  [0, 0, 0, 0, (bits >>> 24).toUInt8, (bits >>> 16).toUInt8, (bits >>> 8).toUInt8, bits.toUInt8]

def computeAuthenticationTag (P : Primitives) (enc : EncryptionProvider)
    (aad iv cipher hmacKey : Bytes) : Bytes :=
  copyOf (P.mac enc.hmacShaAlgorithm hmacKey (aad ++ iv ++ cipher ++ lengthInBits aad))
    enc.authenticationTagLength

def EncryptionProvider.verifyAndDecodeJwe (P : Primitives) (enc : EncryptionProvider) (jwe : JWE)
    (base64Header : Text) : Except Failure JWE := do
  let (aesKey, storage) ← getCEKKey jwe.keyStorage .encryption none
  let aesKey ← orThrow (.illegalArgument "AES CEK key not present") aesKey
  let (hmacShaKey, storage) ← getCEKKey storage .signature none
  let hmacShaKey ← orThrow (.illegalArgument "HMAC CEK key not present") hmacShaKey
  throwUnless (.illegalState
    s!"Length of aes key should be {enc.expectedAesKeyLength}, but was {aesKey.length}")
    (enc.expectedAesKeyLength = aesKey.length)
  let authenticationTag := computeAuthenticationTag P enc (utf8 base64Header)
    jwe.initializationVector jwe.encryptedContent hmacShaKey
  throwUnless (.illegalArgument "Signature validations failed")
    (jwe.authenticationTag = authenticationTag)
  let content ← orThrow .undecodable
    (P.decryptBytes jwe.encryptedContent jwe.initializationVector aesKey)
  .ok { jwe with keyStorage := storage, content := some content }

def getHeader (P : Primitives) (jwe : JWE) (base64Header : Text) : Except Failure JWEHeader :=
  match jwe.header with
  | some header => .ok header
  | none => orThrow .undecodable ((Base64Url.decode base64Header).bind P.readHeader)

def parts (jweStr : Text) : Except Failure (Text × Text × Text × Text × Text) :=
  match Split.split '.' jweStr with
  | [part0, part1, part2, part3, part4] => .ok (part0, part1, part2, part3, part4)
  | _ => .error (.illegalState "Not a JWE String")

def verifyAndDecodeJwe (P : Primitives) (jwe : JWE) (jweStr : Text) : Except Failure JWE := do
  let (base64Header, base64Cek, part2, part3, part4) ← parts jweStr
  let initializationVector ← orThrow .undecodable (Base64Url.decode part2)
  let encryptedContent ← orThrow .undecodable (Base64Url.decode part3)
  let authenticationTag ← orThrow .undecodable (Base64Url.decode part4)
  let header ← getHeader P jwe base64Header
  let algorithmProvider ← orThrow
    (.illegalArgument ("No provider for alg '" ++ header.algorithm.getD "null" ++ "'"))
    (getAlgProvider header.algorithm)
  let encryptionProvider ← orThrow
    (.illegalArgument ("No provider for enc '" ++ header.algorithm.getD "null" ++ "'"))
    (getEncProvider header.encryptionAlgorithm)
  let encodedCek ← orThrow .undecodable (Base64Url.decode base64Cek)
  let decodedCek ← algorithmProvider.decodeCek P encodedCek jwe.keyStorage.encryptionKey
  let keyStorage :=
    { jwe.keyStorage with
      encryptionProvider := some encryptionProvider
      cekBytes := some decodedCek }
  encryptionProvider.verifyAndDecodeJwe P
    { jwe with
      header := some header
      base64Header := some base64Header
      base64Cek := some base64Cek
      initializationVector := initializationVector
      encryptedContent := encryptedContent
      authenticationTag := authenticationTag
      keyStorage := keyStorage } base64Header

/-! ## What is accepted -/

/-- The key storage after the content encryption key has been cut. -/
def JWEKeyStorage.cut (storage : JWEKeyStorage) (enc : EncryptionProvider) (cek : Bytes) :
    JWEKeyStorage :=
  let half := enc.expectedCEKLength / 2
  (storage.setCEKKey (copyOf (cek.drop half) (enc.expectedCEKLength - half)) .encryption).setCEKKey
    (copyOf cek half) .signature

@[simp] theorem cut_encryption (storage : JWEKeyStorage) (enc : EncryptionProvider) (cek : Bytes) :
    (storage.cut enc cek).decodedCEK .encryption =
      some (copyOf (cek.drop (enc.expectedCEKLength / 2))
        (enc.expectedCEKLength - enc.expectedCEKLength / 2)) := by
  simp [JWEKeyStorage.cut, JWEKeyStorage.setCEKKey]

@[simp] theorem cut_signature (storage : JWEKeyStorage) (enc : EncryptionProvider) (cek : Bytes) :
    (storage.cut enc cek).decodedCEK .signature =
      some (copyOf cek (enc.expectedCEKLength / 2)) := by
  simp [JWEKeyStorage.cut, JWEKeyStorage.setCEKKey]

theorem deserializeCEK_eq_ok {enc : EncryptionProvider} {storage storage' : JWEKeyStorage}
    {cek : Bytes} :
    deserializeCEK enc storage cek = .ok storage' ↔
      enc.expectedCEKLength / 2 ≤ cek.length ∧ storage.cut enc cek = storage' := by
  simp only [deserializeCEK, bind_eq_ok, copyOfRange_eq_ok, Except.ok.injEq, JWEKeyStorage.cut]
  constructor
  · rintro ⟨_, ⟨hle, rfl⟩, h⟩
    exact ⟨hle, h⟩
  · rintro ⟨hle, h⟩
    exact ⟨_, ⟨hle, rfl⟩, h⟩

theorem getCEKKey_present {storage : JWEKeyStorage} {keyUse : KeyUse} {key : Bytes}
    (h : storage.decodedCEK keyUse = some key) (generated : Option Bytes) :
    getCEKKey storage keyUse generated = .ok (some key, storage) := by
  simp [getCEKKey, h]

theorem getCEKKey_absent {storage : JWEKeyStorage} {keyUse : KeyUse} {enc : EncryptionProvider}
    {cek : Bytes} (hkey : storage.decodedCEK keyUse = none)
    (hprovider : storage.encryptionProvider = some enc) (hcek : storage.cekBytes = some cek)
    {result : Option Bytes × JWEKeyStorage} :
    getCEKKey storage keyUse none = .ok result ↔
      enc.expectedCEKLength / 2 ≤ cek.length ∧
        ((storage.cut enc cek).decodedCEK keyUse, storage.cut enc cek) = result := by
  have hget : getCEKKey storage keyUse none =
      deserializeCEK enc storage cek >>= fun storage =>
        .ok (storage.decodedCEK keyUse, storage) := by
    obtain ⟨encryptionKey, _, decodedCEK, _⟩ := storage
    cases hprovider
    cases hcek
    simp only at hkey
    simp only [getCEKKey, hkey]
    rfl
  rw [hget]
  simp only [bind_eq_ok, deserializeCEK_eq_ok, Except.ok.injEq]
  constructor
  · rintro ⟨_, ⟨hle, rfl⟩, h⟩
    exact ⟨hle, h⟩
  · rintro ⟨hle, h⟩
    exact ⟨_, ⟨hle, rfl⟩, h⟩

/-- Acceptance by the encryption provider under the keys that the storage gives. -/
theorem verifyAndDecodeJwe_of_keys {P : Primitives} {enc : EncryptionProvider} {jwe r : JWE}
    {base64Header : Text} {aesKey hmacKey : Bytes} {storage : JWEKeyStorage}
    (haes : getCEKKey jwe.keyStorage .encryption none = .ok (some aesKey, storage))
    (hhmac : storage.decodedCEK .signature = some hmacKey) :
    enc.verifyAndDecodeJwe P jwe base64Header = .ok r ↔
      enc.expectedAesKeyLength = aesKey.length ∧
      jwe.authenticationTag = computeAuthenticationTag P enc (utf8 base64Header)
        jwe.initializationVector jwe.encryptedContent hmacKey ∧
      ∃ content, P.decryptBytes jwe.encryptedContent jwe.initializationVector aesKey =
          some content ∧ { jwe with keyStorage := storage, content := some content } = r := by
  unfold EncryptionProvider.verifyAndDecodeJwe
  simp only [haes, getCEKKey_present hhmac, bind_eq_ok, Except.ok.injEq, exists_eq_left',
    orThrow_eq_ok, throwUnless_eq_ok, Option.some.injEq, exists_const]

/-- Without keys in the storage they are cut from the content encryption key; one shorter
than the first key has no second one. -/
theorem verifyAndDecodeJwe_of_cek {P : Primitives} {enc : EncryptionProvider} {jwe r : JWE}
    {base64Header : Text} {cek : Bytes}
    (henc : enc.expectedCEKLength = 2 * enc.expectedAesKeyLength)
    (hkeys : ∀ keyUse, jwe.keyStorage.decodedCEK keyUse = none)
    (hprovider : jwe.keyStorage.encryptionProvider = some enc)
    (hcek : jwe.keyStorage.cekBytes = some cek) :
    enc.verifyAndDecodeJwe P jwe base64Header = .ok r ↔
      enc.expectedAesKeyLength ≤ cek.length ∧
      jwe.authenticationTag = computeAuthenticationTag P enc (utf8 base64Header)
        jwe.initializationVector jwe.encryptedContent (copyOf cek enc.expectedAesKeyLength) ∧
      ∃ content, P.decryptBytes jwe.encryptedContent jwe.initializationVector
          (copyOf (cek.drop enc.expectedAesKeyLength) enc.expectedAesKeyLength) = some content ∧
        { jwe with keyStorage := jwe.keyStorage.cut enc cek, content := some content } = r := by
  have hhalf : enc.expectedCEKLength / 2 = enc.expectedAesKeyLength := by omega
  have hrest : enc.expectedCEKLength - enc.expectedAesKeyLength = enc.expectedAesKeyLength := by
    omega
  by_cases hle : enc.expectedAesKeyLength ≤ cek.length
  · have haes := (getCEKKey_absent (hkeys .encryption) hprovider hcek).mpr ⟨hhalf ▸ hle, rfl⟩
    rw [cut_encryption, hhalf, hrest] at haes
    have hhmac := cut_signature jwe.keyStorage enc cek
    rw [hhalf] at hhmac
    rw [verifyAndDecodeJwe_of_keys haes hhmac, copyOf_length]
    simp only [hle, true_and]
  · constructor
    · intro h
      unfold EncryptionProvider.verifyAndDecodeJwe at h
      obtain ⟨result, hget, _⟩ := bind_eq_ok.mp h
      exact absurd (hhalf ▸ ((getCEKKey_absent (hkeys .encryption) hprovider hcek).mp hget).1) hle
    · exact fun h => absurd h.1 hle

/-- The parts of a token as they are decoded, before the content encryption key is
obtained. -/
structure Decoded where
  base64Header : Text
  base64Cek : Text
  header : JWEHeader
  algorithm : AlgorithmProvider
  enc : EncryptionProvider
  encodedCek : Bytes
  iv : Bytes
  content : Bytes
  tag : Bytes

structure Decodes (P : Primitives) (jweStr : Text) (t : Decoded) : Prop where
  parts_eq : ∃ part2 part3 part4,
    parts jweStr = .ok (t.base64Header, t.base64Cek, part2, part3, part4) ∧
      Base64Url.decode part2 = some t.iv ∧ Base64Url.decode part3 = some t.content ∧
      Base64Url.decode part4 = some t.tag
  header_eq : (Base64Url.decode t.base64Header).bind P.readHeader = some t.header
  algorithm_eq : getAlgProvider t.header.algorithm = some t.algorithm
  enc_eq : getEncProvider t.header.encryptionAlgorithm = some t.enc
  encodedCek_eq : Base64Url.decode t.base64Cek = some t.encodedCek

/-- The token handed to the encryption provider. -/
def Decoded.received (t : Decoded) (keyStorage : JWEKeyStorage) (cek : Bytes) : JWE :=
  { JWE.fresh { keyStorage with encryptionProvider := some t.enc, cekBytes := some cek } with
    header := some t.header
    base64Header := some t.base64Header
    base64Cek := some t.base64Cek
    initializationVector := t.iv
    encryptedContent := t.content
    authenticationTag := t.tag }

def Decoded.computedTag (P : Primitives) (t : Decoded) (hmacKey : Bytes) : Bytes :=
  computeAuthenticationTag P t.enc (utf8 t.base64Header) t.iv t.content hmacKey

/-- A fresh token is accepted if its parts are decoded, the content encryption key is
obtained and the encryption provider accepts. -/
theorem verifyAndDecodeJwe_fresh {P : Primitives} {keyStorage : JWEKeyStorage} {jweStr : Text}
    {r : JWE} :
    verifyAndDecodeJwe P (JWE.fresh keyStorage) jweStr = .ok r ↔
      ∃ t cek, Decodes P jweStr t ∧
        t.algorithm.decodeCek P t.encodedCek keyStorage.encryptionKey = .ok cek ∧
        t.enc.verifyAndDecodeJwe P (t.received keyStorage cek) t.base64Header = .ok r := by
  unfold verifyAndDecodeJwe
  simp only [bind_eq_ok, orThrow_eq_ok, getHeader, JWE.fresh]
  constructor
  · rintro ⟨⟨base64Header, base64Cek, part2, part3, part4⟩, hparts, iv, hiv, content, hcontent,
      tag, htag, header, hheader, algorithm, halgorithm, enc, henc, encodedCek, hencoded, cek,
      hcek, hverify⟩
    exact ⟨⟨base64Header, base64Cek, header, algorithm, enc, encodedCek, iv, content, tag⟩, cek,
      ⟨⟨part2, part3, part4, hparts, hiv, hcontent, htag⟩, hheader, halgorithm, henc, hencoded⟩,
      hcek, hverify⟩
  · rintro ⟨t, cek, ⟨⟨part2, part3, part4, hparts, hiv, hcontent, htag⟩, hheader, halgorithm,
      henc, hencoded⟩, hcek, hverify⟩
    exact ⟨_, hparts, _, hiv, _, hcontent, _, htag, _, hheader, _, halgorithm, _, henc, _,
      hencoded, _, hcek, hverify⟩

theorem Decodes.expectedCEKLength_eq {P : Primitives} {jweStr : Text} {t : Decoded}
    (h : Decodes P jweStr t) : t.enc.expectedCEKLength = 2 * t.enc.expectedAesKeyLength :=
  (getEncProvider_spec h.enc_eq).1

/-- A receiver with a key encryption key accepts only what unwraps under it, with the keys
cut from the unwrapped bytes. -/
theorem keyEncryptionReceiver_eq_ok {P : Primitives} {aesKey : Bytes} {jweStr : Text} {r : JWE} :
    verifyAndDecodeJwe P (keyEncryptionReceiver aesKey) jweStr = .ok r ↔
      ∃ t cek plain, Decodes P jweStr t ∧ t.algorithm = .aesKeyWrap ∧
        P.unwrap aesKey t.encodedCek = some cek ∧
        t.enc.expectedAesKeyLength ≤ cek.length ∧
        t.tag = t.computedTag P (copyOf cek t.enc.expectedAesKeyLength) ∧
        P.decryptBytes t.content t.iv
          (copyOf (cek.drop t.enc.expectedAesKeyLength) t.enc.expectedAesKeyLength) = some plain ∧
        { t.received (JWEKeyStorage.new.setEncryptionKey aesKey) cek with
          keyStorage := (t.received (JWEKeyStorage.new.setEncryptionKey aesKey) cek).keyStorage.cut
            t.enc cek
          content := some plain } = r := by
  rw [keyEncryptionReceiver, verifyAndDecodeJwe_fresh]
  constructor
  · rintro ⟨t, cek, ht, hcek, hverify⟩
    rw [verifyAndDecodeJwe_of_cek ht.expectedCEKLength_eq (fun _ => rfl) rfl rfl] at hverify
    obtain ⟨hle, htag, plain, hplain, hr⟩ := hverify
    cases halgorithm : t.algorithm with
    | direct =>
        -- the empty key has no second half
        rw [halgorithm] at hcek
        cases hcek
        have hlength := (getEncProvider_spec ht.enc_eq).2.1
        simp only [List.mem_cons, List.not_mem_nil, or_false] at hlength
        simp only [List.length_nil] at hle
        omega
    | aesKeyWrap =>
        rw [halgorithm] at hcek
        have hunwrap : P.unwrap aesKey t.encodedCek = some cek := orThrow_eq_ok.mp hcek
        exact ⟨t, cek, plain, ht, halgorithm, hunwrap, hle, htag, hplain, hr⟩
  · rintro ⟨t, cek, plain, ht, halgorithm, hcek, hle, htag, hplain, hr⟩
    refine ⟨t, cek, ht, ?_, ?_⟩
    · rw [halgorithm]
      exact orThrow_eq_ok.mpr hcek
    · rw [verifyAndDecodeJwe_of_cek ht.expectedCEKLength_eq (fun _ => rfl) rfl rfl]
      exact ⟨hle, htag, plain, hplain, hr⟩

/-- The tag was compared with one computed under the first half of a content encryption
key of the length the encryption provider expects, to which the second part of the token
unwraps. -/
def TagUnderWrappedKey (P : Primitives) (aesKey : Bytes) (jweStr : Text) (r : JWE) : Prop :=
  ∃ t cek, Decodes P jweStr t ∧ P.unwrap aesKey t.encodedCek = some cek ∧
    cek.length = t.enc.expectedCEKLength ∧
    r.keyStorage.decodedCEK .signature = some (cek.take (cek.length / 2)) ∧
    t.tag = t.computedTag P (cek.take (cek.length / 2))

/-- The keys in the storage are the given ones, the tag was compared with one computed
under the given key and the content decrypted under the other. -/
def TagUnderGivenKeys (P : Primitives) (aesKey hmacKey : Bytes) (jweStr : Text) (r : JWE) : Prop :=
  ∃ t, Decodes P jweStr t ∧
    r.keyStorage.decodedCEK .encryption = some aesKey ∧
    r.keyStorage.decodedCEK .signature = some hmacKey ∧
    t.tag = t.computedTag P hmacKey ∧
    P.decryptBytes t.content t.iv aesKey = r.content

theorem directReceiver_accepts {P : Primitives} {aesKey hmacKey : Bytes} {jweStr : Text} {r : JWE}
    (h : verifyAndDecodeJwe P (directReceiver aesKey hmacKey) jweStr = .ok r) :
    TagUnderGivenKeys P aesKey hmacKey jweStr r := by
  obtain ⟨t, cek, ht, _, hverify⟩ := verifyAndDecodeJwe_fresh.mp h
  have haes : getCEKKey (t.received ((JWEKeyStorage.new.setCEKKey aesKey .encryption).setCEKKey
      hmacKey .signature) cek).keyStorage .encryption none = .ok (some aesKey, _) :=
    getCEKKey_present rfl none
  obtain ⟨_, htag, plain, hplain, rfl⟩ := (verifyAndDecodeJwe_of_keys haes rfl).mp hverify
  exact ⟨t, ht, rfl, rfl, htag, hplain⟩

/-- The tokens of one header part and one key part. -/
def WithParts (base64Header base64Cek : Text) (jweStr : Text) : Prop :=
  ∃ part2 part3 part4, parts jweStr = .ok (base64Header, base64Cek, part2, part3, part4)

/-- Under a header that asks for key wrapping, the key part does not unwrap to a content
encryption key of a length other than the expected one, unless it is too short to hold the
key for the tag. -/
def CekFits (P : Primitives) (aesKey : Bytes) (base64Header base64Cek : Text) : Prop :=
  ∀ header enc encodedCek cek, (Base64Url.decode base64Header).bind P.readHeader = some header →
    getAlgProvider header.algorithm = some .aesKeyWrap →
    getEncProvider header.encryptionAlgorithm = some enc →
    Base64Url.decode base64Cek = some encodedCek → P.unwrap aesKey encodedCek = some cek →
    cek.length = enc.expectedCEKLength ∨ cek.length < enc.expectedCEKLength / 2

theorem Decodes.withParts {P : Primitives} {base64Header base64Cek jweStr : Text} {t : Decoded}
    (h : Decodes P jweStr t) (hparts : WithParts base64Header base64Cek jweStr) :
    t.base64Header = base64Header ∧ t.base64Cek = base64Cek := by
  obtain ⟨_, _, _, hparts', _⟩ := h.parts_eq
  obtain ⟨_, _, _, hparts⟩ := hparts
  rw [hparts', Except.ok.injEq, Prod.mk.injEq, Prod.mk.injEq] at hparts
  exact ⟨hparts.1, hparts.2.1⟩

theorem keyEncryptionReceiver_accepts {P : Primitives} {aesKey : Bytes}
    {base64Header base64Cek jweStr : Text} {r : JWE}
    (hfits : CekFits P aesKey base64Header base64Cek)
    (hparts : WithParts base64Header base64Cek jweStr)
    (h : verifyAndDecodeJwe P (keyEncryptionReceiver aesKey) jweStr = .ok r) :
    TagUnderWrappedKey P aesKey jweStr r := by
  obtain ⟨t, cek, plain, ht, halgorithm, hcek, hle, htag, hplain, rfl⟩ :=
    keyEncryptionReceiver_eq_ok.mp h
  obtain ⟨rfl, rfl⟩ := ht.withParts hparts
  have henc := ht.expectedCEKLength_eq
  have hlength : cek.length = t.enc.expectedCEKLength := by
    rcases hfits t.header t.enc t.encodedCek cek ht.header_eq (halgorithm ▸ ht.algorithm_eq)
      ht.enc_eq ht.encodedCek_eq hcek with heq | hlt
    · exact heq
    · omega
  have hhalf : t.enc.expectedAesKeyLength = cek.length / 2 := by omega
  have hcopy : copyOf cek t.enc.expectedAesKeyLength = cek.take (cek.length / 2) := by
    rw [copyOf_of_le hle, hhalf]
  refine ⟨t, cek, ht, hcek, hlength, ?_, hcopy ▸ htag⟩
  have hhalf' : t.enc.expectedCEKLength / 2 = t.enc.expectedAesKeyLength := by omega
  rw [cut_signature, ← hcopy, hhalf']

theorem parts_intercalate {part0 part1 part2 part3 part4 : Text} (h0 : '.' ∉ part0)
    (h1 : '.' ∉ part1) (h2 : '.' ∉ part2) (h3 : '.' ∉ part3) (h4 : '.' ∉ part4)
    (hlast : part4 ≠ []) :
    parts (['.'].intercalate [part0, part1, part2, part3, part4]) =
      .ok (part0, part1, part2, part3, part4) := by
  have hpieces : ∀ piece ∈ [part0, part1, part2, part3, part4], '.' ∉ piece := by
    simp only [List.mem_cons, List.not_mem_nil, or_false, forall_eq_or_imp, forall_eq]
    exact ⟨h0, h1, h2, h3, h4⟩
  rw [parts, Split.split_intercalate (List.cons_ne_nil _ _) hpieces (by simpa using hlast)]

/-- When the cipher decrypts something under every key it can be given, a content encryption
key that is long enough to be cut makes a token with the two parts acceptable. -/
theorem exists_accepted {P : Primitives}
    (hcipher : ∀ key : Bytes, key.length ∈ [16, 24, 32] →
      ∃ content iv plain, P.decryptBytes content iv key = some plain)
    {aesKey : Bytes} {base64Header base64Cek : Text} (hheader : '.' ∉ base64Header)
    (hkey : '.' ∉ base64Cek) {header : JWEHeader} {enc : EncryptionProvider}
    {encodedCek cek : Bytes}
    (hread : (Base64Url.decode base64Header).bind P.readHeader = some header)
    (halgorithm : getAlgProvider header.algorithm = some .aesKeyWrap)
    (henc : getEncProvider header.encryptionAlgorithm = some enc)
    (hencoded : Base64Url.decode base64Cek = some encodedCek)
    (hcek : P.unwrap aesKey encodedCek = some cek)
    (hle : enc.expectedAesKeyLength ≤ cek.length) :
    ∃ jweStr r, WithParts base64Header base64Cek jweStr ∧
      verifyAndDecodeJwe P (keyEncryptionReceiver aesKey) jweStr = .ok r := by
  obtain ⟨_, hkeyLength, htagLength⟩ := getEncProvider_spec henc
  obtain ⟨content, iv, plain, hplain⟩ := hcipher
    (copyOf (cek.drop enc.expectedAesKeyLength) enc.expectedAesKeyLength)
    (by simpa using hkeyLength)
  let tag := computeAuthenticationTag P enc (utf8 base64Header) iv content
    (copyOf cek enc.expectedAesKeyLength)
  have htag : tag ≠ [] := by
    apply List.ne_nil_of_length_pos
    simpa [tag, computeAuthenticationTag] using htagLength
  have hparts := parts_intercalate hheader hkey (Base64Url.dot_not_mem_encode iv)
    (Base64Url.dot_not_mem_encode content) (Base64Url.dot_not_mem_encode tag)
    (Base64Url.encode_ne_nil htag)
  refine ⟨_, _, ⟨_, _, _, hparts⟩, keyEncryptionReceiver_eq_ok.mpr
    ⟨⟨base64Header, base64Cek, header, .aesKeyWrap, enc, encodedCek, iv, content, tag⟩, cek, plain,
      ?_, rfl, hcek, hle, rfl, hplain, rfl⟩⟩
  exact ⟨⟨_, _, _, hparts, Base64Url.decode_encode _, Base64Url.decode_encode _,
    Base64Url.decode_encode _⟩, hread, halgorithm, henc, hencoded⟩

/-- The tokens with a header part and a key part are accepted only under the unwrapped key
of the right length if and only if no other length that can be cut is unwrapped; a receiver
with both content keys uses the ones it was given. -/
theorem accepted_under_own_key {P : Primitives}
    (hcipher : ∀ key : Bytes, key.length ∈ [16, 24, 32] →
      ∃ content iv plain, P.decryptBytes content iv key = some plain)
    (aesKey : Bytes) {base64Header base64Cek : Text} (hheader : '.' ∉ base64Header)
    (hkey : '.' ∉ base64Cek) :
    ((∀ jweStr r, WithParts base64Header base64Cek jweStr →
        verifyAndDecodeJwe P (keyEncryptionReceiver aesKey) jweStr = .ok r →
        TagUnderWrappedKey P aesKey jweStr r) ↔ CekFits P aesKey base64Header base64Cek) ∧
    ∀ aesCek hmacCek jweStr r,
      verifyAndDecodeJwe P (directReceiver aesCek hmacCek) jweStr = .ok r →
      TagUnderGivenKeys P aesCek hmacCek jweStr r := by
  refine ⟨⟨?_, ?_⟩, fun aesCek hmacCek jweStr r => directReceiver_accepts⟩
  · intro hall header enc encodedCek cek hread halgorithm henc hencoded hcek
    by_contra hnot
    obtain ⟨hlength, hle⟩ := not_or.mp hnot
    have hhalf := (getEncProvider_spec henc).1
    obtain ⟨jweStr, r, hparts, haccept⟩ := exists_accepted hcipher hheader hkey hread halgorithm
      henc hencoded hcek (by omega)
    obtain ⟨t, cek', ht, hcek', hlength', _⟩ := hall jweStr r hparts haccept
    obtain ⟨rfl, rfl⟩ := ht.withParts hparts
    have hheader' : t.header = header := Option.some.inj (ht.header_eq.symm.trans hread)
    have henc' : t.enc = enc := Option.some.inj ((hheader' ▸ ht.enc_eq).symm.trans henc)
    have hencoded' : t.encodedCek = encodedCek :=
      Option.some.inj (ht.encodedCek_eq.symm.trans hencoded)
    rw [hencoded', hcek, Option.some.injEq] at hcek'
    rw [← hcek', henc'] at hlength'
    exact hlength hlength'
  · exact fun hfits jweStr r hparts h => keyEncryptionReceiver_accepts hfits hparts h

/-! ## A key of 24 bytes -/

def shortKek : Bytes := [0, 1, 2, 3, 4, 5, 6, 7, 8, 9, 10, 11, 12, 13, 14, 15]

def shortCek : Bytes :=
  [1, 2, 3, 4, 5, 6, 7, 8, 9, 10, 11, 12, 13, 14, 15, 16, 17, 18, 19, 20, 21, 22, 23, 24]

def shortHeader : Text := "eyJhbGciOiJBMTI4S1ciLCJlbmMiOiJBMTI4Q0JDLUhTMjU2In0".toList

def shortEncodedCek : Text := "4J3ZXBsb9RL3VZy9i5Z4lQpqF8Fe2vrQG56PYtxmgaE".toList

def shortIv : Bytes := List.replicate 16 0

def shortContent : Bytes := [172, 247, 3, 253, 199, 198, 90, 54, 24, 0, 40, 180, 228, 13, 71, 146]

def shortToken : Text :=
  ['.'].intercalate [shortHeader, shortEncodedCek, "AAAAAAAAAAAAAAAAAAAAAA".toList,
    "rPcD_cfGWjYYACi05A1Hkg".toList, "Y7sDCz8og1ph1lx7J8fbGw".toList]

/-- JSON, the unwrapping, the code and the cipher at the one token: 24 bytes wrapped, the
content encrypted under the last 8 of them filled up with zeros. -/
def shortPrimitives : Primitives where
  readHeader bytes :=
    if bytes = [123, 34, 97, 108, 103, 34, 58, 34, 65, 49, 50, 56, 75, 87, 34, 44, 34, 101, 110, 99,
        34, 58, 34, 65, 49, 50, 56, 67, 66, 67, 45, 72, 83, 50, 53, 54, 34, 125] then
      some ⟨some "A128KW", some "A128CBC-HS256"⟩
    else none
  unwrap key wrapped :=
    if key = shortKek ∧ wrapped = [224, 157, 217, 92, 27, 27, 245, 18, 247, 85, 156, 189, 139, 150,
        120, 149, 10, 106, 23, 193, 94, 218, 250, 208, 27, 158, 143, 98, 220, 102, 129, 161] then
      some shortCek
    else none
  mac algorithm key message :=
    if algorithm = "HMACSHA256" ∧ key = shortCek.take 16 ∧
        message =
          utf8 shortHeader ++ shortIv ++ shortContent ++ lengthInBits (utf8 shortHeader) then
      [99, 187, 3, 11, 63, 40, 131, 90, 97, 214, 92, 123, 39, 199, 219, 27, 203, 150, 88, 248, 33,
        109, 149, 247, 243, 7, 89, 59, 62, 189, 187, 72]
    else []
  decryptBytes content iv key :=
    if content = shortContent ∧ iv = shortIv ∧
        key = shortCek.drop 16 ++ List.replicate 8 0 then
      some [104, 101, 108, 108, 111]
    else some content

def shortDecoded : Decoded where
  base64Header := shortHeader
  base64Cek := shortEncodedCek
  header := ⟨some "A128KW", some "A128CBC-HS256"⟩
  algorithm := .aesKeyWrap
  enc := aes128CbcHmacSha256Provider
  encodedCek := [224, 157, 217, 92, 27, 27, 245, 18, 247, 85, 156, 189, 139, 150, 120, 149, 10, 106,
    23, 193, 94, 218, 250, 208, 27, 158, 143, 98, 220, 102, 129, 161]
  iv := shortIv
  content := shortContent
  tag := [99, 187, 3, 11, 63, 40, 131, 90, 97, 214, 92, 123, 39, 199, 219, 27]

theorem short_decodes : Decodes shortPrimitives shortToken shortDecoded where
  parts_eq := ⟨"AAAAAAAAAAAAAAAAAAAAAA".toList, "rPcD_cfGWjYYACi05A1Hkg".toList,
    "Y7sDCz8og1ph1lx7J8fbGw".toList, by decide +kernel⟩
  header_eq := by decide +kernel
  algorithm_eq := by decide
  enc_eq := by decide
  encodedCek_eq := by decide +kernel

/-- A token is accepted under a content encryption key of 24 bytes where 32 are expected. -/
theorem short_cek_accepted :
    ∃ P aesKey jweStr r, verifyAndDecodeJwe P (keyEncryptionReceiver aesKey) jweStr = .ok r ∧
      ¬ TagUnderWrappedKey P aesKey jweStr r := by
  refine ⟨shortPrimitives, shortKek, shortToken, _, keyEncryptionReceiver_eq_ok.mpr
    ⟨shortDecoded, shortCek, [104, 101, 108, 108, 111], short_decodes, rfl, by decide +kernel,
      by decide, by decide +kernel, by decide +kernel, rfl⟩, ?_⟩
  rintro ⟨t, cek, ht, hcek, hlength, _⟩
  obtain ⟨_, _, _, hparts, _⟩ := short_decodes.parts_eq
  obtain ⟨hheader, hkey⟩ := ht.withParts ⟨_, _, _, hparts⟩
  have hread := ht.header_eq
  rw [hheader, short_decodes.header_eq, Option.some.injEq] at hread
  have henc := ht.enc_eq
  rw [← hread, short_decodes.enc_eq, Option.some.injEq] at henc
  have hencoded := ht.encodedCek_eq
  rw [hkey, short_decodes.encodedCek_eq, Option.some.injEq] at hencoded
  have hunwrap : shortPrimitives.unwrap shortKek shortDecoded.encodedCek = some shortCek := by
    decide +kernel
  rw [← hencoded, hunwrap, Option.some.injEq] at hcek
  rw [← hcek, ← henc] at hlength
  exact absurd hlength (by decide)

/-- The key of 24 bytes does not fit, so the two parts do not keep to the receiver's key. -/
theorem short_accepted_under_own_key :
    (∀ key : Bytes, key.length ∈ [16, 24, 32] →
      ∃ content iv plain, shortPrimitives.decryptBytes content iv key = some plain) ∧
    (((∀ jweStr r, WithParts shortHeader shortEncodedCek jweStr →
        verifyAndDecodeJwe shortPrimitives (keyEncryptionReceiver shortKek) jweStr = .ok r →
        TagUnderWrappedKey shortPrimitives shortKek jweStr r) ↔
          CekFits shortPrimitives shortKek shortHeader shortEncodedCek) ∧
      ∀ aesCek hmacCek jweStr r,
        verifyAndDecodeJwe shortPrimitives (directReceiver aesCek hmacCek) jweStr = .ok r →
        TagUnderGivenKeys shortPrimitives aesCek hmacCek jweStr r) := by
  have hcipher : ∀ key : Bytes, key.length ∈ [16, 24, 32] →
      ∃ content iv plain, shortPrimitives.decryptBytes content iv key = some plain :=
    fun key _ => ⟨[], [], [], by simp [shortPrimitives, shortContent]⟩
  exact ⟨hcipher, accepted_under_own_key hcipher shortKek (by decide +kernel) (by decide +kernel)⟩

end Keycloak.Tokens.Jwe
