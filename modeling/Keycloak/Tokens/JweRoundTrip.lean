import Keycloak.Tokens.Jwe
import Mathlib.Data.Set.Function

/-!
# Encoding of encrypted tokens

`encodeJwe` writes what `verifyAndDecodeJwe` reads: this module has the encoding side, that a
token comes back with its content under the same key, and what an equal authentication tag
says about two accepted tokens.
-/

namespace Keycloak.Tokens.Jwe

open Base64Url (Bytes Text)

/-! ## The encoding side -/

/-- The writing counterparts of `Primitives`. -/
structure Encoders where
  /-- JSON of the header; the fields of the header that decoding does not look at are here. -/
  writeHeader : JWEHeader → Bytes
  /-- The key and the bytes to wrap. -/
  wrap : Bytes → Bytes → Option Bytes
  /-- The content, the initialization vector and the key. -/
  encryptBytes : Bytes → Bytes → Bytes → Option Bytes

structure Secrets where
  cek : Nat → Bytes
  iv : Bytes
  length_cek : ∀ size, (cek size).length = size
  length_iv : iv.length = 16

def serializeCEK (storage : JWEKeyStorage) : Except Failure Bytes := do
  let (aesKey, storage) ← getCEKKey storage .encryption none
  let aesBytes ← orThrow (.illegalArgument "AES CEK key not present") aesKey
  let (hmacShaKey, _) ← getCEKKey storage .signature none
  let hmacBytes ← orThrow (.illegalArgument "HMAC CEK key not present") hmacShaKey
  .ok (hmacBytes ++ aesBytes)

def getCekBytes (storage : JWEKeyStorage) : Except Failure (Bytes × JWEKeyStorage) :=
  match storage.cekBytes with
  | some cekBytes => .ok (cekBytes, storage)
  | none => do
      let cekBytes ← serializeCEK storage
      .ok (cekBytes, { storage with cekBytes := some cekBytes })

def AlgorithmProvider.encodeCek (E : Encoders) (storage : JWEKeyStorage)
    (encryptionKey : Option Bytes) :
    AlgorithmProvider → Except Failure (Bytes × JWEKeyStorage)
  | .direct => .ok ([], storage)
  | .aesKeyWrap => do
      let key ← orThrow .nullPointer encryptionKey
      let (cekBytes, storage) ← getCekBytes storage
      let wrapped ← orThrow .undecodable (E.wrap key cekBytes)
      .ok (wrapped, storage)

def getBase64Header (E : Encoders) (jwe : JWE) : Option Text :=
  jwe.base64Header <|> jwe.header.map fun header => Base64Url.encode (E.writeHeader header)

def EncryptionProvider.encodeJwe (P : Primitives) (E : Encoders) (initializationVector : Bytes)
    (enc : EncryptionProvider) (jwe : JWE) (contentBytes : Bytes) : Except Failure JWE := do
  let (aesKey, storage) ← getCEKKey jwe.keyStorage .encryption none
  let aesKey ← orThrow (.illegalArgument "AES CEK key not present") aesKey
  let (hmacShaKey, storage) ← getCEKKey storage .signature none
  let hmacShaKey ← orThrow (.illegalArgument "HMAC CEK key not present") hmacShaKey
  throwUnless (.illegalState
    s!"Length of aes key should be {enc.expectedAesKeyLength}, but was {aesKey.length}")
    (enc.expectedAesKeyLength = aesKey.length)
  let cipherBytes ← orThrow .undecodable (E.encryptBytes contentBytes initializationVector aesKey)
  let base64Header ← orThrow .nullPointer (getBase64Header E jwe)
  let authenticationTag := computeAuthenticationTag P enc (utf8 base64Header)
    initializationVector cipherBytes hmacShaKey
  .ok { jwe with
    keyStorage := storage
    base64Header := some base64Header
    initializationVector := initializationVector
    encryptedContent := cipherBytes
    authenticationTag := authenticationTag }

def getEncodedJweString (jwe : JWE) : Text :=
  ['.'].intercalate [jwe.base64Header.getD "null".toList, jwe.base64Cek.getD "null".toList,
    Base64Url.encode jwe.initializationVector, Base64Url.encode jwe.encryptedContent,
    Base64Url.encode jwe.authenticationTag]

def encodeJwe (P : Primitives) (E : Encoders) (secrets : Secrets) (jwe : JWE) :
    Except Failure (Text × JWE) := do
  let header ← orThrow (.illegalState "Header must be set") jwe.header
  let content ← orThrow (.illegalState "Content must be set") jwe.content
  let algorithmProvider ← orThrow
    (.illegalArgument ("No provider for alg '" ++ header.algorithm.getD "null" ++ "'"))
    (getAlgProvider header.algorithm)
  let encryptionProvider ← orThrow
    (.illegalArgument ("No provider for enc '" ++ header.algorithm.getD "null" ++ "'"))
    (getEncProvider header.encryptionAlgorithm)
  let keyStorage := { jwe.keyStorage with encryptionProvider := some encryptionProvider }
  -- the content encryption key is generated here if the caller has set none
  let (_, keyStorage) ← getCEKKey keyStorage .encryption
    (some (secrets.cek encryptionProvider.expectedCEKLength))
  let (encodedCEK, keyStorage) ←
    algorithmProvider.encodeCek E keyStorage keyStorage.encryptionKey
  let jwe := { jwe with keyStorage := keyStorage, base64Cek := some (Base64Url.encode encodedCEK) }
  let jwe ← encryptionProvider.encodeJwe P E secrets.iv jwe content
  .ok (getEncodedJweString jwe, jwe)

def sender (header : JWEHeader) (content : Bytes) (keyStorage : JWEKeyStorage) : JWE :=
  { JWE.fresh keyStorage with header := some header, content := some content }

def JWEKeyStorage.setCEKKeys (storage : JWEKeyStorage) (aesKey hmacKey : Bytes) : JWEKeyStorage :=
  (storage.setCEKKey aesKey .encryption).setCEKKey hmacKey .signature

/-! ## What is encoded -/

def sentToken (P : Primitives) (E : Encoders) (header : JWEHeader) (algorithm : AlgorithmProvider)
    (enc : EncryptionProvider) (encodedCek iv cipher hmacKey : Bytes) : Decoded where
  base64Header := Base64Url.encode (E.writeHeader header)
  base64Cek := Base64Url.encode encodedCek
  header := header
  algorithm := algorithm
  enc := enc
  encodedCek := encodedCek
  iv := iv
  content := cipher
  tag := computeAuthenticationTag P enc (utf8 (Base64Url.encode (E.writeHeader header))) iv cipher
    hmacKey

def Decoded.compact (t : Decoded) : Text :=
  ['.'].intercalate [t.base64Header, t.base64Cek, Base64Url.encode t.iv,
    Base64Url.encode t.content, Base64Url.encode t.tag]

section

variable {P : Primitives} {E : Encoders} {secrets : Secrets} {header : JWEHeader}
variable {algorithm : AlgorithmProvider} {enc : EncryptionProvider}
variable {encodedCek iv cipher content key aesKey hmacKey cek : Bytes} {jweStr : Text} {jwe r : JWE}
variable {storage storage₁ storage₂ : JWEKeyStorage}

theorem decodes_sentToken (hread : P.readHeader (E.writeHeader header) = some header)
    (halgorithm : getAlgProvider header.algorithm = some algorithm)
    (henc : getEncProvider header.encryptionAlgorithm = some enc) :
    Decodes P (sentToken P E header algorithm enc encodedCek iv cipher hmacKey).compact
      (sentToken P E header algorithm enc encodedCek iv cipher hmacKey) := by
  have htag : (sentToken P E header algorithm enc encodedCek iv cipher hmacKey).tag ≠ [] := by
    apply List.ne_nil_of_length_pos
    rw [sentToken, computeAuthenticationTag, copyOf_length]
    exact (getEncProvider_spec henc).2.2
  have hparts := parts_intercalate (Base64Url.dot_not_mem_encode (E.writeHeader header))
    (Base64Url.dot_not_mem_encode encodedCek) (Base64Url.dot_not_mem_encode iv)
    (Base64Url.dot_not_mem_encode cipher) (Base64Url.dot_not_mem_encode _)
    (Base64Url.encode_ne_nil htag)
  refine ⟨⟨_, _, _, hparts, Base64Url.decode_encode _, Base64Url.decode_encode _,
    Base64Url.decode_encode _⟩, ?_, halgorithm, henc, Base64Url.decode_encode _⟩
  rw [sentToken, Base64Url.decode_encode, Option.bind_some, hread]

theorem getCEKKey_generated (hkey : storage.decodedCEK .encryption = none)
    (hprovider : storage.encryptionProvider = some enc) (hcek : storage.cekBytes = none)
    (hlength : cek.length = enc.expectedCEKLength) :
    getCEKKey storage .encryption (some cek) =
      .ok ((storage.cut enc cek).decodedCEK .encryption,
        { storage with cekBytes := some cek }.cut enc cek) := by
  have hhalf : enc.expectedCEKLength / 2 ≤ cek.length := by omega
  have hdeserialize : deserializeCEK enc { storage with cekBytes := some cek } cek =
      .ok ({ storage with cekBytes := some cek }.cut enc cek) :=
    deserializeCEK_eq_ok.mpr ⟨hhalf, rfl⟩
  have hget : getCEKKey storage .encryption (some cek) =
      deserializeCEK enc { storage with cekBytes := some cek } cek >>= fun storage =>
        .ok (storage.decodedCEK .encryption, storage) := by
    obtain ⟨encryptionKey, _, decodedCEK, _⟩ := storage
    cases hprovider
    cases hcek
    simp only at hkey
    simp only [getCEKKey, hkey]
    rfl
  rw [hget, hdeserialize]
  rfl

theorem serializeCEK_of_keys (haes : storage.decodedCEK .encryption = some aesKey)
    (hhmac : storage.decodedCEK .signature = some hmacKey) :
    serializeCEK storage = .ok (hmacKey ++ aesKey) := by
  rw [serializeCEK, getCEKKey_present haes]
  simp only [bind, Except.bind, orThrow, getCEKKey_present hhmac]

theorem provider_encodeJwe_eq_ok
    (haes : jwe.keyStorage.decodedCEK .encryption = some aesKey)
    (hhmac : jwe.keyStorage.decodedCEK .signature = some hmacKey) {base64Header : Text}
    (hheader : getBase64Header E jwe = some base64Header) :
    enc.encodeJwe P E iv jwe content = .ok r ↔
      enc.expectedAesKeyLength = aesKey.length ∧
      ∃ cipher, E.encryptBytes content iv aesKey = some cipher ∧
        { jwe with
          base64Header := some base64Header
          initializationVector := iv
          encryptedContent := cipher
          authenticationTag :=
            computeAuthenticationTag P enc (utf8 base64Header) iv cipher hmacKey } = r := by
  unfold EncryptionProvider.encodeJwe
  simp only [getCEKKey_present haes, getCEKKey_present hhmac, hheader, bind_eq_ok, Except.ok.injEq,
    exists_eq_left', orThrow_eq_ok, throwUnless_eq_ok, Option.some.injEq, exists_const]

theorem encodeJwe_sender_eq_ok (halgorithm : getAlgProvider header.algorithm = some algorithm)
    (henc : getEncProvider header.encryptionAlgorithm = some enc) :
    encodeJwe P E secrets (sender header content storage) = .ok (jweStr, jwe) ↔
      ∃ found storage₁ encodedCek storage₂,
        getCEKKey { storage with encryptionProvider := some enc } .encryption
          (some (secrets.cek enc.expectedCEKLength)) = .ok (found, storage₁) ∧
        algorithm.encodeCek E storage₁ storage₁.encryptionKey = .ok (encodedCek, storage₂) ∧
        enc.encodeJwe P E secrets.iv
          { sender header content storage₂ with
            base64Cek := some (Base64Url.encode encodedCek) } content = .ok jwe ∧
        getEncodedJweString jwe = jweStr := by
  unfold encodeJwe sender JWE.fresh
  simp only [bind_eq_ok, orThrow_eq_ok, Option.some.injEq, exists_eq_left', halgorithm, henc,
    Except.ok.injEq, Prod.mk.injEq, Prod.exists]
  constructor
  · rintro ⟨found, storage₁, hkeys, encodedCek, storage₂, hcek, jwe, hencode, hstr, rfl⟩
    exact ⟨found, storage₁, encodedCek, storage₂, hkeys, hcek, hencode, hstr⟩
  · rintro ⟨found, storage₁, encodedCek, storage₂, hkeys, hcek, hencode, hstr⟩
    exact ⟨found, storage₁, hkeys, encodedCek, storage₂, hcek, jwe, hencode, hstr, rfl⟩

theorem provider_encodeJwe_sender (storage : JWEKeyStorage)
    (haes : storage.decodedCEK .encryption = some aesKey)
    (hhmac : storage.decodedCEK .signature = some hmacKey) :
    (∃ jwe, enc.encodeJwe P E secrets.iv { sender header content storage with
        base64Cek := some (Base64Url.encode encodedCek) } content = .ok jwe ∧
      getEncodedJweString jwe = jweStr) ↔
    enc.expectedAesKeyLength = aesKey.length ∧
      ∃ cipher, E.encryptBytes content secrets.iv aesKey = some cipher ∧
        (sentToken P E header algorithm enc encodedCek secrets.iv cipher hmacKey).compact =
          jweStr := by
  have hheader : getBase64Header E { sender header content storage with
      base64Cek := some (Base64Url.encode encodedCek) } =
        some (Base64Url.encode (E.writeHeader header)) := rfl
  constructor
  · rintro ⟨jwe, hencode, rfl⟩
    obtain ⟨hlength, cipher, hcipher, rfl⟩ :=
      (provider_encodeJwe_eq_ok haes hhmac hheader).mp hencode
    exact ⟨hlength, cipher, hcipher, rfl⟩
  · rintro ⟨hlength, cipher, hcipher, rfl⟩
    exact ⟨_, (provider_encodeJwe_eq_ok haes hhmac hheader).mpr ⟨hlength, cipher, hcipher, rfl⟩,
      rfl⟩

/-! ## Round trips -/

/-- Key wrapping and the cipher are undone by their counterparts and reject no key or
initialization vector of the right length; the cipher takes no other initialization vector. -/
structure Inverts (P : Primitives) (E : Encoders) : Prop where
  unwrap : ∀ key cek wrapped, E.wrap key cek = some wrapped → P.unwrap key wrapped = some cek
  exists_wrap : ∀ key cek, key.length ∈ [16, 24, 32] → cek.length ∈ [32, 48, 64] →
    ∃ wrapped, E.wrap key cek = some wrapped
  decrypt : ∀ content iv key cipher, E.encryptBytes content iv key = some cipher →
    P.decryptBytes cipher iv key = some content
  exists_encrypt : ∀ content iv key, iv.length = 16 → key.length ∈ [16, 24, 32] →
    ∃ cipher, E.encryptBytes content iv key = some cipher
  length_iv : ∀ cipher iv key content, P.decryptBytes cipher iv key = some content →
    iv.length = 16

theorem encodeJwe_direct_eq_ok (halgorithm : getAlgProvider header.algorithm = some .direct)
    (henc : getEncProvider header.encryptionAlgorithm = some enc) :
    (∃ jwe, encodeJwe P E secrets
        (sender header content (JWEKeyStorage.new.setCEKKeys aesKey hmacKey)) =
          .ok (jweStr, jwe)) ↔
      enc.expectedAesKeyLength = aesKey.length ∧
      ∃ cipher, E.encryptBytes content secrets.iv aesKey = some cipher ∧
        (sentToken P E header .direct enc [] secrets.iv cipher hmacKey).compact = jweStr := by
  simp only [encodeJwe_sender_eq_ok halgorithm henc]
  let storage : JWEKeyStorage :=
    { JWEKeyStorage.new.setCEKKeys aesKey hmacKey with encryptionProvider := some enc }
  have hpresent : getCEKKey storage .encryption (some (secrets.cek enc.expectedCEKLength)) =
      .ok (some aesKey, storage) := getCEKKey_present rfl _
  rw [← provider_encodeJwe_sender storage rfl rfl]
  constructor
  · rintro ⟨jwe, found, storage₁, encodedCek, storage₂, hkeys, hcek, hencode, hstr⟩
    cases hpresent.symm.trans hkeys
    cases hcek
    exact ⟨jwe, hencode, hstr⟩
  · rintro ⟨jwe, hencode, hstr⟩
    exact ⟨jwe, some aesKey, storage, [], storage, hpresent, rfl, hencode, hstr⟩

/-- The storage of a sender with a key encryption key, and the content keys it has set. -/
def JWEKeyStorage.ofKeyEncryptionKey (key : Bytes) : Option (Bytes × Bytes) → JWEKeyStorage
  | none => JWEKeyStorage.new.setEncryptionKey key
  | some (aesKey, hmacKey) => (JWEKeyStorage.new.setEncryptionKey key).setCEKKeys aesKey hmacKey

def sentCek (secrets : Secrets) (enc : EncryptionProvider) : Option (Bytes × Bytes) → Bytes
  | none => secrets.cek enc.expectedCEKLength
  | some (aesKey, hmacKey) => hmacKey ++ aesKey

def RightLengths (enc : EncryptionProvider) (keys : Option (Bytes × Bytes)) : Prop :=
  ∀ aesKey hmacKey, keys = some (aesKey, hmacKey) →
    aesKey.length = enc.expectedAesKeyLength ∧ hmacKey.length = enc.expectedAesKeyLength

theorem length_sentCek (secrets : Secrets)
    (henc : enc.expectedCEKLength = 2 * enc.expectedAesKeyLength)
    {keys : Option (Bytes × Bytes)} (hkeys : RightLengths enc keys) :
    (sentCek secrets enc keys).length = enc.expectedCEKLength := by
  cases keys with
  | none => exact secrets.length_cek enc.expectedCEKLength
  | some keys =>
      obtain ⟨haes, hhmac⟩ := hkeys keys.1 keys.2 rfl
      rw [sentCek, List.length_append]
      omega

/-- The content keys are the two halves of the content encryption key, whether they were
set or generated. -/
theorem exists_ready (secrets : Secrets) (key : Bytes)
    (henc : enc.expectedCEKLength = 2 * enc.expectedAesKeyLength)
    {keys : Option (Bytes × Bytes)} (hkeys : RightLengths enc keys) :
    ∃ found storage₁ storage₂,
      getCEKKey { JWEKeyStorage.ofKeyEncryptionKey key keys with encryptionProvider := some enc }
        .encryption (some (secrets.cek enc.expectedCEKLength)) = .ok (found, storage₁) ∧
      storage₁.encryptionKey = some key ∧
      getCekBytes storage₁ = .ok (sentCek secrets enc keys, storage₂) ∧
      storage₂.decodedCEK .encryption =
        some ((sentCek secrets enc keys).drop enc.expectedAesKeyLength) ∧
      storage₂.decodedCEK .signature =
        some ((sentCek secrets enc keys).take enc.expectedAesKeyLength) := by
  cases keys with
  | none =>
      have hlength := secrets.length_cek enc.expectedCEKLength
      have hhalf : enc.expectedCEKLength / 2 = enc.expectedAesKeyLength := by omega
      refine ⟨_, _, _, getCEKKey_generated rfl rfl rfl hlength, rfl, rfl, ?_, ?_⟩
      · rw [cut_encryption, hhalf, copyOf_of_le (by rw [List.length_drop]; omega),
          List.take_of_length_le (by rw [List.length_drop]; omega)]
        rfl
      · rw [cut_signature, hhalf, copyOf_of_le (by omega)]
        rfl
  | some keys =>
      obtain ⟨aesKey, hmacKey⟩ := keys
      obtain ⟨-, hhmac⟩ := hkeys aesKey hmacKey rfl
      let storage : JWEKeyStorage :=
        { (JWEKeyStorage.new.setEncryptionKey key).setCEKKeys aesKey hmacKey with
          encryptionProvider := some enc }
      have hserialize : serializeCEK storage = .ok (hmacKey ++ aesKey) :=
        serializeCEK_of_keys rfl rfl
      have hbytes : getCekBytes storage =
          .ok (hmacKey ++ aesKey, { storage with cekBytes := some (hmacKey ++ aesKey) }) := by
        have hnone : storage.cekBytes = none := rfl
        simp only [getCekBytes, hnone, hserialize, bind, Except.bind]
      refine ⟨some aesKey, storage, _, getCEKKey_present rfl _, rfl, hbytes, ?_, ?_⟩
      · rw [sentCek, List.drop_left' hhmac]
        rfl
      · rw [sentCek, List.take_left' hhmac]
        rfl

theorem encodeJwe_aesKeyWrap_eq_ok
    (halgorithm : getAlgProvider header.algorithm = some .aesKeyWrap)
    (henc : getEncProvider header.encryptionAlgorithm = some enc)
    {keys : Option (Bytes × Bytes)} (hkeys : RightLengths enc keys) :
    (∃ jwe, encodeJwe P E secrets
        (sender header content (JWEKeyStorage.ofKeyEncryptionKey key keys)) = .ok (jweStr, jwe)) ↔
      ∃ wrapped cipher, E.wrap key (sentCek secrets enc keys) = some wrapped ∧
        E.encryptBytes content secrets.iv
          ((sentCek secrets enc keys).drop enc.expectedAesKeyLength) = some cipher ∧
        (sentToken P E header .aesKeyWrap enc wrapped secrets.iv cipher
          ((sentCek secrets enc keys).take enc.expectedAesKeyLength)).compact = jweStr := by
  have hcekLength := (getEncProvider_spec henc).1
  have hlength := length_sentCek secrets hcekLength hkeys
  have haesLength : enc.expectedAesKeyLength =
      ((sentCek secrets enc keys).drop enc.expectedAesKeyLength).length := by
    rw [List.length_drop]
    omega
  obtain ⟨found, storage₁, storage₂, hget, hkey, hbytes, haes, hhmac⟩ :=
    exists_ready secrets key hcekLength hkeys
  have hencode : ∀ {result}, AlgorithmProvider.aesKeyWrap.encodeCek E storage₁
      storage₁.encryptionKey = .ok result ↔
        ∃ wrapped, E.wrap key (sentCek secrets enc keys) = some wrapped ∧
          (wrapped, storage₂) = result := by
    intro result
    simp only [AlgorithmProvider.encodeCek, hkey, hbytes, bind_eq_ok, orThrow_eq_ok,
      Option.some.injEq, exists_eq_left', Except.ok.injEq]
  simp only [encodeJwe_sender_eq_ok halgorithm henc]
  constructor
  · rintro ⟨jwe, found', storage₁', encodedCek, storage₂', hget', hcek, hprovider, hstr⟩
    cases hget.symm.trans hget'
    obtain ⟨wrapped, hwrap, hresult⟩ := hencode.mp hcek
    rw [Prod.mk.injEq] at hresult
    obtain ⟨rfl, rfl⟩ := hresult
    obtain ⟨-, cipher, hcipher, hcompact⟩ :=
      (provider_encodeJwe_sender storage₂ haes hhmac).mp ⟨jwe, hprovider, hstr⟩
    exact ⟨wrapped, cipher, hwrap, hcipher, hcompact⟩
  · rintro ⟨wrapped, cipher, hwrap, hcipher, hcompact⟩
    obtain ⟨jwe, hprovider, hstr⟩ := (provider_encodeJwe_sender storage₂ haes hhmac).mpr
      ⟨haesLength, cipher, hcipher, hcompact⟩
    exact ⟨jwe, found, storage₁, wrapped, storage₂, hget, hencode.mpr ⟨wrapped, hwrap, rfl⟩,
      hprovider, hstr⟩

/-- A token encoded with content keys is decoded under them, whatever its key part is. -/
theorem verifyAndDecodeJwe_direct (hread : P.readHeader (E.writeHeader header) = some header)
    (halgorithm : getAlgProvider header.algorithm = some .direct)
    (henc : getEncProvider header.encryptionAlgorithm = some enc)
    (hlength : enc.expectedAesKeyLength = aesKey.length)
    (hcipher : P.decryptBytes cipher iv aesKey = some content) :
    ∃ r, verifyAndDecodeJwe P (directReceiver aesKey hmacKey)
        (sentToken P E header .direct enc encodedCek iv cipher hmacKey).compact = .ok r ∧
      r.content = some content := by
  let t := sentToken P E header .direct enc encodedCek iv cipher hmacKey
  have ht : Decodes P t.compact t := decodes_sentToken hread halgorithm henc
  let jwe := t.received (JWEKeyStorage.new.setCEKKeys aesKey hmacKey) []
  have haes : getCEKKey jwe.keyStorage .encryption none = .ok (some aesKey, jwe.keyStorage) :=
    getCEKKey_present rfl none
  have hverify : enc.verifyAndDecodeJwe P jwe t.base64Header =
      .ok { jwe with content := some content } :=
    (verifyAndDecodeJwe_of_keys haes rfl).mpr ⟨hlength, rfl, content, hcipher, rfl⟩
  exact ⟨_, verifyAndDecodeJwe_fresh.mpr ⟨t, [], ht, rfl, hverify⟩, rfl⟩

/-- A token encoded with a wrapped key is decoded under the key encryption key. -/
theorem verifyAndDecodeJwe_aesKeyWrap
    (hread : P.readHeader (E.writeHeader header) = some header)
    (halgorithm : getAlgProvider header.algorithm = some .aesKeyWrap)
    (henc : getEncProvider header.encryptionAlgorithm = some enc)
    (hcek : P.unwrap key encodedCek = some cek) (hlength : cek.length = enc.expectedCEKLength)
    (hcipher : P.decryptBytes cipher iv (cek.drop enc.expectedAesKeyLength) = some content) :
    ∃ r, verifyAndDecodeJwe P (keyEncryptionReceiver key)
        (sentToken P E header .aesKeyWrap enc encodedCek iv cipher
          (cek.take enc.expectedAesKeyLength)).compact = .ok r ∧
      r.content = some content := by
  have hcekLength := (getEncProvider_spec henc).1
  have hle : enc.expectedAesKeyLength ≤ cek.length := by omega
  have haes : copyOf (cek.drop enc.expectedAesKeyLength) enc.expectedAesKeyLength =
      cek.drop enc.expectedAesKeyLength := by
    rw [copyOf_of_le (by rw [List.length_drop]; omega),
      List.take_of_length_le (by rw [List.length_drop]; omega)]
  refine ⟨_, keyEncryptionReceiver_eq_ok.mpr ⟨_, cek, content, decodes_sentToken hread halgorithm
    henc, rfl, hcek, hle, ?_, ?_, rfl⟩, rfl⟩
  · rw [sentToken, copyOf_of_le hle]
    rfl
  · rw [sentToken, haes, hcipher]

end

/-! ## What a tag binds -/

theorem utf8_injective : Function.Injective utf8 := by
  intro a b h
  have hencode : a.utf8Encode = b.utf8Encode := congrArg List.toByteArray h
  have hdecode := congrArg ByteArray.utf8Decode? hencode
  rw [List.utf8Decode?_utf8Encode, List.utf8Decode?_utf8Encode, Option.some.injEq] at hdecode
  exact Array.toList_inj.mpr hdecode

def Decoded.macInput (t : Decoded) : Bytes :=
  utf8 t.base64Header ++ t.iv ++ t.content ++ lengthInBits (utf8 t.base64Header)

/-- The four bytes give the number of bits back as long as it fits into them. -/
theorem length_eq_of_lengthInBits {a b : Bytes} (ha : a.length < 2 ^ 28) (hb : b.length < 2 ^ 28)
    (h : lengthInBits a = lengthInBits b) : a.length = b.length := by
  have hmod : ∀ c : Bytes, c.length < 2 ^ 28 →
      (UInt32.ofNat (c.length * 8)).toNat = c.length * 8 := by
    intro c hc
    rw [UInt32.toNat_ofNat', Nat.mod_eq_of_lt (by omega)]
  simp only [lengthInBits, List.cons.injEq, true_and, and_true] at h
  obtain ⟨h24, h16, h8, h0⟩ := h
  have hbyte : ∀ x y : UInt32, x.toUInt8 = y.toUInt8 → x.toNat % 2 ^ 8 = y.toNat % 2 ^ 8 := by
    intro x y hxy
    simpa using congrArg UInt8.toNat hxy
  have h24' := hbyte _ _ h24
  have h16' := hbyte _ _ h16
  have h8' := hbyte _ _ h8
  have h0' := hbyte _ _ h0
  simp only [UInt32.toNat_shiftRight, hmod a ha, hmod b hb, UInt32.reduceToNat,
    Nat.shiftRight_eq_div_pow, Nat.reduceMod, Nat.reducePow] at h24' h16' h8' h0'
  omega

/-- Header text, initialization vector and ciphertext can be read off the input. -/
theorem macInput_injective {t₁ t₂ : Decoded} (hiv₁ : t₁.iv.length = 16) (hiv₂ : t₂.iv.length = 16)
    (hlt₁ : (utf8 t₁.base64Header).length < 2 ^ 28) (hlt₂ : (utf8 t₂.base64Header).length < 2 ^ 28)
    (h : t₁.macInput = t₂.macInput) :
    t₁.base64Header = t₂.base64Header ∧ t₁.iv = t₂.iv ∧ t₁.content = t₂.content := by
  obtain ⟨hparts, hbits⟩ := List.append_inj' h rfl
  have hlength := length_eq_of_lengthInBits hlt₁ hlt₂ hbits
  rw [List.append_assoc, List.append_assoc] at hparts
  obtain ⟨hheader, hrest⟩ := List.append_inj hparts hlength
  obtain ⟨hiv, hcontent⟩ := List.append_inj hrest (hiv₁.trans hiv₂.symm)
  exact ⟨utf8_injective hheader, hiv, hcontent⟩

theorem getCEKKey_cases {storage storage' : JWEKeyStorage} {enc : EncryptionProvider} {cek : Bytes}
    {keyUse : KeyUse} {found : Option Bytes}
    (hprovider : storage.encryptionProvider = some enc) (hcek : storage.cekBytes = some cek)
    (h : getCEKKey storage keyUse none = .ok (found, storage')) :
    storage'.decodedCEK keyUse = found ∧ (storage' = storage ∨ storage' = storage.cut enc cek) := by
  cases hkey : storage.decodedCEK keyUse with
  | some key =>
      rw [getCEKKey_present hkey] at h
      cases h
      exact ⟨hkey, .inl rfl⟩
  | none =>
      obtain ⟨-, hresult⟩ := (getCEKKey_absent hkey hprovider hcek).mp h
      cases hresult
      exact ⟨rfl, .inr rfl⟩

/-- Acceptance, whatever keys the storage has: the tag is that of the key for it which the
storage has afterwards, and the length of the other key tells the encryption provider. -/
structure Accepted (P : Primitives) (t : Decoded) (r : JWE) : Prop where
  tag : ∃ hmacKey, r.keyStorage.decodedCEK .signature = some hmacKey ∧
    t.tag = t.computedTag P hmacKey
  length : ∃ aesKey, r.keyStorage.decodedCEK .encryption = some aesKey ∧
    aesKey.length = t.enc.expectedAesKeyLength
  decrypts : ∃ key content, P.decryptBytes t.content t.iv key = some content

theorem exists_accepted_of_fresh {P : Primitives} {storage : JWEKeyStorage} {jweStr : Text}
    {r : JWE} (h : verifyAndDecodeJwe P (JWE.fresh storage) jweStr = .ok r) :
    ∃ t, Decodes P jweStr t ∧ Accepted P t r := by
  obtain ⟨t, cek, ht, -, hverify⟩ := verifyAndDecodeJwe_fresh.mp h
  refine ⟨t, ht, ?_⟩
  unfold EncryptionProvider.verifyAndDecodeJwe at hverify
  simp only [bind_eq_ok, orThrow_eq_ok, throwUnless_eq_ok, Prod.exists, exists_const] at hverify
  obtain ⟨foundAes, storage₁, haes, aesKey, rfl, foundHmac, storage₂, hhmac, hmacKey, rfl,
    hlength, htag, content, hcontent, hr⟩ := hverify
  cases hr
  obtain ⟨hkey₁, hstorage₁⟩ := getCEKKey_cases rfl rfl haes
  have hprovider₁ : storage₁.encryptionProvider = some t.enc ∧ storage₁.cekBytes = some cek := by
    rcases hstorage₁ with rfl | rfl <;> exact ⟨rfl, rfl⟩
  obtain ⟨hkey₂, hstorage₂⟩ := getCEKKey_cases hprovider₁.1 hprovider₁.2 hhmac
  refine ⟨⟨hmacKey, hkey₂, htag⟩, ?_, ⟨aesKey, content, hcontent⟩⟩
  rcases hstorage₂ with rfl | rfl
  · exact ⟨aesKey, hkey₁, hlength.symm⟩
  · have hhalf := (getEncProvider_spec ht.enc_eq).1
    refine ⟨_, cut_encryption storage₁ t.enc cek, ?_⟩
    rw [copyOf_length]
    omega

theorem Decodes.unique {P : Primitives} {jweStr : Text} {t t' : Decoded}
    (h : Decodes P jweStr t) (h' : Decodes P jweStr t') : t = t' := by
  obtain ⟨⟨part2, part3, part4, hparts, hiv, hcontent, htag⟩, hheader, halgorithm, henc, hcek⟩ := h
  obtain ⟨⟨part2', part3', part4', hparts', hiv', hcontent', htag'⟩, hheader', halgorithm', henc',
    hcek'⟩ := h'
  obtain ⟨base64Header, base64Cek, header, algorithm, enc, encodedCek, iv, content, tag⟩ := t
  obtain ⟨base64Header', base64Cek', header', algorithm', enc', encodedCek', iv', content',
    tag'⟩ := t'
  cases hparts.symm.trans hparts'
  cases hiv.symm.trans hiv'
  cases hcontent.symm.trans hcontent'
  cases htag.symm.trans htag'
  cases hheader.symm.trans hheader'
  cases halgorithm.symm.trans halgorithm'
  cases henc.symm.trans henc'
  cases hcek.symm.trans hcek'
  rfl

/-- The length of its AES key tells the encryption provider. -/
theorem getEncProvider_eq_of_length {name name' : Option String} {enc enc' : EncryptionProvider}
    (h : getEncProvider name = some enc) (h' : getEncProvider name' = some enc')
    (hlength : enc.expectedAesKeyLength = enc'.expectedAesKeyLength) : enc = enc' := by
  unfold getEncProvider at h h'
  split at h <;> split at h' <;> cases h <;> cases h' <;>
    first | rfl | exact absurd hlength (by decide)

/-! ## Round trips and binding -/

def RoundTrips (P : Primitives) (E : Encoders) (secrets : Secrets) (sender receiver : JWE) : Prop :=
  ∀ jweStr jwe, encodeJwe P E secrets sender = .ok (jweStr, jwe) →
    ∃ r, verifyAndDecodeJwe P receiver jweStr = .ok r ∧ r.content = sender.content

/-- The truncated authentication codes of the messages differ, at each registered provider. -/
def TagsInjective (P : Primitives) (messages : Set Bytes) : Prop :=
  ∀ name enc, getEncProvider name = some enc → ∀ key : Bytes, Set.InjOn
    (fun message => copyOf (P.mac enc.hmacShaAlgorithm key message) enc.authenticationTagLength)
    messages

section

variable {P : Primitives} {E : Encoders}

theorem roundTrips_direct (h : Inverts P E) {header : JWEHeader} {enc : EncryptionProvider}
    (hread : P.readHeader (E.writeHeader header) = some header)
    (halgorithm : getAlgProvider header.algorithm = some .direct)
    (henc : getEncProvider header.encryptionAlgorithm = some enc)
    (secrets : Secrets) (content aesKey hmacKey : Bytes) :
    RoundTrips P E secrets
      (sender header content (JWEKeyStorage.new.setCEKKeys aesKey hmacKey))
      (directReceiver aesKey hmacKey) := by
  intro jweStr jwe hencode
  obtain ⟨hlength, cipher, hcipher, rfl⟩ :=
    (encodeJwe_direct_eq_ok halgorithm henc).mp ⟨jwe, hencode⟩
  exact verifyAndDecodeJwe_direct hread halgorithm henc hlength
    (h.decrypt content secrets.iv aesKey cipher hcipher)

theorem roundTrips_aesKeyWrap (h : Inverts P E) {header : JWEHeader} {enc : EncryptionProvider}
    (hread : P.readHeader (E.writeHeader header) = some header)
    (halgorithm : getAlgProvider header.algorithm = some .aesKeyWrap)
    (henc : getEncProvider header.encryptionAlgorithm = some enc)
    (secrets : Secrets) (content key : Bytes) {keys : Option (Bytes × Bytes)}
    (hkeys : RightLengths enc keys) :
    RoundTrips P E secrets
      (sender header content (JWEKeyStorage.ofKeyEncryptionKey key keys))
      (keyEncryptionReceiver key) := by
  intro jweStr jwe hencode
  obtain ⟨wrapped, cipher, hwrap, hcipher, rfl⟩ :=
    (encodeJwe_aesKeyWrap_eq_ok halgorithm henc hkeys).mp ⟨jwe, hencode⟩
  exact verifyAndDecodeJwe_aesKeyWrap hread halgorithm henc (h.unwrap key _ wrapped hwrap)
    (length_sentCek secrets (getEncProvider_spec henc).1 hkeys)
    (h.decrypt content secrets.iv _ cipher hcipher)

theorem exists_encodeJwe_direct (h : Inverts P E) {header : JWEHeader} {enc : EncryptionProvider}
    (halgorithm : getAlgProvider header.algorithm = some .direct)
    (henc : getEncProvider header.encryptionAlgorithm = some enc)
    (secrets : Secrets) (content : Bytes) {aesKey hmacKey : Bytes}
    (hkeys : RightLengths enc (some (aesKey, hmacKey))) :
    ∃ jweStr jwe, encodeJwe P E secrets
      (sender header content (JWEKeyStorage.new.setCEKKeys aesKey hmacKey)) =
        .ok (jweStr, jwe) := by
  have hlength := (hkeys aesKey hmacKey rfl).1
  obtain ⟨cipher, hcipher⟩ := h.exists_encrypt content secrets.iv aesKey secrets.length_iv
    (hlength ▸ (getEncProvider_spec henc).2.1)
  exact ⟨_, (encodeJwe_direct_eq_ok halgorithm henc).mpr ⟨hlength.symm, cipher, hcipher, rfl⟩⟩

theorem exists_encodeJwe_aesKeyWrap (h : Inverts P E) {header : JWEHeader}
    {enc : EncryptionProvider} (halgorithm : getAlgProvider header.algorithm = some .aesKeyWrap)
    (henc : getEncProvider header.encryptionAlgorithm = some enc)
    (secrets : Secrets) (content : Bytes) {key : Bytes} (hkey : key.length ∈ [16, 24, 32])
    {keys : Option (Bytes × Bytes)} (hkeys : RightLengths enc keys) :
    ∃ jweStr jwe, encodeJwe P E secrets
      (sender header content (JWEKeyStorage.ofKeyEncryptionKey key keys)) = .ok (jweStr, jwe) := by
  obtain ⟨hcekLength, hmem, -⟩ := getEncProvider_spec henc
  have hlength := length_sentCek secrets hcekLength hkeys
  have haes : ((sentCek secrets enc keys).drop enc.expectedAesKeyLength).length =
      enc.expectedAesKeyLength := by
    rw [List.length_drop]
    omega
  have hcek : (sentCek secrets enc keys).length ∈ [32, 48, 64] := by
    simp only [List.mem_cons, List.not_mem_nil, or_false] at hmem ⊢
    omega
  obtain ⟨wrapped, hwrap⟩ := h.exists_wrap key (sentCek secrets enc keys) hkey hcek
  obtain ⟨cipher, hcipher⟩ := h.exists_encrypt content secrets.iv
    ((sentCek secrets enc keys).drop enc.expectedAesKeyLength) secrets.length_iv
    (by rw [haes]; exact hmem)
  exact ⟨_, (encodeJwe_aesKeyWrap_eq_ok halgorithm henc hkeys).mpr
    ⟨wrapped, cipher, hwrap, hcipher, rfl⟩⟩

/-- Two accepted tokens with the same tag under the same keys have the same parts. -/
theorem parts_eq_of_tag (h : Inverts P E) {messages : Set Bytes} (hmac : TagsInjective P messages)
    {storage₁ storage₂ : JWEKeyStorage} {jweStr₁ jweStr₂ : Text} {t₁ t₂ : Decoded} {r₁ r₂ : JWE}
    (haccept₁ : verifyAndDecodeJwe P (JWE.fresh storage₁) jweStr₁ = .ok r₁)
    (haccept₂ : verifyAndDecodeJwe P (JWE.fresh storage₂) jweStr₂ = .ok r₂)
    (ht₁ : Decodes P jweStr₁ t₁) (ht₂ : Decodes P jweStr₂ t₂)
    (hkeys : r₁.keyStorage.decodedCEK = r₂.keyStorage.decodedCEK)
    (hmem₁ : t₁.macInput ∈ messages) (hmem₂ : t₂.macInput ∈ messages)
    (hlt₁ : (utf8 t₁.base64Header).length < 2 ^ 28) (hlt₂ : (utf8 t₂.base64Header).length < 2 ^ 28)
    (htag : t₁.tag = t₂.tag) :
    t₁.base64Header = t₂.base64Header ∧ t₁.iv = t₂.iv ∧ t₁.content = t₂.content := by
  obtain ⟨t, ht, ⟨hmacKey₁, hkey₁, htag₁⟩, ⟨aesKey₁, haes₁, hlength₁⟩, key₁, content₁, hdecrypt₁⟩ :=
    exists_accepted_of_fresh haccept₁
  obtain rfl := ht.unique ht₁
  obtain ⟨t', ht', ⟨hmacKey₂, hkey₂, htag₂⟩, ⟨aesKey₂, haes₂, hlength₂⟩, key₂, content₂,
    hdecrypt₂⟩ := exists_accepted_of_fresh haccept₂
  obtain rfl := ht'.unique ht₂
  rw [hkeys] at hkey₁ haes₁
  obtain rfl : hmacKey₁ = hmacKey₂ := Option.some.inj (hkey₁.symm.trans hkey₂)
  obtain rfl : aesKey₁ = aesKey₂ := Option.some.inj (haes₁.symm.trans haes₂)
  have henc : t.enc = t'.enc :=
    getEncProvider_eq_of_length ht.enc_eq ht'.enc_eq (hlength₁.symm.trans hlength₂)
  refine macInput_injective (h.length_iv _ _ _ _ hdecrypt₁) (h.length_iv _ _ _ _ hdecrypt₂)
    hlt₁ hlt₂ (hmac _ t.enc ht.enc_eq hmacKey₁ hmem₁ hmem₂ ?_)
  have htags : t.computedTag P hmacKey₁ = t'.computedTag P hmacKey₁ :=
    htag₁.symm.trans (htag.trans htag₂)
  rw [Decoded.computedTag, Decoded.computedTag, ← henc] at htags
  exact htags

end

/-- Tokens come back with their content under the same key, and a tag binds the header text,
the initialization vector and the ciphertext. -/
theorem roundTrips_and_binds {P : Primitives} {E : Encoders} (h : Inverts P E) :
    (∀ (header : JWEHeader) (enc : EncryptionProvider),
      P.readHeader (E.writeHeader header) = some header →
      getEncProvider header.encryptionAlgorithm = some enc →
      ∀ (secrets : Secrets) (content : Bytes),
        (header.algorithm = some "A128KW" →
          ∀ (key : Bytes) (keys : Option (Bytes × Bytes)), RightLengths enc keys →
            RoundTrips P E secrets
              (sender header content (JWEKeyStorage.ofKeyEncryptionKey key keys))
              (keyEncryptionReceiver key) ∧
            (key.length ∈ [16, 24, 32] → ∃ jweStr jwe, encodeJwe P E secrets
              (sender header content (JWEKeyStorage.ofKeyEncryptionKey key keys)) =
                .ok (jweStr, jwe))) ∧
        (header.algorithm = some "dir" →
          ∀ aesKey hmacKey : Bytes, RightLengths enc (some (aesKey, hmacKey)) →
            RoundTrips P E secrets
              (sender header content (JWEKeyStorage.new.setCEKKeys aesKey hmacKey))
              (directReceiver aesKey hmacKey) ∧
            ∃ jweStr jwe, encodeJwe P E secrets
              (sender header content (JWEKeyStorage.new.setCEKKeys aesKey hmacKey)) =
                .ok (jweStr, jwe))) ∧
    ∀ (messages : Set Bytes), TagsInjective P messages →
      ∀ (storage₁ storage₂ : JWEKeyStorage) (jweStr₁ jweStr₂ : Text) (t₁ t₂ : Decoded)
        (r₁ r₂ : JWE),
        verifyAndDecodeJwe P (JWE.fresh storage₁) jweStr₁ = .ok r₁ →
        verifyAndDecodeJwe P (JWE.fresh storage₂) jweStr₂ = .ok r₂ →
        Decodes P jweStr₁ t₁ → Decodes P jweStr₂ t₂ →
        r₁.keyStorage.decodedCEK = r₂.keyStorage.decodedCEK →
        t₁.macInput ∈ messages → t₂.macInput ∈ messages →
        (utf8 t₁.base64Header).length < 2 ^ 28 → (utf8 t₂.base64Header).length < 2 ^ 28 →
        t₁.tag = t₂.tag →
        t₁.base64Header = t₂.base64Header ∧ t₁.iv = t₂.iv ∧ t₁.content = t₂.content := by
  refine ⟨fun header enc hread henc secrets content => ⟨?_, ?_⟩, ?_⟩
  · intro halgorithm key keys hkeys
    have hprovider : getAlgProvider header.algorithm = some .aesKeyWrap := by
      rw [halgorithm]
      rfl
    exact ⟨roundTrips_aesKeyWrap h hread hprovider henc secrets content key hkeys,
      fun hkey => exists_encodeJwe_aesKeyWrap h hprovider henc secrets content hkey hkeys⟩
  · intro halgorithm aesKey hmacKey hkeys
    have hprovider : getAlgProvider header.algorithm = some .direct := by
      rw [halgorithm]
      rfl
    exact ⟨roundTrips_direct h hread hprovider henc secrets content aesKey hmacKey,
      exists_encodeJwe_direct h hprovider henc secrets content hkeys⟩
  · intro messages hmac storage₁ storage₂ jweStr₁ jweStr₂ t₁ t₂ r₁ r₂ haccept₁ haccept₂ ht₁ ht₂
      hkeys hmem₁ hmem₂ hlt₁ hlt₂ htag
    exact parts_eq_of_tag h hmac haccept₁ haccept₂ ht₁ ht₂ hkeys hmem₁ hmem₂ hlt₁ hlt₂ htag

/-! ## A token under given keys -/

def directHeader : JWEHeader := ⟨some "dir", some "A128CBC-HS256"⟩

def directHeaderJson : Bytes :=
  [123, 34, 97, 108, 103, 34, 58, 34, 100, 105, 114, 34, 44, 34, 101, 110, 99, 34, 58, 34, 65, 49,
    50, 56, 67, 66, 67, 45, 72, 83, 50, 53, 54, 34, 125]

def swappedHeaderJson : Bytes :=
  [123, 34, 101, 110, 99, 34, 58, 34, 65, 49, 50, 56, 67, 66, 67, 45, 72, 83, 50, 53, 54, 34, 44, 34,
    97, 108, 103, 34, 58, 34, 100, 105, 114, 34, 125]

def directAesKey : Bytes := [17, 18, 19, 20, 21, 22, 23, 24, 0, 0, 0, 0, 0, 0, 0, 0]

def directHmacKey : Bytes := [1, 2, 3, 4, 5, 6, 7, 8, 9, 10, 11, 12, 13, 14, 15, 16]

def directContent : Bytes := [104, 101, 108, 108, 111]

def directSecrets : Secrets where
  cek size := List.replicate size 0
  iv := shortIv
  length_cek _ := List.length_replicate
  length_iv := rfl

/-- The cipher at the one key and initialization vector exchanges the content with its
ciphertext. -/
def exchange (iv key bytes : Bytes) : Bytes :=
  if iv = shortIv ∧ key = directAesKey then
    if bytes = directContent then shortContent
    else if bytes = shortContent then directContent
    else bytes
  else bytes

theorem exchange_exchange (iv key bytes : Bytes) :
    exchange iv key (exchange iv key bytes) = bytes := by
  by_cases hkey : iv = shortIv ∧ key = directAesKey
  · by_cases hcontent : bytes = directContent
    · subst hcontent
      simp [exchange, hkey, shortContent, directContent]
    · by_cases hcipher : bytes = shortContent
      · subst hcipher
        simp [exchange, hkey, shortContent, directContent]
      · simp [exchange, hkey, hcontent, hcipher]
  · simp only [exchange, if_neg hkey]

def cipher (content iv key : Bytes) : Option Bytes :=
  if iv.length = 16 ∧ key.length ∈ [16, 24, 32] then some (exchange iv key content) else none

/-- The input of the authentication code for a header text of the length of `directHeaderJson`. -/
def directMessage (base64Header : Text) : Bytes :=
  utf8 base64Header ++ shortIv ++ shortContent ++ [0, 0, 0, 0, 0, 0, 1, 120]

def firstCode : Bytes :=
  [212, 186, 221, 24, 214, 10, 25, 84, 160, 66, 94, 72, 98, 220, 33, 146, 142, 113, 73, 85, 13, 31,
    142, 31, 163, 168, 173, 132, 113, 120, 35, 2]

def secondCode : Bytes :=
  [56, 87, 167, 164, 136, 34, 36, 81, 100, 241, 90, 40, 27, 235, 189, 74, 215, 98, 43, 95, 221, 46,
    3, 159, 240, 206, 202, 59, 98, 254, 217, 117]

/-- JSON, the code and the cipher at the two header texts; keys are wrapped in themselves. -/
def directPrimitives : Primitives where
  readHeader bytes :=
    if bytes = directHeaderJson ∨ bytes = swappedHeaderJson then some directHeader else none
  unwrap _ wrapped := some wrapped
  mac algorithm key message :=
    if message = directMessage "eyJhbGciOiJkaXIiLCJlbmMiOiJBMTI4Q0JDLUhTMjU2In0".toList then
      if algorithm = "HMACSHA256" ∧ key = directHmacKey then firstCode else [1]
    else if algorithm = "HMACSHA256" ∧ key = directHmacKey ∧
        message = directMessage "eyJlbmMiOiJBMTI4Q0JDLUhTMjU2IiwiYWxnIjoiZGlyIn0".toList then
      secondCode
    else []
  decryptBytes := cipher

def directEncoders : Encoders where
  writeHeader _ := directHeaderJson
  wrap _ cek := some cek
  encryptBytes := cipher

theorem direct_inverts : Inverts directPrimitives directEncoders where
  unwrap _ _ _ h := h.symm
  exists_wrap _ cek _ _ := ⟨cek, rfl⟩
  decrypt content iv key c h := by
    by_cases hlength : iv.length = 16 ∧ key.length ∈ [16, 24, 32]
    · have hc : exchange iv key content = c := by
        simpa only [directEncoders, cipher, if_pos hlength, Option.some.injEq] using h
      rw [← hc]
      simp only [directPrimitives, cipher, if_pos hlength, exchange_exchange]
    · simp only [directEncoders, cipher, if_neg hlength, reduceCtorEq] at h
  exists_encrypt content iv key hiv hkey := ⟨_, if_pos ⟨hiv, hkey⟩⟩
  length_iv c iv key content h := by
    by_contra hiv
    have hnot : ¬ (iv.length = 16 ∧ key.length ∈ [16, 24, 32]) := fun hlength => hiv hlength.1
    simp only [directPrimitives, cipher, if_neg hnot, reduceCtorEq] at h

def directToken (headerJson encodedCek : Bytes) : Decoded :=
  sentToken directPrimitives { directEncoders with writeHeader := fun _ => headerJson }
    directHeader .direct aes128CbcHmacSha256Provider encodedCek shortIv shortContent directHmacKey

theorem directToken_decodes {headerJson : Bytes}
    (hread : directPrimitives.readHeader headerJson = some directHeader) (encodedCek : Bytes) :
    Decodes directPrimitives (directToken headerJson encodedCek).compact
      (directToken headerJson encodedCek) :=
  decodes_sentToken hread rfl rfl

theorem directToken_accepted {headerJson : Bytes}
    (hread : directPrimitives.readHeader headerJson = some directHeader) (encodedCek : Bytes) :
    ∃ r, verifyAndDecodeJwe directPrimitives (directReceiver directAesKey directHmacKey)
        (directToken headerJson encodedCek).compact = .ok r ∧
      r.keyStorage.decodedCEK =
        (JWEKeyStorage.new.setCEKKeys directAesKey directHmacKey).decodedCEK := by
  have hcipher : directPrimitives.decryptBytes shortContent shortIv directAesKey =
      some directContent := by decide +kernel
  obtain ⟨r, haccept, -⟩ : ∃ r, verifyAndDecodeJwe directPrimitives
      (directReceiver directAesKey directHmacKey) (directToken headerJson encodedCek).compact =
        .ok r ∧ r.content = some directContent :=
    verifyAndDecodeJwe_direct hread rfl rfl rfl hcipher
  obtain ⟨_, -, haes, hhmac, -⟩ := directReceiver_accepts haccept
  refine ⟨r, haccept, funext fun keyUse => ?_⟩
  cases keyUse with
  | encryption => exact haes
  | signature => exact hhmac

/-- The codes of the two header texts differ. -/
theorem direct_tagsInjective : TagsInjective directPrimitives
    {(directToken directHeaderJson []).macInput, (directToken swappedHeaderJson []).macInput} := by
  have hfirst : (directToken directHeaderJson []).macInput =
      directMessage "eyJhbGciOiJkaXIiLCJlbmMiOiJBMTI4Q0JDLUhTMjU2In0".toList := by
    decide +kernel
  have hsecond : (directToken swappedHeaderJson []).macInput =
      directMessage "eyJlbmMiOiJBMTI4Q0JDLUhTMjU2IiwiYWxnIjoiZGlyIn0".toList := by
    decide +kernel
  have hne : directMessage "eyJlbmMiOiJBMTI4Q0JDLUhTMjU2IiwiYWxnIjoiZGlyIn0".toList ≠
      directMessage "eyJhbGciOiJkaXIiLCJlbmMiOiJBMTI4Q0JDLUhTMjU2In0".toList := by
    decide +kernel
  intro name enc henc key
  have hmac : ∀ algorithm, directPrimitives.mac algorithm key
        (directToken directHeaderJson []).macInput =
      if algorithm = "HMACSHA256" ∧ key = directHmacKey then firstCode else [1] := by
    intro algorithm
    rw [hfirst]
    simp only [directPrimitives, if_true]
  have hmac' : ∀ algorithm, directPrimitives.mac algorithm key
        (directToken swappedHeaderJson []).macInput =
      if algorithm = "HMACSHA256" ∧ key = directHmacKey then secondCode else [] := by
    intro algorithm
    rw [hsecond]
    simp only [directPrimitives, if_neg hne, and_true]
  have htags : copyOf (directPrimitives.mac enc.hmacShaAlgorithm key
        (directToken directHeaderJson []).macInput) enc.authenticationTagLength ≠
      copyOf (directPrimitives.mac enc.hmacShaAlgorithm key
        (directToken swappedHeaderJson []).macInput) enc.authenticationTagLength := by
    rw [hmac, hmac']
    unfold getEncProvider at henc
    split at henc <;> cases henc <;> split <;> decide
  rintro m (rfl | rfl) m' (rfl | rfl) heq
  · rfl
  · exact absurd heq htags
  · exact absurd heq.symm htags
  · rfl

/-- The encoded token comes back with its content. With another key part, which `dir` does not
look at, it has the same tag and the same other parts; with the other header text it has another
tag. -/
theorem direct_roundTrips_and_binds :
    ((encodeJwe directPrimitives directEncoders directSecrets
      (sender directHeader directContent
        (JWEKeyStorage.new.setCEKKeys directAesKey directHmacKey))).toOption.map Prod.fst =
      some (String.toList ("eyJhbGciOiJkaXIiLCJlbmMiOiJBMTI4Q0JDLUhTMjU2In0" ++
        "..AAAAAAAAAAAAAAAAAAAAAA.rPcD_cfGWjYYACi05A1Hkg.1LrdGNYKGVSgQl5IYtwhkg")) ∧
    RoundTrips directPrimitives directEncoders directSecrets
      (sender directHeader directContent (JWEKeyStorage.new.setCEKKeys directAesKey directHmacKey))
      (directReceiver directAesKey directHmacKey)) ∧
    (TagsInjective directPrimitives
        {(directToken directHeaderJson []).macInput, (directToken swappedHeaderJson []).macInput} ∧
      (directToken directHeaderJson []).macInput ≠ (directToken swappedHeaderJson []).macInput) ∧
    ((directToken directHeaderJson []).tag = (directToken directHeaderJson [0]).tag ∧
      (directToken directHeaderJson []).base64Header =
        (directToken directHeaderJson [0]).base64Header ∧
      (directToken directHeaderJson []).iv = (directToken directHeaderJson [0]).iv ∧
      (directToken directHeaderJson []).content = (directToken directHeaderJson [0]).content) ∧
    (directToken directHeaderJson []).tag ≠ (directToken swappedHeaderJson []).tag := by
  obtain ⟨r₁, haccept₁, hkeys₁⟩ :=
    @directToken_accepted directHeaderJson (by decide +kernel) []
  obtain ⟨r₂, haccept₂, hkeys₂⟩ :=
    @directToken_accepted directHeaderJson (by decide +kernel) [0]
  obtain ⟨r₃, haccept₃, hkeys₃⟩ :=
    @directToken_accepted swappedHeaderJson (by decide +kernel) []
  refine ⟨⟨by decide +kernel, ?_⟩, ⟨direct_tagsInjective, by decide +kernel⟩, ⟨rfl, ?_⟩, ?_⟩
  · have hkeys : RightLengths aes128CbcHmacSha256Provider (some (directAesKey, directHmacKey)) := by
      intro aesKey hmacKey h
      cases h
      exact ⟨rfl, rfl⟩
    exact (((roundTrips_and_binds direct_inverts).1 directHeader aes128CbcHmacSha256Provider rfl rfl
      directSecrets directContent).2 rfl directAesKey directHmacKey hkeys).1
  · exact (roundTrips_and_binds direct_inverts).2 _ direct_tagsInjective _ _ _ _ _ _ r₁ r₂
      haccept₁ haccept₂ (directToken_decodes (by decide +kernel) [])
      (directToken_decodes (by decide +kernel) [0]) (hkeys₁.trans hkeys₂.symm) (.inl rfl) (.inl rfl)
      (by decide +kernel) (by decide +kernel) rfl
  · intro htag
    have hparts := (roundTrips_and_binds direct_inverts).2 _ direct_tagsInjective _ _ _ _ _ _ r₁ r₃
      haccept₁ haccept₃ (directToken_decodes (by decide +kernel) [])
      (directToken_decodes (by decide +kernel) []) (hkeys₁.trans hkeys₃.symm) (.inl rfl) (.inr rfl)
      (by decide +kernel) (by decide +kernel) htag
    exact absurd hparts.1 (by decide +kernel)

end Keycloak.Tokens.Jwe
