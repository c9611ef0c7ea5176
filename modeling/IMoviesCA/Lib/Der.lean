import IMoviesCA.Lib.Bytes

/-!
# Values in DER

A DER value is a tag, the number of its content bytes, and the content (`tlv`); a sequence is the
value whose content are the values of its components.  A value is read back from its bytes, whatever
comes behind them (`readTlv_tlv`), and not from a part of them (`readTlv_take`).

Private keys are sequences: `RsaPrivateKey` is the format of PKCS #1 and
`EcPrivateKey` that of a key on a named curve, each with the lengths that the format prescribes.

An RSA key is longer than its modulus and its primes (`RsaPrivateKey.le_length_der`); a key on the
curve P-521 has 223 bytes (`EcPrivateKey.length_der_p521`).
-/

namespace Der

/-- The integer in `len` bytes, most significant first. -/
def bigEndian (len n : ℕ) : List UInt8 := (Bytes.littleEndian len n).reverse

@[simp] theorem length_bigEndian (len n : ℕ) : (bigEndian len n).length = len := by
  simp [bigEndian]

/-- The length of the content: one byte below 128, otherwise its number of bytes comes first. -/
def lengthOctets (n : ℕ) : List UInt8 :=
  if n < 128 then [UInt8.ofNat n]
  else UInt8.ofNat (128 + (n.log2 / 8 + 1)) :: bigEndian (n.log2 / 8 + 1) n

theorem length_lengthOctets_of_lt {n : ℕ} (h : n < 128) : (lengthOctets n).length = 1 := by
  rw [lengthOctets, if_pos h]
  rfl

theorem length_lengthOctets_of_le {n : ℕ} (h : 128 ≤ n) (hlt : n < 256) :
    (lengthOctets n).length = 2 := by
  have hlog : n.log2 < 8 := (Nat.log2_lt (by omega)).2 (by omega)
  rw [lengthOctets, if_neg (by omega), List.length_cons, length_bigEndian]
  omega

/-- A value with its tag and its length. -/
def tlv (tag : UInt8) (content : List UInt8) : List UInt8 :=
  tag :: (lengthOctets content.length ++ content)

theorem length_tlv (tag : UInt8) (content : List UInt8) :
    (tlv tag content).length = content.length + (lengthOctets content.length).length + 1 := by
  rw [tlv, List.length_cons, List.length_append]
  omega

/-- A natural number in the fewest bytes whose top bit is clear. -/
def integer (n : ℕ) : List UInt8 := tlv 0x02 (bigEndian ((n.log2 + 1) / 8 + 1) n)

theorem le_length_integer (n : ℕ) : (n.log2 + 1) / 8 + 1 ≤ (integer n).length := by
  rw [integer, length_tlv, length_bigEndian]
  omega

/-- An integer in the fewest bytes of two's complement. -/
def signedInteger : ℤ → List UInt8
  | .ofNat n => integer n
  | .negSucc n =>
      let len := (n.log2 + 1) / 8 + 1
      tlv 0x02 (bigEndian len (256 ^ len - 1 - n))

/-! ## Reading a value -/

/-- The length of a content, and the bytes behind it. -/
def readLength : List UInt8 → Option (ℕ × List UInt8)
  | [] => none
  | b :: bytes =>
      if b.toNat < 128 then some (b.toNat, bytes)
      else if bytes.length < b.toNat - 128 then none
      else some (Bytes.unsigned (bytes.take (b.toNat - 128)), bytes.drop (b.toNat - 128))

/-- The content of the value with this tag, and the bytes behind it. -/
def readTlv (tag : UInt8) : List UInt8 → Option (List UInt8 × List UInt8)
  | [] => none
  | t :: bytes =>
      if t ≠ tag then none
      else (readLength bytes).bind fun x =>
        if x.2.length < x.1 then none else some (x.2.take x.1, x.2.drop x.1)

/-- A bound of the lengths: those below it are written in 16 bytes at most. -/
def maxLength : ℕ := 256 ^ 16

theorem unsigned_bigEndian {len n : ℕ} (h : n < 256 ^ len) : Bytes.unsigned (bigEndian len n) = n := by
  rw [bigEndian, Bytes.unsigned_reverse_littleEndian, Nat.mod_eq_of_lt h]

theorem lt_pow_log2 (n : ℕ) : n < 256 ^ (n.log2 / 8 + 1) := by
  have hlog : n < 2 ^ (n.log2 + 1) := Nat.lt_log2_self
  have hle : n.log2 + 1 ≤ 8 * (n.log2 / 8 + 1) := by omega
  calc n < 2 ^ (n.log2 + 1) := hlog
    _ ≤ 2 ^ (8 * (n.log2 / 8 + 1)) := Nat.pow_le_pow_right (by omega) hle
    _ = 256 ^ (n.log2 / 8 + 1) := by rw [Nat.pow_mul]

theorem log2_div_lt {n : ℕ} (hle : 128 ≤ n) (h : n < maxLength) : n.log2 / 8 < 16 := by
  have hlog : n.log2 < 128 := (Nat.log2_lt (by omega)).2 h
  omega

/-- The byte that says in how many bytes the length is written. -/
theorem toNat_lengthByte {n : ℕ} (hle : 128 ≤ n) (h : n < maxLength) :
    (UInt8.ofNat (128 + (n.log2 / 8 + 1))).toNat = 128 + (n.log2 / 8 + 1) := by
  have hlt := log2_div_lt hle h
  rw [UInt8.toNat_ofNat']
  omega

theorem readLength_lengthOctets {n : ℕ} (h : n < maxLength) (bytes : List UInt8) :
    readLength (lengthOctets n ++ bytes) = some (n, bytes) := by
  by_cases hlt : n < 128
  · have hbyte : (UInt8.ofNat n).toNat = n := by
      rw [UInt8.toNat_ofNat']
      omega
    rw [lengthOctets, if_pos hlt, List.singleton_append, readLength, hbyte, if_pos hlt]
  · have hbyte := toNat_lengthByte (Nat.le_of_not_lt hlt) h
    have hcount : 128 + (n.log2 / 8 + 1) - 128 = n.log2 / 8 + 1 := by omega
    rw [lengthOctets, if_neg hlt, List.cons_append, readLength, hbyte, if_neg (by omega), hcount,
      if_neg (by rw [List.length_append, length_bigEndian]; omega),
      List.take_left' (length_bigEndian _ _), List.drop_left' (length_bigEndian _ _),
      unsigned_bigEndian (lt_pow_log2 n)]

theorem readLength_take {n m : ℕ} (h : n < maxLength) (hm : m < (lengthOctets n).length) :
    readLength ((lengthOctets n).take m) = none := by
  by_cases hlt : n < 128
  · rw [length_lengthOctets_of_lt hlt] at hm
    obtain rfl : m = 0 := by omega
    rfl
  · cases m with
    | zero => rfl
    | succ m =>
      rw [lengthOctets, if_neg hlt] at hm ⊢
      rw [List.length_cons, length_bigEndian] at hm
      have hbyte := toNat_lengthByte (Nat.le_of_not_lt hlt) h
      have hcount : 128 + (n.log2 / 8 + 1) - 128 = n.log2 / 8 + 1 := by omega
      rw [List.take_succ_cons, readLength, hbyte, if_neg (by omega), hcount,
        if_pos (by rw [List.length_take, length_bigEndian]; omega)]

/-- A value is read from the start of the bytes. -/
theorem readTlv_tlv {content : List UInt8} (h : content.length < maxLength) (tag : UInt8)
    (bytes : List UInt8) : readTlv tag (tlv tag content ++ bytes) = some (content, bytes) := by
  rw [tlv, List.cons_append, readTlv, if_neg (not_not.2 rfl), List.append_assoc,
    readLength_lengthOctets h, Option.bind_some,
    if_neg (by rw [List.length_append]; omega), List.take_left, List.drop_left]

/-- A value that breaks off is not read. -/
theorem readTlv_take {content : List UInt8} (h : content.length < maxLength) (tag : UInt8) {m : ℕ}
    (hm : m < (tlv tag content).length) : readTlv tag ((tlv tag content).take m) = none := by
  cases m with
  | zero => rfl
  | succ m =>
    rw [length_tlv] at hm
    rw [tlv, List.take_succ_cons, readTlv, if_neg (not_not.2 rfl)]
    by_cases hlength : m < (lengthOctets content.length).length
    · rw [List.take_append_of_le_length hlength.le, readLength_take h hlength, Option.bind_none]
    · rw [List.take_append, List.take_of_length_le (Nat.le_of_not_lt hlength),
        readLength_lengthOctets h, Option.bind_some, if_pos]
      rw [List.length_take]
      omega

theorem head_of_readTlv {tag : UInt8} {bytes : List UInt8} {x : List UInt8 × List UInt8}
    (h : readTlv tag bytes = some x) : bytes.head? = some tag := by
  cases bytes with
  | nil => cases h
  | cons t bytes =>
    rw [readTlv] at h
    split_ifs at h with htag
    rw [List.head?_cons, not_not.1 htag]

/-! ## RSA keys -/

/-- The private key of PKCS #1 with two primes. -/
structure RsaPrivateKey where
  modulus : ℕ
  publicExponent : ℕ
  privateExponent : ℕ
  prime1 : ℕ
  prime2 : ℕ
  exponent1 : ℕ
  exponent2 : ℕ
  coefficient : ℕ
  modulus_eq : modulus = prime1 * prime2

namespace RsaPrivateKey

variable (k : RsaPrivateKey)

/-- The bytes of an `RSAPrivateKey`. -/
def der : List UInt8 :=
  tlv 0x30 (integer 0 ++ integer k.modulus ++ integer k.publicExponent ++
    integer k.privateExponent ++ integer k.prime1 ++ integer k.prime2 ++ integer k.exponent1 ++
    integer k.exponent2 ++ integer k.coefficient)

/-- Together the primes have as many bits as the modulus. -/
theorem log2_modulus_le (h : 0 < k.modulus) :
    k.modulus.log2 ≤ k.prime1.log2 + k.prime2.log2 + 1 := by
  have h₁ : k.prime1 < 2 ^ (k.prime1.log2 + 1) := Nat.lt_log2_self
  have h₂ : k.prime2 < 2 ^ (k.prime2.log2 + 1) := Nat.lt_log2_self
  have hlt : k.modulus < 2 ^ (k.prime1.log2 + k.prime2.log2 + 2) := by
    calc k.modulus = k.prime1 * k.prime2 := k.modulus_eq
      _ < 2 ^ (k.prime1.log2 + 1) * 2 ^ (k.prime2.log2 + 1) := Nat.mul_lt_mul'' h₁ h₂
      _ = 2 ^ (k.prime1.log2 + k.prime2.log2 + 2) := by
        rw [← Nat.pow_add]
        congr 1
        omega
  have hlog := (Nat.log2_lt (Nat.pos_iff_ne_zero.1 h)).2 hlt
  omega

/-- The modulus, and once more the primes: each is as long as the size of the key. -/
theorem le_length_der {bits : ℕ} (h : 2 ^ bits ≤ k.modulus) :
    2 * (bits / 8) ≤ k.der.length := by
  have hpos : 0 < k.modulus := Nat.lt_of_lt_of_le (Nat.two_pow_pos bits) h
  have hbits : bits ≤ k.modulus.log2 := (Nat.le_log2 (Nat.pos_iff_ne_zero.1 hpos)).2 h
  have hprimes := k.log2_modulus_le hpos
  have hmodulus := le_length_integer k.modulus
  have hprime1 := le_length_integer k.prime1
  have hprime2 := le_length_integer k.prime2
  rw [der, length_tlv]
  simp only [List.length_append]
  omega

end RsaPrivateKey

/-! ## Keys on a curve -/

/-- A private key on a named curve whose coordinates have `width` bytes. -/
structure EcPrivateKey (width : ℕ) where
  /-- The content of the object identifier. -/
  curve : List UInt8
  privateKey : List UInt8
  /-- The point without compression. -/
  publicKey : List UInt8
  length_privateKey : privateKey.length = width
  length_publicKey : publicKey.length = 2 * width + 1

/-- The curve P-521. -/
def p521 : List UInt8 := [0x2B, 0x81, 0x04, 0x00, 0x23]

/-- The bytes of an `ECPrivateKey`. -/
def EcPrivateKey.der {width : ℕ} (k : EcPrivateKey width) : List UInt8 :=
  tlv 0x30 (integer 1 ++ tlv 0x04 k.privateKey ++ tlv 0xA0 (tlv 0x06 k.curve) ++
    tlv 0xA1 (tlv 0x03 (0x00 :: k.publicKey)))

theorem EcPrivateKey.length_der_p521 (k : EcPrivateKey 66) (h : k.curve = p521) :
    k.der.length = 223 := by
  have hversion : (integer 1).length = 3 := by decide
  have hprivate : (tlv 0x04 k.privateKey).length = 68 := by
    rw [length_tlv, k.length_privateKey, length_lengthOctets_of_lt (by omega)]
  have hcurve : (tlv 0xA0 (tlv 0x06 k.curve)).length = 9 := by
    rw [h]
    decide
  have hbits : (tlv 0x03 (0x00 :: k.publicKey)).length = 137 := by
    rw [length_tlv, List.length_cons, k.length_publicKey,
      length_lengthOctets_of_le (by omega) (by omega)]
  have hpublic : (tlv 0xA1 (tlv 0x03 (0x00 :: k.publicKey))).length = 140 := by
    rw [length_tlv, hbits, length_lengthOctets_of_le (by omega) (by omega)]
  have hcontent : (integer 1 ++ tlv 0x04 k.privateKey ++ tlv 0xA0 (tlv 0x06 k.curve) ++
      tlv 0xA1 (tlv 0x03 (0x00 :: k.publicKey))).length = 220 := by
    simp only [List.length_append]
    omega
  rw [der, length_tlv, hcontent, length_lengthOctets_of_le (by omega) (by omega)]

end Der
