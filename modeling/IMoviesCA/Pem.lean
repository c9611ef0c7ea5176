import IMoviesCA.Lib.Lines
import IMoviesCA.DataModel

/-!
# The PEM text of a private key

`Convert.ToBase64String` and the formatting of `CryptographyExtension`, and how long the text of a
key is (`netLength_pem`).
-/

namespace IMoviesCA

/-- The base64 digit of a number below 64. -/
def base64Digit (n : ℕ) : Char :=
  if n < 26 then Char.ofNat (0x41 + n)
  else if n < 52 then Char.ofNat (0x61 + (n - 26))
  else if n < 62 then Char.ofNat (0x30 + (n - 52))
  else if n = 62 then '+' else '/'

/-- `Convert.ToBase64String`: four digits for three bytes, with `=` in place of missing bytes. -/
def toBase64String : List UInt8 → List Char
  | [] => []
  | [a] =>
      let n := a.toNat * 65536
      [base64Digit (n / 262144), base64Digit (n / 4096 % 64), '=', '=']
  | [a, b] =>
      let n := a.toNat * 65536 + b.toNat * 256
      [base64Digit (n / 262144), base64Digit (n / 4096 % 64), base64Digit (n / 64 % 64), '=']
  | a :: b :: c :: rest =>
      let n := a.toNat * 65536 + b.toNat * 256 + c.toNat
      base64Digit (n / 262144) :: base64Digit (n / 4096 % 64) :: base64Digit (n / 64 % 64) ::
        base64Digit (n % 64) :: toBase64String rest

/-- `FormatB64`: the string in lines of 64 characters.  It looks at no character of the string, so
they may be of any type: a string of .NET is a list of UTF-16 code units. -/
def formatB64 {α : Type} (lineFeed : α) (b64str : List α) : List α :=
  let lineLength := 64
  let partsNr := (b64str.length + lineLength - 1) / lineLength
  [lineFeed].intercalate
    ((List.range partsNr).map fun i => (b64str.drop (i * lineLength)).take lineLength)

/-- `ToPem`, for the label of the key's format and its exported bytes. -/
def pem (label : String) (exported : List UInt8) : String :=
  "-----BEGIN " ++ label ++ "-----\n" ++ String.ofList (formatB64 '\n' (toBase64String exported)) ++
    "\n-----END " ++ label ++ "-----\n"

/-- `ToPem` of an RSA or an EC key, whose exported bytes are `ExportRSAPrivateKey()` or
`ExportECPrivateKey()`. -/
def toPem (key : AsymmetricAlgorithm) (exported : List UInt8) : String :=
  match key.alg with
  | .RSA => pem "RSA PRIVATE KEY" exported
  | .ECDSA => pem "EC PRIVATE KEY" exported

/-! ## Lengths -/

theorem length_toBase64String (bytes : List UInt8) :
    (toBase64String bytes).length = 4 * ((bytes.length + 2) / 3) := by
  fun_induction toBase64String bytes with
  | case1 => rfl
  | case2 a n => simp only [List.length_cons, List.length_nil]
  | case3 a b n => simp only [List.length_cons, List.length_nil]
  | case4 a b c rest n ih =>
    simp only [List.length_cons, ih]
    omega

/-- What holds of the 64 digits holds of every digit that is written. -/
theorem base64Digit_spec {p : Char → Prop} (h : ∀ n < 64, p (base64Digit n)) (n : ℕ) :
    p (base64Digit n) := by
  by_cases hn : n < 64
  · exact h n hn
  · have hlast : base64Digit n = base64Digit 63 := by
      unfold base64Digit
      rw [if_neg (by omega), if_neg (by omega), if_neg (by omega), if_neg (by omega)]
      rfl
    rw [hlast]
    exact h 63 (by omega)

/-- What holds of the digits and of the padding holds of every character of the text. -/
theorem toBase64String_spec {p : Char → Prop} (h : ∀ n < 64, p (base64Digit n)) (hpad : p '=')
    (bytes : List UInt8) : ∀ c ∈ toBase64String bytes, p c := by
  have hdigit := base64Digit_spec h
  fun_induction toBase64String bytes with
  | case1 => exact List.forall_mem_nil _
  | case2 a n =>
    simp only [List.forall_mem_cons]
    exact ⟨hdigit _, hdigit _, hpad, hpad, List.forall_mem_nil _⟩
  | case3 a b n =>
    simp only [List.forall_mem_cons]
    exact ⟨hdigit _, hdigit _, hdigit _, hpad, List.forall_mem_nil _⟩
  | case4 a b c rest n ih =>
    simp only [List.forall_mem_cons]
    exact ⟨hdigit _, hdigit _, hdigit _, hdigit _, ih⟩

theorem toBase64String_lt (bytes : List UInt8) : ∀ c ∈ toBase64String bytes, c.toNat < 0x80 :=
  toBase64String_spec (p := fun c => c.toNat < 0x80) (by decide) (by decide) bytes

section

variable {α : Type} (lineFeed : α) (b64str : List α)

theorem formatB64_eq :
    formatB64 lineFeed b64str = [lineFeed].intercalate (Lines.lines 64 b64str) := rfl

theorem length_formatB64 :
    (formatB64 lineFeed b64str).length = b64str.length + ((b64str.length + 63) / 64 - 1) := by
  rw [formatB64_eq, Lines.length_intercalate_lines (by omega)]
  rfl

end

theorem formatB64_lt {b64str : List Char} (h : ∀ c ∈ b64str, c.toNat < 0x80) :
    ∀ c ∈ formatB64 '\n' b64str, c.toNat < 0x80 := by
  intro c hc
  rw [formatB64_eq] at hc
  rcases Lines.mem_of_mem_intercalate hc with rfl | ⟨l, hl, hc⟩
  · decide
  · apply h
    rw [← Lines.flatten_lines (show 0 < 64 by omega) b64str]
    exact List.mem_flatten.2 ⟨l, hl, hc⟩

theorem netLength_append (s s' : String) : netLength (s ++ s') = netLength s + netLength s' := by
  simp [netLength]

theorem netLength_ofList {cs : List Char} (h : ∀ c ∈ cs, c.toNat < 0x80) :
    netLength (String.ofList cs) = cs.length := by
  unfold netLength
  rw [String.toList_ofList]
  induction cs with
  | nil => rfl
  | cons c cs ih =>
    have hc : c.toNat < 0x10000 := by
      have := h c List.mem_cons_self
      omega
    rw [List.map_cons, List.sum_cons, if_pos hc, ih fun d hd => h d (List.mem_cons_of_mem _ hd),
      List.length_cons]
    omega

/-- The length of the text of a key: base64 in lines of 64 characters between two headers. -/
theorem netLength_pem (label : String) (exported : List UInt8) :
    netLength (pem label exported) = 2 * netLength label + 33 + 4 * ((exported.length + 2) / 3) +
      ((4 * ((exported.length + 2) / 3) + 63) / 64 - 1) := by
  have hbegin : netLength "-----BEGIN " = 11 := by decide
  have hend : netLength "\n-----END " = 10 := by decide
  have hclose : netLength "-----\n" = 6 := by decide
  have hbody := netLength_ofList (formatB64_lt (toBase64String_lt exported))
  rw [length_formatB64, length_toBase64String] at hbody
  unfold pem
  rw [netLength_append, netLength_append, netLength_append, netLength_append, netLength_append,
    netLength_append, hbegin, hend, hclose, hbody]
  omega

end IMoviesCA
