import Mathlib.Algebra.Order.Floor.Div
import IMoviesCA.Pem

/-!
# Reading the PEM text of a private key

`FormatB64` writes full lines of 64 characters and a last one of at most 64, and loses nothing.  So
whoever removes the first and the last line of a text of `ToPem`, joins the lines in between and
decodes them has the bytes that were exported (`pem_lossless`).
-/

namespace IMoviesCA

/-! ## The lines -/

/-- `text` is `s` in these lines of 64 characters.  When `s` has no line feed, they are what stands
between the line feeds of `text`. -/
structure InLines {α : Type} [DecidableEq α] (lineFeed : α) (s text : List α)
    (lines : List (List α)) : Prop where
  text_eq : text = [lineFeed].intercalate lines
  flatten : lines.flatten = s
  full : ∀ line ∈ lines.dropLast, line.length = 64
  last : s ≠ [] → ∃ line, lines.getLast? = some line ∧ 1 ≤ line.length ∧ line.length ≤ 64
  length : s ≠ [] → text.length = s.length + s.length ⌈/⌉ 64 - 1
  removed : lineFeed ∉ s → text.filter (· ≠ lineFeed) = s
  split : lineFeed ∉ s → s ≠ [] → text.splitOn lineFeed = lines

theorem inLines_formatB64 {α : Type} [DecidableEq α] (lineFeed : α) (s : List α) :
    InLines lineFeed s (formatB64 lineFeed s) (Lines.lines 64 s) := by
  have h64 : 0 < 64 := by decide
  refine ⟨formatB64_eq _ _, Lines.flatten_lines h64 s,
    fun _ => Lines.length_of_mem_dropLast_lines h64, Lines.getLast?_lines h64, fun hs => ?_,
    fun hnone => ?_, fun hnone hs => ?_⟩
  · have hpos : 0 < s.length := List.length_pos_iff.2 hs
    rw [length_formatB64, Nat.ceilDiv_eq_add_pred_div]
    omega
  · rw [formatB64_eq]
    exact Lines.filter_intercalate_lines h64 hnone
  · rw [formatB64_eq]
    exact Lines.splitOn_intercalate_lines h64 hnone hs

/-! ## `Convert.FromBase64String` -/

/-- The number of a base64 digit. -/
def base64Value (c : Char) : Option ℕ :=
  if 'A' ≤ c ∧ c ≤ 'Z' then some (c.toNat - 0x41)
  else if 'a' ≤ c ∧ c ≤ 'z' then some (c.toNat - 0x61 + 26)
  else if '0' ≤ c ∧ c ≤ '9' then some (c.toNat - 0x30 + 52)
  else if c = '+' then some 62
  else if c = '/' then some 63
  else none

/-- Four digits are three bytes; the last group may be padded with `=` to fewer bytes. -/
def decodeGroups : List Char → Option (List UInt8)
  | [] => some []
  | a :: b :: c :: d :: rest => do
      let x ← base64Value a
      let y ← base64Value b
      let first := UInt8.ofNat (x * 4 + y / 16)
      if c = '=' ∧ d = '=' ∧ rest = [] then
        return [first]
      let z ← base64Value c
      let second := UInt8.ofNat (y % 16 * 16 + z / 4)
      if d = '=' ∧ rest = [] then
        return [first, second]
      let w ← base64Value d
      let bytes ← decodeGroups rest
      return first :: second :: UInt8.ofNat (z % 4 * 64 + w) :: bytes
  | _ => none

/-- The characters that the decoder skips. -/
def isBase64WhiteSpace (c : Char) : Bool := c = ' ' || c = '\t' || c = '\n' || c = '\r'

/-- `Convert.FromBase64String`: white space is ignored, and any other text than groups of four is
refused. -/
def fromBase64String (s : List Char) : Option (List UInt8) :=
  decodeGroups (s.filter fun c => !isBase64WhiteSpace c)

theorem base64Value_base64Digit {n : ℕ} (h : n < 64) : base64Value (base64Digit n) = some n := by
  have hall : ∀ n < 64, base64Value (base64Digit n) = some n := by decide
  exact hall n h

theorem base64Digit_ne_pad (n : ℕ) : base64Digit n ≠ '=' :=
  base64Digit_spec (p := fun c => c ≠ '=') (by decide) n

section

variable {x y z w : ℕ}

theorem decodeGroups_one (hx : x < 64) (hy : y < 64) :
    decodeGroups [base64Digit x, base64Digit y, '=', '='] = some [UInt8.ofNat (x * 4 + y / 16)] := by
  simp [decodeGroups, base64Value_base64Digit hx, base64Value_base64Digit hy]

theorem decodeGroups_two (hx : x < 64) (hy : y < 64) (hz : z < 64) :
    decodeGroups [base64Digit x, base64Digit y, base64Digit z, '='] =
      some [UInt8.ofNat (x * 4 + y / 16), UInt8.ofNat (y % 16 * 16 + z / 4)] := by
  simp [decodeGroups, base64Value_base64Digit hx, base64Value_base64Digit hy,
    base64Value_base64Digit hz, base64Digit_ne_pad]

theorem decodeGroups_cons (hx : x < 64) (hy : y < 64) (hz : z < 64) (hw : w < 64)
    {rest : List Char} {bytes : List UInt8} (hrest : decodeGroups rest = some bytes) :
    decodeGroups (base64Digit x :: base64Digit y :: base64Digit z :: base64Digit w :: rest) =
      some (UInt8.ofNat (x * 4 + y / 16) :: UInt8.ofNat (y % 16 * 16 + z / 4) ::
        UInt8.ofNat (z % 4 * 64 + w) :: bytes) := by
  simp [decodeGroups, base64Value_base64Digit hx, base64Value_base64Digit hy,
    base64Value_base64Digit hz, base64Value_base64Digit hw, base64Digit_ne_pad, hrest]

end

/-- A byte is read from the bits of its digits. -/
theorem byte_eq {a : UInt8} {n : ℕ} (h : n = a.toNat) : UInt8.ofNat n = a := by
  rw [h, UInt8.ofNat_toNat]

/-- Each group of four digits is read back as the bytes that it was written for. -/
theorem decodeGroups_toBase64String (bytes : List UInt8) :
    decodeGroups (toBase64String bytes) = some bytes := by
  fun_induction toBase64String bytes with
  | case1 => rfl
  | case2 a n =>
    have ha := a.toNat_lt
    rw [decodeGroups_one (by omega) (by omega), byte_eq (a := a) (by omega)]
  | case3 a b n =>
    have ha := a.toNat_lt
    have hb := b.toNat_lt
    rw [decodeGroups_two (by omega) (by omega) (by omega), byte_eq (a := a) (by omega),
      byte_eq (a := b) (by omega)]
  | case4 a b c rest n ih =>
    have ha := a.toNat_lt
    have hb := b.toNat_lt
    have hc := c.toNat_lt
    rw [decodeGroups_cons (by omega) (by omega) (by omega) (by omega) ih,
      byte_eq (a := a) (by omega), byte_eq (a := b) (by omega), byte_eq (a := c) (by omega)]

theorem fromBase64String_toBase64String (bytes : List UInt8) :
    fromBase64String (toBase64String bytes) = some bytes := by
  have hnone := toBase64String_spec (p := fun c => isBase64WhiteSpace c = false) (by decide)
    (by decide) bytes
  have hfilter : (toBase64String bytes).filter (fun c => !isBase64WhiteSpace c) =
      toBase64String bytes := List.filter_eq_self.2 fun c hc => by simp [hnone c hc]
  rw [fromBase64String, hfilter, decodeGroups_toBase64String]

example : fromBase64String "TWE=\n".toList = some [0x4D, 0x61] := by decide

/-! ## The text of a key -/

/-- The first line. -/
def pemHeader (label : String) : List Char := ("-----BEGIN " ++ label ++ "-----").toList

/-- The last line. -/
def pemFooter (label : String) : List Char := ("-----END " ++ label ++ "-----").toList

/-- Remove the header and the footer line, join the lines in between, and decode them. -/
def readPem (label text : String) : Option (List UInt8) :=
  match text.toList.splitOn '\n' with
  | header :: rest =>
      let bodyLength := rest.length - 2
      if header = pemHeader label ∧ rest.drop bodyLength = [pemFooter label, []] then
        fromBase64String (rest.take bodyLength).flatten
      else none
  | [] => none

/-- The label that `ToPem` writes for a key of this algorithm. -/
def pemLabel : EncryptionAlgorithms → String
  | .RSA => "RSA PRIVATE KEY"
  | .ECDSA => "EC PRIVATE KEY"

theorem toPem_eq (key : AsymmetricAlgorithm) (exported : List UInt8) :
    toPem key exported = pem (pemLabel key.alg) exported := by
  unfold toPem
  cases key.alg <;> rfl

theorem toList_pem (label : String) (exported : List UInt8) :
    (pem label exported).toList = pemHeader label ++ '\n' ::
      (formatB64 '\n' (toBase64String exported) ++ '\n' :: (pemFooter label ++ '\n' :: [])) := by
  have hheader : "-----\n".toList = "-----".toList ++ ['\n'] := by decide
  have hfooter : "\n-----END ".toList = '\n' :: "-----END ".toList := by decide
  unfold pem pemHeader pemFooter
  simp only [String.toList_append, String.toList_ofList, hheader, hfooter, List.append_assoc,
    List.cons_append, List.nil_append]

/-- A text consists of its header, the lines of the body, its footer, and nothing after that. -/
theorem splitOn_pem {label : String} (hheader : '\n' ∉ pemHeader label)
    (hfooter : '\n' ∉ pemFooter label) (exported : List UInt8) :
    (pem label exported).toList.splitOn '\n' = pemHeader label ::
      ((formatB64 '\n' (toBase64String exported)).splitOn '\n' ++ [pemFooter label, []]) := by
  rw [toList_pem, List.splitOn_append_cons_self_of_not_mem hheader, List.splitOn_append_cons_self,
    List.splitOn_append_cons_self_of_not_mem hfooter]
  rfl

theorem readPem_pem {label : String} (hheader : '\n' ∉ pemHeader label)
    (hfooter : '\n' ∉ pemFooter label) (exported : List UInt8) :
    readPem label (pem label exported) = some exported := by
  have hnone : '\n' ∉ toBase64String exported := by
    intro hmem
    exact toBase64String_spec (p := fun c => c ≠ '\n') (by decide) (by decide) exported _ hmem rfl
  have hbody : ((formatB64 '\n' (toBase64String exported)).splitOn '\n').flatten =
      toBase64String exported := by
    rw [Lines.flatten_splitOn]
    exact (inLines_formatB64 '\n' (toBase64String exported)).removed hnone
  unfold readPem
  rw [splitOn_pem hheader hfooter]
  simp [hbody, fromBase64String_toBase64String]

/-- `FormatB64` cuts every string into lines of 64 characters and loses none of them, and the lines of
every key that `ToPem` writes are read back as the bytes that were exported. -/
theorem pem_lossless :
    (∀ (α : Type) [DecidableEq α] (lineFeed : α) (s : List α),
      ∃ lines, InLines lineFeed s (formatB64 lineFeed s) lines) ∧
    ∀ (key : AsymmetricAlgorithm) (exported : List UInt8),
      readPem (pemLabel key.alg) (toPem key exported) = some exported := by
  refine ⟨fun α _ lineFeed s => ⟨_, inLines_formatB64 lineFeed s⟩, fun key exported => ?_⟩
  rw [toPem_eq]
  cases key.alg with
  | RSA => exact readPem_pem (by decide) (by decide) exported
  | ECDSA => exact readPem_pem (by decide) (by decide) exported

end IMoviesCA
