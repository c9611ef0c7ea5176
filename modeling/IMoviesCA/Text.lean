import Mathlib.Algebra.Ring.Nat
import Mathlib.Data.List.Infix
import Mathlib.Tactic.Common

/-!
# Strings as .NET sees them

The parts of `System.String`, `System.Char`, `System.Text.Encoding`, `BitConverter` and
`System.ComponentModel.DataAnnotations` that the two servers use.
-/

namespace IMoviesCA

/-- `string.Length`: the number of UTF-16 code units. -/
def netLength (s : String) : ℕ := (s.toList.map fun c => if c.toNat < 0x10000 then 1 else 2).sum

/-- `char.IsWhiteSpace`. -/
def isWhiteSpace (c : Char) : Bool :=
  let n := c.toNat
  (0x9 ≤ n && n ≤ 0xD) || n == 0x20 || n == 0x85 || n == 0xA0 || n == 0x1680 ||
    (0x2000 ≤ n && n ≤ 0x200A) || n == 0x2028 || n == 0x2029 || n == 0x202F || n == 0x205F ||
    n == 0x3000

/-- `char.IsControl`. -/
def isControl (c : Char) : Bool := c.toNat < 0x20 || (0x7F ≤ c.toNat && c.toNat ≤ 0x9F)

/-- `Encoding.ASCII.GetBytes`: a character above 127 becomes one `?` for each code unit. -/
def asciiGetBytes (s : String) : List UInt8 :=
  s.toList.flatMap fun c =>
    if c.toNat < 0x80 then [UInt8.ofNat c.toNat]
    else if c.toNat < 0x10000 then [0x3F] else [0x3F, 0x3F]

/-- `Encoding.UTF8.GetBytes`. -/
def utf8GetBytes (s : String) : List UInt8 := s.toList.flatMap String.utf8EncodeChar

/-- The two lower-case hexadecimal digits of a byte. -/
def hexByte (b : UInt8) : List Char :=
  let digit (n : ℕ) : Char := Char.ofNat (if n < 10 then 0x30 + n else 0x61 + (n - 10))
  [digit (b.toNat / 16), digit (b.toNat % 16)]

/-- `BitConverter.ToString(bytes).Replace("-","").ToLower()`. -/
def hexLower (bytes : List UInt8) : String := String.ofList (bytes.flatMap hexByte)

/-- `AppendFormat("{0:x2}", b)` for each byte. -/
def appendFormatX2 (bytes : List UInt8) : String :=
  bytes.foldl (fun sb b => sb ++ String.ofList (hexByte b)) ""

/-- `[Required]`: neither empty nor only white space. -/
def required (s : String) : Bool := s.toList.any fun c => !isWhiteSpace c

/-- `[StringLength(max, MinimumLength = min)]`. -/
def stringLength (max min : ℕ) (s : String) : Bool := min ≤ netLength s && netLength s ≤ max

/-- `[EmailAddress]`: exactly one `@`, which is neither first nor last. -/
def emailAddress (s : String) : Bool :=
  s.toList.count '@' == 1 && s.toList.head? != some '@' && s.toList.getLast? != some '@'

end IMoviesCA
