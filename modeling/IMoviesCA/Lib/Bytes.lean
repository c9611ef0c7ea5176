import Mathlib.Data.Int.Notation
import Mathlib.Tactic.Common
import Mathlib.Tactic.Ring
import Mathlib.Tactic.Linarith

/-!
# Integers as byte strings

`littleEndian len n` writes the low `len` bytes of `n`, least significant first.  A byte string is
read most significant byte first, as an unsigned integer (`unsigned`) or in two's complement
(`signed`).  The two readings of the same string agree exactly while its top bit is clear.
-/

namespace Bytes

/-- The low `len` bytes of `n`, least significant first. -/
def littleEndian : ℕ → ℕ → List UInt8
  | 0, _ => []
  | len + 1, n => UInt8.ofNat (n % 256) :: littleEndian len (n / 256)

/-- The unsigned integer of a byte string, most significant byte first. -/
def unsigned (bs : List UInt8) : ℕ := bs.foldl (fun n b => 256 * n + b.toNat) 0

/-- The two's complement integer of a byte string, most significant byte first. -/
def signed (bs : List UInt8) : ℤ :=
  if 2 * unsigned bs < 256 ^ bs.length then unsigned bs else (unsigned bs : ℤ) - 256 ^ bs.length

@[simp] theorem length_littleEndian (len n : ℕ) : (littleEndian len n).length = len := by
  induction len generalizing n with
  | zero => rfl
  | succ len ih => rw [littleEndian, List.length_cons, ih]

theorem unsigned_append_singleton (bs : List UInt8) (b : UInt8) :
    unsigned (bs ++ [b]) = 256 * unsigned bs + b.toNat := by
  simp [unsigned]

/-- Written in `len` bytes and read back, an integer keeps its remainder modulo `256 ^ len`. -/
theorem unsigned_reverse_littleEndian (len n : ℕ) :
    unsigned (littleEndian len n).reverse = n % 256 ^ len := by
  induction len generalizing n with
  | zero => rw [pow_zero, Nat.mod_one]; rfl
  | succ len ih =>
    have hbyte : (UInt8.ofNat (n % 256)).toNat = n % 256 := by
      rw [UInt8.toNat_ofNat']
      omega
    rw [littleEndian, List.reverse_cons, unsigned_append_singleton, ih, hbyte, pow_succ,
      Nat.mul_comm (256 ^ len), Nat.mod_mul, Nat.add_comm]

/-- The two readings agree exactly on the byte strings whose top bit is clear. -/
theorem signed_eq_unsigned_iff (bs : List UInt8) :
    signed bs = unsigned bs ↔ 2 * unsigned bs < 256 ^ bs.length := by
  unfold signed
  split_ifs with h
  · simp [h]
  · have : (0 : ℤ) < 256 ^ bs.length := by positivity
    constructor
    · intro heq
      omega
    · intro hlt
      exact absurd hlt h

/-- A string whose top bit is set and that does not overflow its length is read as a negative
integer. -/
theorem signed_neg {bs : List UInt8} (h : ¬ 2 * unsigned bs < 256 ^ bs.length)
    (hlt : unsigned bs < 256 ^ bs.length) : signed bs < 0 := by
  rw [signed, if_neg h]
  have : (unsigned bs : ℤ) < 256 ^ bs.length := by exact_mod_cast hlt
  omega

end Bytes
