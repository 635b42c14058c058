import Mathlib.Data.Nat.Bitwise

/-!
# Little-endian numbers

A natural number is written on a fixed number of bytes, the least significant first, and
read back as a sum. Writing keeps the number modulo the width, and reading is injective on
byte strings of one length: a field of a file names its bytes exactly.
-/

set_option autoImplicit false

namespace LittleEndian

/-- The low `k` bytes of a number, the least significant first. -/
def toLE : Nat → Nat → List UInt8
  | 0, _ => []
  | k + 1, n => UInt8.ofNat n :: toLE k (n / 256)

/-- The number that a byte string spells. -/
def ofLE : List UInt8 → Nat
  | [] => 0
  | b :: bs => b.toNat + 256 * ofLE bs

@[simp] theorem length_toLE (k n : Nat) : (toLE k n).length = k := by
  induction k generalizing n with
  | zero => rfl
  | succ k ih => simp [toLE, ih]

@[simp] theorem ofLE_toLE (k n : Nat) : ofLE (toLE k n) = n % 256 ^ k := by
  induction k generalizing n with
  | zero => simp [toLE, ofLE, Nat.mod_one]
  | succ k ih =>
    have hbyte : (UInt8.ofNat n).toNat = n % 256 := by simp
    simp only [toLE, ofLE, ih, hbyte]
    rw [Nat.pow_succ, Nat.mul_comm (256 ^ k) 256, Nat.mod_mul]

theorem ofLE_toLE_of_lt {k n : Nat} (h : n < 256 ^ k) : ofLE (toLE k n) = n := by
  rw [ofLE_toLE, Nat.mod_eq_of_lt h]

/-- A byte string of known length is what its number is written as. -/
theorem toLE_ofLE (bs : List UInt8) : toLE bs.length (ofLE bs) = bs := by
  induction bs with
  | nil => rfl
  | cons b bs ih =>
    have hb := b.toNat_lt
    have hlow : UInt8.ofNat (b.toNat + 256 * ofLE bs) = b := by
      apply UInt8.toNat_inj.mp
      simp only [UInt8.toNat_ofNat']
      omega
    have hhigh : (b.toNat + 256 * ofLE bs) / 256 = ofLE bs := by omega
    simp only [List.length_cons, ofLE, toLE, hlow, hhigh, ih]

theorem ofLE_inj {bs cs : List UInt8} (hlen : bs.length = cs.length) (h : ofLE bs = ofLE cs) :
    bs = cs := by
  rw [← toLE_ofLE bs, ← toLE_ofLE cs, h, hlen]

end LittleEndian
