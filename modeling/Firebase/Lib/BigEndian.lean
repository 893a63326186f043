import Mathlib.Data.Nat.Bitwise
import Mathlib.Tactic.Ring
import Firebase.Lib.OrderCode

/-!
# Big-endian words of bytes

`bigEndian n m` is the `n`-byte big-endian word of `m` (of `m` modulo `256 ^ n` when `m` does not
fit).  The fixed-width integer types are given the linear orders that comparisons of words refer to.
-/

namespace Firebase.Lib

/-! ## Linear orders on fixed-width integers -/

instance instLinearOrderUInt8 : LinearOrder UInt8 where
  le_refl a := UInt8.le_refl a
  le_trans _ _ _ := UInt8.le_trans
  le_antisymm _ _ := UInt8.le_antisymm
  le_total := UInt8.le_total
  lt_iff_le_not_ge a b := by
    rw [UInt8.lt_iff_toNat_lt, UInt8.le_iff_toNat_le, UInt8.le_iff_toNat_le]
    omega
  toDecidableLE := inferInstance
  toDecidableEq := inferInstance
  toDecidableLT := inferInstance

instance instLinearOrderInt32 : LinearOrder Int32 where
  le_refl a := Int32.le_refl a
  le_trans _ _ _ := Int32.le_trans
  le_antisymm _ _ := Int32.le_antisymm
  le_total := Int32.le_total
  lt_iff_le_not_ge a b := by
    rw [Int32.lt_iff_toInt_lt, Int32.le_iff_toInt_le, Int32.le_iff_toInt_le]
    omega
  toDecidableLE := inferInstance
  toDecidableEq := inferInstance
  toDecidableLT := inferInstance

instance instLinearOrderInt64 : LinearOrder Int64 where
  le_refl a := Int64.le_refl a
  le_trans _ _ _ := Int64.le_trans
  le_antisymm _ _ := Int64.le_antisymm
  le_total := Int64.le_total
  lt_iff_le_not_ge a b := by
    rw [Int64.lt_iff_toInt_lt, Int64.le_iff_toInt_le, Int64.le_iff_toInt_le]
    omega
  toDecidableLE := inferInstance
  toDecidableEq := inferInstance
  toDecidableLT := inferInstance

/-! ## Words -/

/-- The `n`-byte big-endian word of `m`. -/
def bigEndian : Nat → Nat → List UInt8
  | 0, _ => []
  | n + 1, m => UInt8.ofNat (m / 256 ^ n) :: bigEndian n m

@[simp] theorem bigEndian_zero (m : Nat) : bigEndian 0 m = [] := rfl

theorem bigEndian_succ (n m : Nat) :
    bigEndian (n + 1) m = UInt8.ofNat (m / 256 ^ n) :: bigEndian n m := rfl

@[simp] theorem length_bigEndian (n m : Nat) : (bigEndian n m).length = n := by
  induction n with
  | zero => rfl
  | succ n ih => simp [bigEndian_succ, ih]

/-- Dropping leading bytes keeps the low-order part of the word. -/
theorem drop_bigEndian (k n m : Nat) : (bigEndian (k + n) m).drop k = bigEndian n m := by
  induction k with
  | zero => simp
  | succ k ih => rw [show k + 1 + n = k + n + 1 by omega, bigEndian_succ, List.drop_succ_cons, ih]

theorem ofNat_eq_of_mod_eq {a b : Nat} (h : a % 256 = b % 256) : UInt8.ofNat a = UInt8.ofNat b := by
  apply UInt8.toNat_inj.mp
  simpa using h

/-- The word only depends on the number modulo `256 ^ n`. -/
theorem bigEndian_congr {n a b : Nat} (h : a % 256 ^ n = b % 256 ^ n) :
    bigEndian n a = bigEndian n b := by
  induction n with
  | zero => rfl
  | succ n ih =>
    have hlow : a % 256 ^ n = b % 256 ^ n := by
      have hd : 256 ^ n ∣ 256 ^ (n + 1) := pow_dvd_pow _ (Nat.le_succ n)
      rw [← Nat.mod_mod_of_dvd a hd, h, Nat.mod_mod_of_dvd b hd]
    rw [bigEndian_succ, ih hlow]
    congr 1
    apply ofNat_eq_of_mod_eq
    rw [pow_succ] at h
    rw [← Nat.mod_mul_right_div_self a, ← Nat.mod_mul_right_div_self b, h]

/-- Numbers that fit compare as their words. -/
theorem bigEndian_below {n a b : Nat} (hb : b < 256 ^ n) (hab : a < b) :
    Below (bigEndian n a) (bigEndian n b) := by
  induction n generalizing a b with
  | zero => simp at hb; omega
  | succ n ih =>
    have hpos : 0 < 256 ^ n := Nat.pow_pos (by decide)
    have hb' : b / 256 ^ n < 256 := by
      rw [Nat.div_lt_iff_lt_mul hpos]
      rwa [pow_succ, mul_comm] at hb
    have hle : a / 256 ^ n ≤ b / 256 ^ n := Nat.div_le_div_right hab.le
    rw [bigEndian_succ]
    rcases hle.lt_or_eq with hlt | heq
    · apply Below.head
      rw [UInt8.lt_iff_toNat_lt, UInt8.toNat_ofNat', UInt8.toNat_ofNat',
        Nat.mod_eq_of_lt hb', Nat.mod_eq_of_lt (hlt.trans hb')]
      exact hlt
    · rw [heq]
      apply Below.tail
      have hmod : a % 256 ^ n < b % 256 ^ n := by
        have h₁ := Nat.div_add_mod a (256 ^ n)
        have h₂ := Nat.div_add_mod b (256 ^ n)
        rw [heq] at h₁
        omega
      have hlow := ih (Nat.mod_lt b hpos) hmod
      rwa [bigEndian_congr (Nat.mod_mod a _), bigEndian_congr (Nat.mod_mod b _)] at hlow

/-- The exclusive or of two words is the word of the exclusive or. -/
theorem bigEndian_xor (n a b : Nat) :
    bigEndian n (a ^^^ b) = List.zipWith (· ^^^ ·) (bigEndian n a) (bigEndian n b) := by
  induction n with
  | zero => rfl
  | succ n ih =>
    rw [bigEndian_succ, bigEndian_succ, bigEndian_succ, ih]
    congr 1
    apply UInt8.toNat_inj.mp
    rw [UInt8.toNat_xor, UInt8.toNat_ofNat', UInt8.toNat_ofNat', UInt8.toNat_ofNat']
    rw [show 256 ^ n = 2 ^ (8 * n) by rw [pow_mul]; rfl]
    rw [← Nat.shiftRight_eq_div_pow, ← Nat.shiftRight_eq_div_pow, ← Nat.shiftRight_eq_div_pow,
      Nat.shiftRight_xor_distrib, Nat.xor_mod_two_pow]

/-- A word in front of the word of a low-order part. -/
theorem bigEndian_add (k n m : Nat) :
    bigEndian (k + n) m = bigEndian k (m / 256 ^ n) ++ bigEndian n m := by
  induction k with
  | zero => simp
  | succ k ih =>
    rw [show k + 1 + n = k + n + 1 by omega, bigEndian_succ, bigEndian_succ, ih,
      Nat.div_div_eq_div_mul, ← pow_add, Nat.add_comm n k, List.cons_append]

/-! ## Reading words back -/

theorem foldl_bigEndian (n x m : Nat) :
    (bigEndian n m).foldl (fun x b => x * 256 + b.toNat) x = x * 256 ^ n + m % 256 ^ n := by
  induction n generalizing x with
  | zero => simp [Nat.mod_one]
  | succ n ih =>
    rw [bigEndian_succ, List.foldl_cons, ih, UInt8.toNat_ofNat']
    have h : m % 256 ^ (n + 1) = 256 ^ n * (m / 256 ^ n % 256) + m % 256 ^ n := by
      rw [pow_succ, Nat.mod_mul, Nat.add_comm]
    rw [h]
    ring

/-- Bits below a multiple of a power of two do not take part in an exclusive or
with another multiple of it. -/
theorem xor_mul_two_pow_add {i a b c : Nat} (hb : b < 2 ^ i) :
    (2 ^ i * a + b) ^^^ (2 ^ i * c) = 2 ^ i * (a ^^^ c) + b := by
  apply Nat.eq_of_testBit_eq
  intro j
  rw [Nat.testBit_xor, Nat.testBit_two_pow_mul_add a hb, Nat.testBit_two_pow_mul,
    Nat.testBit_two_pow_mul_add _ hb]
  by_cases hj : j < i
  · simp [hj, Nat.not_le_of_lt hj]
  · simp [hj, Nat.le_of_not_lt hj]

end Firebase.Lib
