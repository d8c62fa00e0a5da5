import Mathlib.Algebra.Group.Nat.Defs
import Mathlib.Data.List.Basic

/-!
# Numbers as bytes

The low bytes of a number, the most significant one first, and the number that some bytes spell.
-/

namespace Condor.Lib

open List

/-- The low `k` bytes of a number. -/
def bigEndian : Nat → Nat → List UInt8
  | 0, _ => []
  | k+1, n => bigEndian k (n / 256) ++ [UInt8.ofNat n]

def fromBigEndian (l : List UInt8) : Nat := l.foldl (fun n b => n * 256 + b.toNat) 0

@[simp] theorem length_bigEndian (k n : Nat) : (bigEndian k n).length = k := by
  induction k generalizing n with
  | zero => rfl
  | succ k ih => rw [bigEndian,length_append,ih,length_singleton]

theorem fromBigEndian_append_singleton (l : List UInt8) (b : UInt8) :
    fromBigEndian (l ++ [b]) = fromBigEndian l * 256 + b.toNat := by
  rw [fromBigEndian,foldl_append]
  rfl

theorem fromBigEndian_bigEndian (k n : Nat) : fromBigEndian (bigEndian k n) = n % 256 ^ k := by
  induction k generalizing n with
  | zero => rw [Nat.pow_zero,Nat.mod_one]; rfl
  | succ k ih =>
    have hsplit : n % 256 ^ (k + 1) = n % 256 + 256 * (n / 256 % 256 ^ k) := by
      rw [Nat.pow_succ,Nat.mul_comm,Nat.mod_mul]
    have hlow : (UInt8.ofNat n).toNat = n % 256 := UInt8.toNat_ofNat'
    rw [bigEndian,fromBigEndian_append_singleton,ih,hsplit,hlow]
    omega

theorem bigEndian_eq_iff {k m n : Nat} :
    bigEndian k m = bigEndian k n ↔ m % 256 ^ k = n % 256 ^ k := by
  constructor
  · intro h
    rw [← fromBigEndian_bigEndian,h,fromBigEndian_bigEndian]
  · intro h
    induction k generalizing m n with
    | zero => rfl
    | succ k ih =>
      rw [Nat.pow_succ,Nat.mul_comm,Nat.mod_mul,Nat.mod_mul] at h
      have hlow : m % 256 = n % 256 := by omega
      have hhigh : m / 256 % 256 ^ k = n / 256 % 256 ^ k := by omega
      rw [bigEndian,bigEndian,ih hhigh]
      refine congrArg (fun b => _ ++ [b]) (UInt8.toNat_inj.mp ?_)
      rw [UInt8.toNat_ofNat',UInt8.toNat_ofNat']
      exact hlow

theorem bigEndian_add (j k n : Nat) :
    bigEndian (j + k) n = bigEndian j (n / 256 ^ k) ++ bigEndian k n := by
  induction k generalizing n with
  | zero => rw [Nat.add_zero,Nat.pow_zero,Nat.div_one,bigEndian,append_nil]
  | succ k ih =>
    rw [← Nat.add_assoc,bigEndian,ih,bigEndian,Nat.pow_succ,Nat.mul_comm,Nat.div_div_eq_div_mul,
      append_assoc]

theorem bigEndian_zero (k : Nat) : bigEndian k 0 = List.replicate k 0 := by
  induction k with
  | zero => rfl
  | succ k ih =>
    rw [bigEndian,Nat.zero_div,ih,replicate_succ']
    rfl

end Condor.Lib
