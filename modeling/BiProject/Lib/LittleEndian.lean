import Mathlib.Algebra.Group.Nat.Defs
import Mathlib.Data.List.Basic

/-!
# Numbers as bytes, the lowest first
-/

namespace BiProject.Lib
set_option autoImplicit false

/-- The lowest `k` bytes of a number. -/
def leBytes : Nat → Nat → List UInt8
  | 0, _ => []
  | k + 1, x => UInt8.ofNat x :: leBytes k (x / 256)

def leNat : List UInt8 → Nat
  | [] => 0
  | b :: bs => b.toNat + 256 * leNat bs

@[simp] theorem length_leBytes (k x : Nat) : (leBytes k x).length = k := by
  induction k generalizing x with
  | zero => rfl
  | succ k ih => rw [leBytes, List.length_cons, ih]

theorem leNat_leBytes {k x : Nat} (fits : x < 256 ^ k) : leNat (leBytes k x) = x := by
  induction k generalizing x with
  | zero =>
    rw [Nat.pow_zero] at fits
    rw [leBytes, leNat]
    omega
  | succ k ih =>
    rw [Nat.pow_succ] at fits
    have byte : (UInt8.ofNat x).toNat = x % 256 := UInt8.toNat_ofNat'
    rw [leBytes, leNat, ih (by omega), byte]
    omega

end BiProject.Lib
