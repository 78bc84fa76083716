import Mathlib.Data.List.Basic
import Mathlib.Tactic.Ring

/-!
# Base 128 varints

Seven bits to a byte, the least first; every byte but the last has its top bit set.
-/

namespace GameServer.Lib

/-- A number in so many bytes and one more at most. -/
def encodeVarint : Nat → Nat → List UInt8
  | 0, n => [UInt8.ofNat (n % 128)]
  | k + 1, n => if n < 128 then [UInt8.ofNat (n % 128)] else UInt8.ofNat (n % 128 + 128) :: encodeVarint k (n / 128)

/-- The number and the rest, if the number ends in so many bytes and one more. -/
def decodeVarint : Nat → List UInt8 → Option Nat × List UInt8
  | _, [] => (none, [])
  | k, c :: cs =>
    if c.toNat < 128 then (some c.toNat, cs)
    else
      match k with
      | 0 => (none, cs)
      | k + 1 =>
        match decodeVarint k cs with
        | (some n, rest) => (some (c.toNat - 128 + 128 * n), rest)
        | (none, rest) => (none, rest)

theorem decodeVarint_encodeVarint {k n : Nat} (enough : n < 128 ^ (k + 1)) (tail : List UInt8) :
    decodeVarint k (encodeVarint k n ++ tail) = (some n, tail) := by
  have low : (UInt8.ofNat (n % 128)).toNat = n % 128 := by
    rw [UInt8.toNat_ofNat']
    omega
  have high : (UInt8.ofNat (n % 128 + 128)).toNat = n % 128 + 128 := by
    rw [UInt8.toNat_ofNat']
    omega
  induction k generalizing n with
  | zero =>
    rw [encodeVarint, List.singleton_append, decodeVarint, if_pos (by omega), low, Nat.mod_eq_of_lt (by omega)]
  | succ k ih =>
    rw [encodeVarint]
    split_ifs with small
    · rw [List.singleton_append, decodeVarint, if_pos (by omega), low, Nat.mod_eq_of_lt small]
    · have less : n / 128 < 128 ^ (k + 1) := by
        rw [Nat.pow_succ] at enough
        omega
      have rest := ih less (by rw [UInt8.toNat_ofNat']; omega) (by rw [UInt8.toNat_ofNat']; omega)
      rw [List.cons_append, decodeVarint, if_neg (by omega)]
      simp only [rest]
      rw [high]
      congr 2
      omega

end GameServer.Lib
