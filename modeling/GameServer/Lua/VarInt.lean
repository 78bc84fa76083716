import GameServer.Lib.Varint
import Mathlib.Data.Nat.Bitwise

/-!
# Integers of variable length

The archives of Lua values write a `uint64_t` seven bits to a byte, the least first. A signed one has its sign at the lowest bit and
its magnitude above; `INT64_MIN` has none in 63 bits and is written as a negative zero.
-/

namespace GameServer.Lua

open GameServer.Lib

/-- The loop of `encode_u64` in a buffer with so much room; it fails where the room is used up. -/
def encode_u64 : Nat → Nat → Option (List UInt8)
  | 0, _ => none
  | room + 1, value =>
    let code := value % 128
    let value := value / 128
    if value > 0 then (encode_u64 room value).map (UInt8.ofNat (code ||| 128) :: ·) else some [UInt8.ofNat code]

/-- The loop of `decode_u64` with the number so far and the bits it has: the number and the data behind it. -/
def decodeLoop (bits number : Nat) : List UInt8 → Option (Nat × List UInt8)
  | [] => none
  | c :: data =>
    if bits > 63 then none
    else
      let code := c.toNat % 128
      let number := number ||| code * 2 ^ bits % 2 ^ 64
      if c.toNat < 128 then some (number, data) else decodeLoop (bits + 7) number data

def decode_u64 (data : List UInt8) : Option (Nat × List UInt8) := decodeLoop 0 0 data

/-- What `encode_s64` makes of a signed value. -/
def signLow (value : Int64) : UInt64 :=
  let uValue := value.toUInt64
  if value < 0 then (~~~(uValue - 1)) <<< 1 ||| 1 else uValue <<< 1

def encode_s64 (room : Nat) (value : Int64) : Option (List UInt8) := encode_u64 room (signLow value).toNat

/-- What `decode_s64` makes of the number. -/
def signHigh (number : UInt64) : Int64 :=
  (if number &&& 1 ≠ 0 then ~~~(number >>> 1) + 1 else number >>> 1).toInt64

def decode_s64 (data : List UInt8) : Option (Int64 × List UInt8) :=
  (decode_u64 data).map fun decoded => (signHigh (UInt64.ofNat decoded.1), decoded.2)

section Unsigned

variable {room n k j number : Nat} {data bytes rest : List UInt8}

theorem or_top (low : n < 128) : n ||| 128 = n + 128 := by
  calc
    n ||| 128 = 2 ^ 7 * 1 ||| n := Nat.or_comm _ _
    _ = 2 ^ 7 * 1 + n := (Nat.two_pow_add_eq_or_of_lt low 1).symm
    _ = n + 128 := by omega

/-- `encode_u64` makes the varint if there is room for it. -/
theorem encode_u64_eq (small : n < 128 ^ (k + 1)) :
    encode_u64 room n = if (encodeVarint k n).length ≤ room then some (encodeVarint k n) else none := by
  induction k generalizing room n with
  | zero =>
    cases room with
    | zero => rfl
    | succ room =>
      have last : ¬n / 128 > 0 := by omega
      simp [encode_u64, encodeVarint, last]
  | succ k ih =>
    cases room with
    | zero =>
      have some' : 0 < (encodeVarint (k + 1) n).length := by
        rw [encodeVarint]
        split_ifs <;> simp
      rw [if_neg (by omega)]
      rfl
    | succ room =>
      rw [encode_u64, encodeVarint]
      by_cases last : n < 128
      · have none' : ¬n / 128 > 0 := by omega
        simp [none', last]
      · have less : n / 128 < 128 ^ (k + 1) := by
          rw [Nat.pow_succ] at small
          omega
        have more : n / 128 > 0 := by omega
        rw [if_pos more, if_neg last, ih less, or_top (Nat.mod_lt n (by decide)), List.length_cons]
        split_ifs <;> first | rfl | omega

theorem or_high {code bits : Nat} (low : number < 2 ^ bits) (small : bits ≤ 64) :
    number ||| code * 2 ^ bits % 2 ^ 64 = number + code * 2 ^ bits % 2 ^ 64 := by
  have parts : 2 ^ 64 = 2 ^ (64 - bits) * 2 ^ bits := by rw [← Nat.pow_add, Nat.sub_add_cancel small]
  rw [parts, Nat.mul_mod_mul_right, Nat.mul_comm, Nat.or_comm, ← Nat.two_pow_add_eq_or_of_lt low, Nat.add_comm]

/-- What is below a power of two stays when the rest is cut off. -/
theorem add_mod_high {a bits : Nat} (low : a < 2 ^ bits) (small : bits ≤ 64) :
    (a + n * 2 ^ bits) % 2 ^ 64 = a + n * 2 ^ bits % 2 ^ 64 := by
  have parts : 2 ^ 64 = 2 ^ (64 - bits) * 2 ^ bits := by rw [← Nat.pow_add, Nat.sub_add_cancel small]
  have less : n % 2 ^ (64 - bits) + 1 ≤ 2 ^ (64 - bits) := Nat.mod_lt n (Nat.two_pow_pos _)
  have fits : a + n * 2 ^ bits % 2 ^ 64 < 2 ^ 64 := by
    rw [parts, Nat.mul_mod_mul_right]
    have := Nat.mul_le_mul_right (2 ^ bits) less
    rw [Nat.add_mul] at this
    omega
  rw [← Nat.add_mod_mod, Nat.mod_eq_of_lt fits]

/-- The loop reads a varint above the bits it has, and drops what is beyond 64 bits. -/
theorem decodeLoop_eq (j : Nat) (sum : j + k = 9) (low : number < 2 ^ (7 * j)) : decodeLoop (7 * j) number data =
    match decodeVarint k data with
    | (some n, rest) => some (number + n * 2 ^ (7 * j) % 2 ^ 64, rest)
    | (none, _) => none := by
  induction k generalizing j number data with
  | zero =>
    obtain rfl : j = 9 := by omega
    cases data with
    | nil => rfl
    | cons c data =>
      rw [decodeLoop, decodeVarint, if_neg (by decide)]
      dsimp only
      by_cases last : c.toNat < 128
      · rw [if_pos last, if_pos last, Nat.mod_eq_of_lt last, or_high low (by decide)]
      · rw [if_neg last, if_neg last]
        cases data <;> rfl
  | succ k ih =>
    have small : ¬7 * j > 63 := by omega
    cases data with
    | nil => rfl
    | cons c data =>
      rw [decodeLoop, decodeVarint, if_neg small]
      dsimp only
      rw [or_high low (by omega)]
      by_cases last : c.toNat < 128
      · rw [if_pos last, if_pos last, Nat.mod_eq_of_lt last]
      · have code : c.toNat % 128 = c.toNat - 128 := by
          have := c.toNat_lt
          omega
        have power : 2 ^ (7 * (j + 1)) = 128 * 2 ^ (7 * j) := by
          rw [Nat.mul_add, Nat.pow_add]
          ring
        have below : c.toNat % 128 * 2 ^ (7 * j) + 2 ^ (7 * j) ≤ 2 ^ (7 * (j + 1)) := by
          have := Nat.mul_le_mul_right (2 ^ (7 * j)) (Nat.mod_lt c.toNat (by decide : 128 > 0))
          rw [Nat.succ_mul] at this
          omega
        have whole : 2 ^ (7 * (j + 1)) ≤ 2 ^ 63 := Nat.pow_le_pow_right (by decide) (by omega)
        have fits : c.toNat % 128 * 2 ^ (7 * j) < 2 ^ 64 := by omega
        rw [if_neg last, if_neg last, Nat.mod_eq_of_lt fits, ← Nat.mul_succ, ih (j + 1) (by omega) (by omega)]
        cases rest : decodeVarint k data with
        | mk value rest' =>
          cases value with
          | none => rfl
          | some n =>
            have high := @add_mod_high n (c.toNat % 128 * 2 ^ (7 * j)) (7 * (j + 1)) (by omega) (by omega)
            have sum : (c.toNat - 128 + 128 * n) * 2 ^ (7 * j) = c.toNat % 128 * 2 ^ (7 * j) + n * 2 ^ (7 * (j + 1)) := by
              rw [power, code]
              ring
            dsimp only
            rw [sum, high, Nat.add_assoc]

theorem decode_u64_eq : decode_u64 data =
    match decodeVarint 9 data with
    | (some n, rest) => some (n % 2 ^ 64, rest)
    | (none, _) => none := by
  have read := @decodeLoop_eq 9 0 data 0 rfl (by decide)
  rw [decode_u64]
  simpa using read

/-- **What `encode_u64` wrote is read back**, whatever follows it. -/
theorem decode_encode_u64 (small : n < 2 ^ 64) (encoded : encode_u64 room n = some bytes) (rest : List UInt8) :
    decode_u64 (bytes ++ rest) = some (n, rest) := by
  have enough : n < 128 ^ (9 + 1) := by omega
  rw [encode_u64_eq enough] at encoded
  split_ifs at encoded
  cases encoded
  rw [decode_u64_eq, decodeVarint_encodeVarint enough]
  dsimp only
  rw [Nat.mod_eq_of_lt small]

theorem length_encode_u64 (encoded : encode_u64 room n = some bytes) : bytes.length ≤ room := by
  induction room generalizing n bytes with
  | zero => cases encoded
  | succ room ih =>
    rw [encode_u64] at encoded
    split_ifs at encoded
    · obtain ⟨more, written, rfl⟩ := Option.map_eq_some_iff.1 encoded
      have := ih written
      rw [List.length_cons]
      omega
    · cases encoded
      rw [List.length_singleton]
      omega

/-- What was read stands in front of what is left, and is read the same in front of anything else. -/
theorem decodeLoop_split {bits : Nat} (read : decodeLoop bits number data = some (n, rest)) :
    ∃ bytes, data = bytes ++ rest ∧ bytes ≠ [] ∧ ∀ tail, decodeLoop bits number (bytes ++ tail) = some (n, tail) := by
  induction data generalizing bits number with
  | nil => cases read
  | cons c data ih =>
    rw [decodeLoop] at read
    dsimp only at read
    split_ifs at read with many last
    · cases read
      refine ⟨[c], rfl, List.cons_ne_nil _ _, fun tail => ?_⟩
      rw [List.singleton_append, decodeLoop, if_neg many]
      exact if_pos last
    · obtain ⟨bytes, rfl, -, others⟩ := ih read
      refine ⟨c :: bytes, rfl, List.cons_ne_nil _ _, fun tail => ?_⟩
      rw [List.cons_append, decodeLoop, if_neg many]
      exact (if_neg last).trans (others tail)

theorem decode_u64_split (read : decode_u64 data = some (n, rest)) :
    ∃ bytes, data = bytes ++ rest ∧ bytes ≠ [] ∧ ∀ tail, decode_u64 (bytes ++ tail) = some (n, tail) :=
  decodeLoop_split read

end Unsigned

section Signed

variable {room : Nat} {value : Int64} {data bytes rest : List UInt8}

theorem lt_zero_iff (value : Int64) : value < 0 ↔ 2 ^ 63 ≤ value.toUInt64.toNat := by
  have small := value.toUInt64.toNat_lt
  have sign : value.toInt = if 2 * value.toUInt64.toNat < 2 ^ 64 then (value.toUInt64.toNat : Int)
      else value.toUInt64.toNat - (2 ^ 64 : Nat) := BitVec.toInt_eq_toNat_cond _
  rw [Int64.lt_iff_toInt_lt, Int64.toInt_zero, sign]
  split_ifs <;> omega

theorem toNat_double (n : UInt64) : (n <<< 1).toNat = 2 * n.toNat % 2 ^ 64 := by
  rw [UInt64.toNat_shiftLeft, UInt64.toNat_one, Nat.shiftLeft_eq, Nat.mul_comm]

theorem signLow_neg (negative : value < 0) (some' : value ≠ Int64.minValue) :
    (signLow value).toNat = 2 * (2 ^ 64 - value.toUInt64.toNat) + 1 ∧ 2 ^ 63 < value.toUInt64.toNat := by
  have small := value.toUInt64.toNat_lt
  have high := (lt_zero_iff value).1 negative
  have other : value.toUInt64.toNat ≠ 2 ^ 63 := by
    intro same
    apply some'
    apply congrArg Int64.ofUInt64
    exact UInt64.toNat_inj.1 same
  refine ⟨?_, by omega⟩
  have less : (value.toUInt64 - 1).toNat = value.toUInt64.toNat - 1 := by
    rw [UInt64.toNat_sub, UInt64.toNat_one]
    omega
  have magnitude : (~~~(value.toUInt64 - 1)).toNat = 2 ^ 64 - value.toUInt64.toNat := by
    rw [UInt64.toNat_not, less, UInt64.size]
    omega
  have shifted : ((~~~(value.toUInt64 - 1)) <<< 1).toNat = 2 ^ 1 * (2 ^ 64 - value.toUInt64.toNat) := by
    rw [toNat_double, magnitude]
    omega
  rw [signLow, if_pos negative, UInt64.toNat_or, shifted, UInt64.toNat_one]
  exact (Nat.two_pow_add_eq_or_of_lt (by decide) _).symm

theorem signLow_nonneg (positive : ¬value < 0) :
    (signLow value).toNat = 2 * value.toUInt64.toNat ∧ value.toUInt64.toNat < 2 ^ 63 := by
  have low := (lt_zero_iff value).not.1 positive
  refine ⟨?_, by omega⟩
  rw [signLow, if_neg positive, toNat_double]
  omega

theorem and_one_ne_zero_iff (n : UInt64) : n &&& 1 ≠ 0 ↔ n.toNat % 2 = 1 := by
  rw [ne_eq, ← UInt64.toNat_inj, UInt64.toNat_and, UInt64.toNat_one, Nat.and_one_is_mod, UInt64.toNat_zero]
  omega

theorem toNat_half (n : UInt64) : (n >>> 1).toNat = n.toNat / 2 := by
  rw [UInt64.toNat_shiftRight, UInt64.toNat_one]
  exact Nat.shiftRight_eq_div_pow _ 1

/-- The sign and the magnitude are taken apart again, but for the least value. -/
theorem signHigh_signLow (some' : value ≠ Int64.minValue) : signHigh (signLow value) = value := by
  apply congrArg Int64.ofUInt64
  apply UInt64.toNat_inj.1
  have small := value.toUInt64.toNat_lt
  by_cases negative : value < 0
  · obtain ⟨low, high⟩ := signLow_neg negative some'
    have odd : signLow value &&& 1 ≠ 0 := by
      rw [and_one_ne_zero_iff, low]
      omega
    rw [if_pos odd, UInt64.toNat_add, UInt64.toNat_not, toNat_half, low, UInt64.size, UInt64.toNat_one]
    omega
  · obtain ⟨low, high⟩ := signLow_nonneg negative
    have even : ¬signLow value &&& 1 ≠ 0 := by
      rw [and_one_ne_zero_iff, low]
      omega
    rw [if_neg even, toNat_half, low]
    omega

theorem signLow_minValue : signHigh (signLow Int64.minValue) = 0 := by decide

/-- **What `encode_s64` wrote is read back**, but for the least value, of which 0 is read. -/
theorem decode_encode_s64 (encoded : encode_s64 room value = some bytes) (rest : List UInt8) :
    decode_s64 (bytes ++ rest) = some (if value = Int64.minValue then 0 else value, rest) := by
  rw [decode_s64, decode_encode_u64 (signLow value).toNat_lt encoded, Option.map_some, UInt64.ofNat_toNat]
  dsimp only
  split_ifs with least
  · rw [least, signLow_minValue]
  · rw [signHigh_signLow least]

theorem decode_s64_split (read : decode_s64 data = some (value, rest)) :
    ∃ bytes, data = bytes ++ rest ∧ bytes ≠ [] ∧ ∀ tail, decode_s64 (bytes ++ tail) = some (value, tail) := by
  obtain ⟨decoded, unsigned, same⟩ := Option.map_eq_some_iff.1 read
  cases same
  obtain ⟨bytes, parts, some', others⟩ := decode_u64_split unsigned
  refine ⟨bytes, parts, some', fun tail => ?_⟩
  rw [decode_s64, others tail, Option.map_some]

end Signed

end GameServer.Lua
