import Mathlib.Data.List.Basic
import Mathlib.Algebra.Order.Group.Int
import Mathlib.Tactic.Ring

/-!
# Decimal numbers as text

`intText` is what `"%d"` prints, and `readInt` what `atoi` and `atoll` read: blanks, a sign and digits,
with the nearest number of the type for one out of its range.
-/

namespace GameServer.Lib

def isspace (c : UInt8) : Bool := c = 32 || (9 ≤ c && c ≤ 13)

def isdigit (c : UInt8) : Bool := 48 ≤ c && c ≤ 57

/-- The number that decimal digits write. -/
def decimal (digits : List UInt8) : Nat := digits.foldl (fun n c => 10 * n + (c.toNat - 48)) 0

def readInt (low high : Int) (s : List UInt8) : Int :=
  match s.dropWhile isspace with
  | 45 :: s => max low (-(decimal (s.takeWhile isdigit) : Int))
  | 43 :: s => min high (decimal (s.takeWhile isdigit))
  | s => min high (decimal (s.takeWhile isdigit))

/-- The digits of a number, in so many places and one more at most. -/
def decimalDigits : Nat → Nat → List UInt8
  | 0, n => [UInt8.ofNat (48 + n % 10)]
  | k + 1, n => if n < 10 then [UInt8.ofNat (48 + n % 10)] else decimalDigits k (n / 10) ++ [UInt8.ofNat (48 + n % 10)]

def natText (n : Nat) : List UInt8 := decimalDigits n n

def intText (n : Int) : List UInt8 := if n < 0 then 45 :: natText n.natAbs else natText n.natAbs

section Digits

variable {k n : Nat} {c : UInt8} {digits : List UInt8}

theorem isdigit_iff : isdigit c ↔ 48 ≤ c.toNat ∧ c.toNat ≤ 57 := by
  simp only [isdigit, Bool.and_eq_true, decide_eq_true_eq, UInt8.le_iff_toNat_le]
  exact Iff.rfl

theorem not_isspace_of_isdigit (digit : isdigit c) : isspace c = false ∧ c ≠ 45 ∧ c ≠ 43 := by
  obtain ⟨low, high⟩ := isdigit_iff.1 digit
  refine ⟨?_, ?_, ?_⟩
  · simp only [isspace, Bool.or_eq_false_iff, Bool.and_eq_false_iff, decide_eq_false_iff_not, UInt8.le_iff_toNat_le]
    refine ⟨?_, .inr ?_⟩
    · rintro rfl
      exact absurd low (by decide)
    · have : (13 : UInt8).toNat = 13 := rfl
      omega
  · rintro rfl
    exact absurd low (by decide)
  · rintro rfl
    exact absurd low (by decide)

theorem toNat_digit : (UInt8.ofNat (48 + n % 10)).toNat = 48 + n % 10 := by
  rw [UInt8.toNat_ofNat']
  omega

theorem decimal_append (digits : List UInt8) (c : UInt8) : decimal (digits ++ [c]) = 10 * decimal digits + (c.toNat - 48) := by
  rw [decimal, List.foldl_append]
  rfl

theorem isdigit_decimalDigits : ∀ c ∈ decimalDigits k n, isdigit c := by
  have last : ∀ m, isdigit (UInt8.ofNat (48 + m % 10)) := by
    intro m
    rw [isdigit_iff, toNat_digit]
    omega
  induction k generalizing n with
  | zero =>
    intro c mem
    obtain rfl := List.mem_singleton.1 mem
    exact last n
  | succ k ih =>
    intro c mem
    rw [decimalDigits] at mem
    split_ifs at mem
    · obtain rfl := List.mem_singleton.1 mem
      exact last n
    · rcases List.mem_append.1 mem with mem | mem
      · exact ih c mem
      · obtain rfl := List.mem_singleton.1 mem
        exact last n

theorem decimalDigits_ne_nil : decimalDigits k n ≠ [] := by
  cases k with
  | zero => exact List.cons_ne_nil _ _
  | succ k =>
    rw [decimalDigits]
    split_ifs <;> simp

theorem decimal_decimalDigits (enough : n < 10 ^ (k + 1)) : decimal (decimalDigits k n) = n := by
  induction k generalizing n with
  | zero =>
    show 10 * 0 + ((UInt8.ofNat (48 + n % 10)).toNat - 48) = n
    rw [toNat_digit]
    omega
  | succ k ih =>
    rw [decimalDigits]
    split_ifs with small
    · show 10 * 0 + ((UInt8.ofNat (48 + n % 10)).toNat - 48) = n
      rw [toNat_digit]
      omega
    · have less : n / 10 < 10 ^ (k + 1) := by
        rw [Nat.pow_succ] at enough
        omega
      rw [decimal_append, ih less, toNat_digit]
      omega

theorem decimal_natText (n : Nat) : decimal (natText n) = n := by
  apply decimal_decimalDigits
  have := Nat.lt_pow_self (n := n) (a := 10) (by decide)
  rw [Nat.pow_succ]
  omega

theorem takeWhile_isdigit (all : ∀ c ∈ digits, isdigit c) : digits.takeWhile isdigit = digits := by
  have whole : (digits ++ []).takeWhile isdigit = digits ++ [].takeWhile isdigit := List.takeWhile_append_of_pos all
  rw [List.append_nil, List.takeWhile_nil, List.append_nil] at whole
  exact whole

/-- A text of digits is the number they write, if it is in range. -/
theorem readInt_digits {low high : Int} (some' : digits ≠ []) (all : ∀ c ∈ digits, isdigit c) :
    readInt low high digits = min high (decimal digits) := by
  have taken := takeWhile_isdigit all
  obtain ⟨d, ds, rfl⟩ := List.exists_cons_of_ne_nil some'
  obtain ⟨space, minus, plus⟩ := not_isspace_of_isdigit (all d List.mem_cons_self)
  rw [readInt, List.dropWhile_cons_of_neg (by rw [space]; exact Bool.false_ne_true)]
  split
  · next same => exact absurd (List.head_eq_of_cons_eq same) minus
  · next same => exact absurd (List.head_eq_of_cons_eq same) plus
  · rw [taken]

/-- A number in its text is read back, and one that is out of range becomes the nearest. -/
theorem readInt_intText {low high : Int} (neg : low ≤ 0) (pos : 0 ≤ high) (n : Int) :
    readInt low high (intText n) = max low (min high n) := by
  have digits : ∀ c ∈ natText n.natAbs, isdigit c := isdigit_decimalDigits
  have some' : natText n.natAbs ≠ [] := decimalDigits_ne_nil
  have value := decimal_natText n.natAbs
  rw [intText]
  split_ifs with sign
  · rw [readInt, List.dropWhile_cons_of_neg (by decide)]
    simp only [takeWhile_isdigit digits, value]
    omega
  · rw [readInt_digits some' digits, value]
    omega

theorem intText_injective : Function.Injective intText := by
  intro m n same
  have low : -((m.natAbs + n.natAbs : Nat) : Int) ≤ 0 := by omega
  have high : 0 ≤ ((m.natAbs + n.natAbs : Nat) : Int) := by omega
  have first := readInt_intText low high m
  have second := readInt_intText low high n
  rw [same, second] at first
  omega

end Digits

end GameServer.Lib
