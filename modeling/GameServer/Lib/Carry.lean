import Mathlib.Algebra.Order.Ring.Int
import Mathlib.Algebra.Ring.Divisibility.Basic
import Mathlib.Tactic.Linarith
import Mathlib.Tactic.Ring

/-!
# A remainder carried as a fraction

A speed is divided in every round, and what is left is carried to the next round as so many `scale`ths of the divisor, both times rounded
down. `carry` is one round, `carried` many. Nothing is lost exactly if the divisor divides the speed in `scale`ths (`total_eq_iff`):
otherwise something is lost in the first round, and never made up for.
-/

namespace GameServer.Lib.Carry

/-- What a fraction of the divisor is worth. -/
def back (scale divisor left : Int) : Int := left * divisor / scale

/-- One round: the quotient, and what is left. -/
def carry (scale divisor speed left : Int) : Int × Int :=
  ((speed + back scale divisor left) / divisor, (speed + back scale divisor left) % divisor * scale / divisor)

/-- The sum of the quotients of so many rounds, and what is left after them. -/
def carried (scale divisor speed : Int) : Nat → Int × Int
  | 0 => (0, 0)
  | n + 1 =>
    let before := carried scale divisor speed n
    let round := carry scale divisor speed before.2
    (before.1 + round.1, round.2)

section Rounds

variable {scale divisor speed left rest : Int}

/-- A fraction is below 1. -/
theorem carry_left (pos : 0 < divisor) (scale' : 0 < scale) :
    0 ≤ (carry scale divisor speed left).2 ∧ (carry scale divisor speed left).2 < scale := by
  have low := Int.emod_nonneg (speed + back scale divisor left) (ne_of_gt pos)
  have high := Int.emod_lt_of_pos (speed + back scale divisor left) pos
  constructor
  · exact Int.ediv_nonneg (mul_nonneg low scale'.le) pos.le
  · apply Int.ediv_lt_of_lt_mul pos
    rw [mul_comm scale]
    exact mul_lt_mul_of_pos_right high scale'

theorem carried_left (pos : 0 < divisor) (scale' : 0 < scale) (n : Nat) :
    0 ≤ (carried scale divisor speed n).2 ∧ (carried scale divisor speed n).2 < scale := by
  cases n with
  | zero => exact ⟨le_rfl, scale'⟩
  | succ n => exact carry_left pos scale'

/-- A remainder comes back no greater, and whole exactly if it is a whole number of `scale`ths. -/
theorem back_le (pos : 0 < divisor) (scale' : 0 < scale) : back scale divisor (rest * scale / divisor) ≤ rest := by
  apply Int.ediv_le_of_le_mul scale'
  exact Int.ediv_mul_le _ (ne_of_gt pos)

theorem back_eq (scale' : 0 < scale) (whole : divisor ∣ rest * scale) : back scale divisor (rest * scale / divisor) = rest := by
  rw [back, Int.ediv_mul_cancel whole, Int.mul_ediv_cancel _ (ne_of_gt scale')]

theorem back_lt (pos : 0 < divisor) (scale' : 0 < scale) (broken : ¬ divisor ∣ rest * scale) :
    back scale divisor (rest * scale / divisor) < rest := by
  apply Int.ediv_lt_of_lt_mul scale'
  refine lt_of_le_of_ne (Int.ediv_mul_le _ (ne_of_gt pos)) fun same => broken ?_
  exact Dvd.intro_left _ same

/-- **One round** loses what does not come back of its remainder. -/
theorem carry_balance (divisor scale speed left : Int) :
    speed + back scale divisor left =
      divisor * (carry scale divisor speed left).1 + (speed + back scale divisor left) % divisor :=
  (Int.mul_ediv_add_emod _ _).symm

/-- The remainder of a round is a whole number of `scale`ths, if speed and carried remainder are. -/
theorem dvd_emod_iff : divisor ∣ (speed + rest) % divisor * scale ↔ divisor ∣ (speed + rest) * scale := by
  rw [Int.emod_def, sub_mul, mul_assoc]
  exact dvd_sub_left (dvd_mul_right _ _)

/-- Rounds that lose nothing. -/
theorem carried_exact (pos : 0 < divisor) (scale' : 0 < scale) (whole : divisor ∣ speed * scale) (n : Nat) :
    back scale divisor (carried scale divisor speed n).2 = n * speed % divisor ∧
      (carried scale divisor speed n).1 = n * speed / divisor := by
  induction n with
  | zero => simp [carried, back]
  | succ n ih =>
    obtain ⟨rest, total⟩ := ih
    have now : speed + n * speed % divisor = ((n + 1 : Nat) : Int) * speed - divisor * (n * speed / divisor) := by
      have parts := Int.mul_ediv_add_emod (n * speed) divisor
      push_cast
      linarith
    have whole' : divisor ∣ (speed + n * speed % divisor) * scale := by
      rw [now, sub_mul, mul_assoc, mul_assoc]
      exact dvd_sub (whole.mul_left _) (dvd_mul_right _ _)
    have same : (speed + n * speed % divisor) % divisor = ((n + 1 : Nat) : Int) * speed % divisor := by
      rw [now, Int.sub_mul_emod_self_left]
    simp only [carried, carry, rest, total]
    constructor
    · rw [back_eq scale' (dvd_emod_iff.2 whole'), same]
    · rw [now, Int.sub_mul_ediv_left _ _ (ne_of_gt pos)]
      ring

/-- What so many rounds have made of the speed: the quotients, and what comes back of the last remainder. -/
def made (scale divisor speed : Int) (n : Nat) : Int :=
  divisor * (carried scale divisor speed n).1 + back scale divisor (carried scale divisor speed n).2

/-- A round adds no more than the speed: what is lost is lost for good. -/
theorem made_succ_le (pos : 0 < divisor) (scale' : 0 < scale) (n : Nat) :
    made scale divisor speed (n + 1) ≤ made scale divisor speed n + speed := by
  have balance := carry_balance divisor scale speed (carried scale divisor speed n).2
  have less : back scale divisor (carry scale divisor speed (carried scale divisor speed n).2).2 ≤ _ := back_le pos scale'
  simp only [made, carried, mul_add]
  linarith

/-- A speed that is no whole number of `scale`ths loses in the first round. -/
theorem made_lt (pos : 0 < divisor) (scale' : 0 < scale) (broken : ¬ divisor ∣ speed * scale) (n : Nat) :
    made scale divisor speed (n + 1) < (n + 1 : Nat) * speed := by
  induction n with
  | zero =>
    have balance := carry_balance divisor scale speed 0
    have less : back scale divisor (carry scale divisor speed 0).2 < (speed + back scale divisor 0) % divisor := by
      apply back_lt pos scale'
      rw [dvd_emod_iff]
      simpa [back] using broken
    have nothing : back scale divisor 0 = 0 := by simp [back]
    simp only [made, carried, zero_add, Nat.cast_one, one_mul]
    linarith
  | succ n ih =>
    have next : made scale divisor speed (n + 1 + 1) ≤ _ := made_succ_le pos scale' (n + 1)
    push_cast at ih ⊢
    linarith

/-- **No round loses anything** if and only if the divisor divides the speed in `scale`ths. -/
theorem total_eq_iff (pos : 0 < divisor) (scale' : 0 < scale) :
    (∀ n : Nat, (carried scale divisor speed n).1 = n * speed / divisor) ↔ divisor ∣ speed * scale := by
  refine ⟨fun all => ?_, fun whole n => (carried_exact pos scale' whole n).2⟩
  by_contra broken
  -- after as many rounds as the divisor there is no remainder that could make up for the loss
  obtain ⟨n, same⟩ : ∃ n : Nat, divisor = (n + 1 : Nat) := ⟨(divisor - 1).toNat, by omega⟩
  have lost := made_lt pos scale' broken n
  rw [made, all (n + 1), ← same, Int.mul_ediv_cancel_left _ (ne_of_gt pos)] at lost
  have left : 0 ≤ (carried scale divisor speed (n + 1)).2 := (carried_left pos scale' (n + 1)).1
  have nonneg : 0 ≤ back scale divisor (carried scale divisor speed (n + 1)).2 :=
    Int.ediv_nonneg (mul_nonneg left pos.le) scale'.le
  linarith

end Rounds

end GameServer.Lib.Carry
