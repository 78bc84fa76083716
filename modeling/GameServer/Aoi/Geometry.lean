import GameServer.Aoi.Update
import Mathlib.Tactic.Linarith

/-!
# Ranges and boundaries

The tests of a boundary are about the distance of the entity from the trigger's origin
(`isInRange_iff`), those about the past as long as the entity was not exactly on the boundary
(`wasInRange_iff`). Where being in range changes on an axis, the entity and one of the two
boundaries stand on the wrong side of each other (`crossing`).
-/

namespace GameServer.Aoi

open GameServer.Lib

/-- How far a trigger reaches. -/
def Witness.reach (w : Witness) : Kind → ℚ
  | .aoi => w.aoiRadius
  | .hysteresis => w.aoiRadius + w.aoiHysteresisArea

def Side.sign : Side → ℚ
  | .negative => -1
  | .positive => 1

/-- `q` is no farther than `r` from `p` on any axis. -/
def Near (r : ℚ) (p q : Axis → ℚ) : Prop := ∀ a, |q a - p a| ≤ r

/-- The radius is one that `setAoiRadius` takes over, and the triggers have it. -/
structure Witness.Good (w : Witness) : Prop where
  radius : 0 < w.aoiRadius
  area : 0 ≤ w.aoiHysteresisArea
  bound : w.aoiRadius + w.aoiHysteresisArea ≤ 512
  range : ∀ kind, w.range kind = some (w.reach kind)

/-- `q` is on no boundary of a witness at `p`. -/
def Apart (w : Witness) (p q : Axis → ℚ) : Prop := ∀ kind a, |q a - p a| ≠ w.reach kind

/-- The coordinates are not next to `FLT_MAX` or `-FLT_MAX`. -/
def InWorld (p : Axis → ℚ) : Prop := ∀ a, |p a| < FLT_MAX - 1024

section Witness

variable {w : Witness}

theorem Witness.Good.reach_pos (good : w.Good) (kind : Kind) : 0 < w.reach kind := by
  have radius := good.radius
  have area := good.area
  cases kind with
  | aoi => exact radius
  | hysteresis => exact add_pos_of_pos_of_nonneg radius area

theorem Witness.Good.reach_le (good : w.Good) (kind : Kind) : w.reach kind ≤ 512 := by
  have area := good.area
  have bound := good.bound
  cases kind with
  | aoi =>
    show w.aoiRadius ≤ 512
    linarith
  | hysteresis => exact bound

theorem Witness.Good.aoi_le (good : w.Good) : w.reach .aoi ≤ w.reach .hysteresis := by
  have area := good.area
  show w.aoiRadius ≤ w.aoiRadius + w.aoiHysteresisArea
  linarith

theorem newWitness_good {radius hyst : ℚ} (pos : 0 < radius) (area : 0 ≤ hyst) (bound : radius + hyst ≤ 512) :
    (newWitness radius hyst).Good ∧ (newWitness radius hyst).aoiRadius = radius ∧
      (newWitness radius hyst).aoiHysteresisArea = hyst := by
  have attached : ((Witness.fresh.setAoiRadius 5 1).range .hysteresis).isSome = true := by
    rw [Witness.setAoiRadius, if_neg (by norm_num), if_pos (by norm_num), if_pos (.inl (by norm_num))]
    rfl
  have eq : newWitness radius hyst =
      (({ Witness.fresh.setAoiRadius 5 1 with aoiRadius := radius, aoiHysteresisArea := hyst } : Witness).setRange
        .aoi radius).setRange .hysteresis (hyst + radius) := by
    rw [newWitness, Witness.setAoiRadius, if_neg (not_lt.2 bound), if_pos pos, if_pos (.inr attached)]
  have sum : |hyst + radius| = radius + hyst := by
    rw [abs_of_nonneg (add_nonneg area pos.le), add_comm]
  rw [eq]
  refine ⟨⟨pos, area, bound, ?_⟩, rfl, rfl⟩
  intro kind
  cases kind with
  | aoi => simp [Witness.setRange, Witness.reach, abs_of_pos pos]
  | hysteresis => simp [Witness.setRange, Witness.reach, sum]

end Witness

theorem Near.mono {r r' : ℚ} {p q : Axis → ℚ} (near : Near r p q) (le : r ≤ r') : Near r' p q :=
  fun a => (near a).trans le

theorem Side.abs_sign (side : Side) (r : ℚ) (nonneg : 0 ≤ r) : |side.sign * r| = r := by
  cases side with
  | negative => rw [Side.sign, neg_one_mul, abs_neg, abs_of_nonneg nonneg]
  | positive => rw [Side.sign, one_mul, abs_of_nonneg nonneg]

namespace Layout

variable {l : Layout} {b : Boundary} {e : Nat} {a : Axis}

theorem isInRange_iff :
    l.isInRange b (.entity e) a = true ↔ |l.position e a - l.position b.origin a| ≤ |l.range b a| := by
  show (decide (l.position b.origin a - |l.range b a| ≤ l.position e a) &&
    decide (l.position e a ≤ l.position b.origin a + |l.range b a|)) = true ↔ _
  rw [Bool.and_eq_true, decide_eq_true_eq, decide_eq_true_eq, abs_le]
  constructor
  · rintro ⟨low, high⟩
    constructor <;> linarith
  · rintro ⟨low, high⟩
    constructor <;> linarith

theorem wasInRange_iff {center : ℚ} (origin : l.old (.boundary b) a - l.oldRange b a = center)
    (untied : |l.old (.entity e) a - center| ≠ |l.oldRange b a|) (isfront : Bool) :
    l.wasInRange b (.entity e) isfront a = true ↔ |l.old (.entity e) a - center| ≤ |l.oldRange b a| := by
  have lower : l.old (.entity e) a ≠ center - |l.oldRange b a| := by
    intro tie
    apply untied
    rw [tie, sub_sub_cancel_left, abs_neg, abs_abs]
  have upper : l.old (.entity e) a ≠ center + |l.oldRange b a| := by
    intro tie
    apply untied
    rw [tie, add_sub_cancel_left, abs_abs]
  simp only [wasInRange, origin, if_neg lower, if_neg upper, Bool.and_eq_true, decide_eq_true_eq]
  rw [abs_le]
  constructor
  · rintro ⟨low, high⟩
    constructor <;> linarith
  · rintro ⟨low, high⟩
    constructor <;> linarith

end Layout

/-- The first axis on which two tests differ. -/
theorem exists_first (was is : Axis → Bool) (differ : ¬ ((∀ a, was a = true) ↔ ∀ a, is a = true)) :
    ∃ a, was a ≠ is a ∧ ∀ a' ∈ a.above, was a' = is a' := by
  by_cases z : was .z = is .z
  · by_cases y : was .y = is .y
    · by_cases x : was .x = is .x
      · have all : was = is := by
          funext a
          cases a with
          | x => exact x
          | y => exact y
          | z => exact z
        exact absurd (by rw [all]) differ
      · refine ⟨.x, x, ?_⟩
        simp [Axis.above, y, z]
    · refine ⟨.y, y, ?_⟩
      simp [Axis.above, z]
  · exact ⟨.z, z, by simp [Axis.above]⟩

/-- A point that moves into a range or out of it crosses one of the boundaries. -/
theorem crossing {p u v r : ℚ} (changes : ¬ (|u - p| ≤ r ↔ |v - p| ≤ r)) (before : |u - p| ≠ r) (after : |v - p| ≠ r) :
    ∃ side : Side, u < p + side.sign * r ∧ p + side.sign * r < v ∨ v < p + side.sign * r ∧ p + side.sign * r < u := by
  have wlog : ∀ {u v : ℚ}, |u - p| < r → r < |v - p| →
      ∃ side : Side, u < p + side.sign * r ∧ p + side.sign * r < v ∨ v < p + side.sign * r ∧ p + side.sign * r < u := by
    intro u v inside outside
    obtain ⟨low, high⟩ := abs_lt.1 inside
    rcases lt_abs.1 outside with right | left
    · refine ⟨.positive, .inl ⟨?_, ?_⟩⟩ <;> rw [Side.sign] <;> linarith
    · refine ⟨.negative, .inr ⟨?_, ?_⟩⟩ <;> rw [Side.sign] <;> linarith
  rcases lt_or_gt_of_ne before with inside | outside
  · have out : ¬ |v - p| ≤ r := fun le => changes (iff_of_true inside.le le)
    exact wlog inside (not_le.1 out)
  · have inside : |v - p| ≤ r := by
      by_contra out
      exact changes (iff_of_false (not_le.2 outside) out)
    obtain ⟨side, between⟩ := wlog (lt_of_le_of_ne inside after) outside
    exact ⟨side, between.symm⟩

end GameServer.Aoi
