import GameServer.Timers.Layering

/-!
# Slots and ticks

The arithmetic of the five vectors, modulo `2 ^ 32`. A slot of `l` covers `l.unit`
ticks; `Placed` says that a timer in it has its slot's number, is less than a turn of
the vector away, and has its slot still to come. A slot comes when the tick is a
multiple of `l.unit` and has the slot's number: then every timer in it is due within
`l.unit` ticks (`Placed.comes`) and no other slot of the vector holds such a timer
(`Placed.stays`).
-/

namespace GameServer.Timers.Layering

/-- The ticks from `tick` to `expires`. -/
def dist (tick expires : BitVec 32) : Nat := (expires - tick).toNat

/-- The ticks a slot covers. -/
def Level.unit (l : Level) : Nat := 2 ^ l.shift

/-- The number of slots. -/
def Level.size : Level → Nat
  | .tv1 => 256
  | _ => 64

theorem dist_eq (tick expires : BitVec 32) :
    dist tick expires = (expires.toNat + 2 ^ 32 - tick.toNat) % 2 ^ 32 := by
  unfold dist
  rw [BitVec.toNat_sub]
  omega

theorem Level.index_eq (l : Level) (tick : BitVec 32) : l.index tick = tick.toNat / l.unit % l.size := by
  have small : ∀ n : Nat, n &&& 63 = n % 64 := fun n => Nat.and_two_pow_sub_one_eq_mod n 6
  have root : ∀ n : Nat, n &&& 255 = n % 256 := fun n => Nat.and_two_pow_sub_one_eq_mod n 8
  cases l <;> simp [Level.index, Level.mask, Level.unit, Level.size, Nat.shiftRight_eq_div_pow, small, root]

theorem Level.unit_eq (l : Level) : l.unit = match l with
    | .tv1 => 1
    | .tv2 => 2 ^ 8
    | .tv3 => 2 ^ 14
    | .tv4 => 2 ^ 20
    | .tv5 => 2 ^ 26 := by
  cases l <;> rfl

/-- `unit` and `size` as numbers. -/
theorem Level.numbers (l : Level) : l = .tv1 ∧ l.unit = 1 ∧ l.size = 256 ∨ l = .tv2 ∧ l.unit = 2 ^ 8 ∧ l.size = 64 ∨
    l = .tv3 ∧ l.unit = 2 ^ 14 ∧ l.size = 64 ∨ l = .tv4 ∧ l.unit = 2 ^ 20 ∧ l.size = 64 ∨
    l = .tv5 ∧ l.unit = 2 ^ 26 ∧ l.size = 64 := by
  cases l <;> simp [Level.unit_eq, Level.size]

/-- A timer that expires at `expires` is right in slot `i` of `l`; with `done` the slots of
this tick have been emptied. -/
structure Placed (tick : BitVec 32) (done : Bool) (l : Level) (i : Nat) (expires : BitVec 32) : Prop where
  slot : i = l.index expires
  near : dist tick expires < l.unit * l.size
  ahead : l.unit ≤ tick.toNat % l.unit + dist tick expires ∨ done = false ∧ tick.toNat % l.unit = 0

namespace Placed

variable {tick expires : BitVec 32} {done : Bool} {l : Level} {i : Nat}

theorem of_range (near : dist tick expires < l.unit * l.size) (far : l.unit ≤ dist tick expires) :
    Placed tick done l (l.index expires) expires :=
  ⟨rfl, near, .inl (Nat.le_trans far (Nat.le_add_left _ _))⟩

theorem pos (placed : Placed tick true l i expires) : 0 < dist tick expires := by
  have ahead := placed.ahead.resolve_right (by simp)
  have below : tick.toNat % l.unit < l.unit := Nat.mod_lt _ (Nat.two_pow_pos _)
  omega

/-- The slot of this tick holds only timers due within one slot. -/
theorem comes (placed : Placed tick false l i expires) (even : tick.toNat % l.unit = 0) (here : i = l.index tick) :
    dist tick expires < l.unit := by
  obtain ⟨slot, near, -⟩ := placed
  rw [here, l.index_eq, l.index_eq] at slot
  have lt := tick.isLt
  have lt' := expires.isLt
  rw [dist_eq] at near ⊢
  obtain ⟨-, unit, size⟩ | ⟨-, unit, size⟩ | ⟨-, unit, size⟩ | ⟨-, unit, size⟩ | ⟨-, unit, size⟩ := l.numbers <;>
    rw [unit, size] at slot near <;> rw [unit] at even ⊢ <;> omega

/-- No other slot holds one. -/
theorem stays (placed : Placed tick false l i expires) (even : tick.toNat % l.unit = 0) (other : i ≠ l.index tick) :
    Placed tick true l i expires := by
  refine ⟨placed.slot, placed.near, .inl ?_⟩
  obtain ⟨slot, near, -⟩ := placed
  rw [slot, l.index_eq, l.index_eq] at other
  have lt := tick.isLt
  have lt' := expires.isLt
  rw [dist_eq] at near ⊢
  obtain ⟨-, unit, size⟩ | ⟨-, unit, size⟩ | ⟨-, unit, size⟩ | ⟨-, unit, size⟩ | ⟨-, unit, size⟩ := l.numbers <;>
    rw [unit, size] at other near <;> rw [unit] at even ⊢ <;> omega

/-- Between its slots' ticks a vector has nothing to empty. -/
theorem between (placed : Placed tick false l i expires) (odd : tick.toNat % l.unit ≠ 0) :
    Placed tick true l i expires :=
  ⟨placed.slot, placed.near, .inl (placed.ahead.resolve_right fun h => odd h.2)⟩

theorem weaken (placed : Placed tick true l i expires) : Placed tick done l i expires :=
  ⟨placed.slot, placed.near, .inl (placed.ahead.resolve_right (by simp))⟩

/-- `++last_tick_` keeps every timer in place. -/
theorem next (placed : Placed tick true l i expires) : Placed (tick + 1) false l i expires := by
  have pos := placed.pos
  obtain ⟨slot, near, ahead⟩ := placed
  have ahead := ahead.resolve_right (by simp)
  have lt := tick.isLt
  have lt' := expires.isLt
  have succ : (tick + 1).toNat = (tick.toNat + 1) % 2 ^ 32 := by simp [BitVec.toNat_add]
  have step : dist (tick + 1) expires = dist tick expires - 1 := by
    rw [dist_eq] at pos
    rw [dist_eq, dist_eq, succ]
    omega
  refine ⟨slot, by omega, ?_⟩
  rw [step, succ]
  simp only [true_and]
  obtain ⟨-, unit, size⟩ | ⟨-, unit, size⟩ | ⟨-, unit, size⟩ | ⟨-, unit, size⟩ | ⟨-, unit, size⟩ := l.numbers <;>
    rw [unit] at ahead ⊢ <;> omega

end Placed

/-- `__AddTimer` puts a timer in a right slot, unless it is due at a tick already emptied. -/
theorem placed_slotFor {tick expires : BitVec 32} {done : Level → Bool} (near : dist tick expires < 2 ^ 31)
    (ahead : 0 < dist tick expires ∨ done .tv1 = false) :
    Placed tick (done (slotFor tick expires).1) (slotFor tick expires).1 (slotFor tick expires).2 expires := by
  have positive : ¬ (expires - tick).toInt < 0 := by
    rw [BitVec.toInt_eq_toNat_cond]
    unfold dist at near
    split_ifs <;> omega
  have big : ¬ (expires - tick).toNat > 0xffffffff := by
    have := (expires - tick).isLt
    omega
  have idx : (expires - tick).toNat = dist tick expires := rfl
  have bits : 2 ^ TVR_BITS = 2 ^ 8 ∧ 2 ^ (TVR_BITS + TVN_BITS) = 2 ^ 14 ∧ 2 ^ (TVR_BITS + 2 * TVN_BITS) = 2 ^ 20 ∧
      2 ^ (TVR_BITS + 3 * TVN_BITS) = 2 ^ 26 := by decide
  simp only [slotFor, if_neg positive, idx, bits]
  split_ifs with lt1 lt2 lt3 lt4 clip
  · refine ⟨rfl, by simp only [Level.unit_eq, Level.size]; omega, ?_⟩
    simp only [Level.unit_eq]
    rcases ahead with pos | fresh
    · exact .inl (by omega)
    · exact .inr ⟨fresh, Nat.mod_one _⟩
  all_goals first
    | exact absurd clip big
    | exact .of_range (by simp only [Level.unit_eq, Level.size]; omega) (by simp only [Level.unit_eq]; omega)

end GameServer.Timers.Layering
