import Mathlib.Tactic.Ring
import GameServer.Timers.Wheel

/-!
# Parts of a tick

The points of the wheel are the mixed-radix digits of the tick, with `M` ticks in a
second. `floor p n` counts the units of `p` before the tick `n`, `above p n` those of
the next part up, `digit p n` is what is between. A timer due at `N` is `Placed` in the
wheel of `p` when the parts above `p` are already those of the tick and the part itself
is still to come, or has come and the wheel is among those to visit in this tick.
-/

namespace GameServer.Timers.Wheel

def digit (M : Nat) : Part → Nat → Nat
  | .day, n => n / M / 86400
  | .hour, n => n / M / 3600 % 24
  | .min, n => n / M / 60 % 60
  | .sec, n => n / M % 60
  | .msec, n => n % M

def floor (M : Nat) : Part → Nat → Nat
  | .day, n => n / M / 86400
  | .hour, n => n / M / 3600
  | .min, n => n / M / 60
  | .sec, n => n / M
  | .msec, n => n

def above (M : Nat) : Part → Nat → Nat
  | .day, _ => 0
  | .hour, n => n / M / 86400
  | .min, n => n / M / 3600
  | .sec, n => n / M / 60
  | .msec, n => n / M

/-- The units of `p` in one of the next part up. -/
def radix (M : Nat) : Part → Nat
  | .day => 0
  | .hour => 24
  | .min => 60
  | .sec => 60
  | .msec => M

/-- The topmost part whose point moves at the tick `n`. -/
def rolled (M n : Nat) : Part :=
  if n % M ≠ 0 then .msec
  else if n / M % 60 ≠ 0 then .sec
  else if n / M / 60 % 60 ≠ 0 then .min
  else if n / M / 3600 % 24 ≠ 0 then .hour
  else .day

/-- The parts below `p` are zero. -/
def Whole (M : Nat) (p : Part) (n : Nat) : Prop := ∀ q ∈ p.below, digit M q n = 0

structure Placed (M now : Nat) (parts : List Part) (p : Part) (due : Nat) : Prop where
  above : above M p due = above M p now
  ahead : floor M p now < floor M p due ∨ floor M p now = floor M p due ∧ p ∈ parts

variable {M now due : Nat}

/-- A tick later the second goes on or the next one begins. -/
theorem succ_cases (pos : 0 < M) (n : Nat) :
    n % M + 1 < M ∧ (n + 1) % M = n % M + 1 ∧ (n + 1) / M = n / M ∨
      n % M + 1 = M ∧ (n + 1) % M = 0 ∧ (n + 1) / M = n / M + 1 := by
  have lt := Nat.mod_lt n pos
  have split := Nat.div_add_mod n M
  have next : n + 1 = M * (n / M) + (n % M + 1) := by omega
  rcases Nat.lt_or_ge (n % M + 1) M with less | last
  · refine .inl ⟨less, ?_, ?_⟩
    · rw [next, Nat.mul_add_mod, Nat.mod_eq_of_lt less]
    · rw [next, Nat.mul_add_div pos, Nat.div_eq_of_lt less, Nat.add_zero]
  · have last : n % M + 1 = M := by omega
    have next : n + 1 = M * (n / M + 1) := by rw [Nat.mul_add, Nat.mul_one]; omega
    exact .inr ⟨last, by rw [next, Nat.mul_mod_right], by rw [next, Nat.mul_div_cancel_left _ pos]⟩

theorem above_eq (M n : Nat) {p : Part} (lower : p ≠ .day) : above M p n = floor M p n / radix M p := by
  cases p with
  | day => exact absurd rfl lower
  | hour => simp only [above, floor, radix]; omega
  | min => simp only [above, floor, radix]; omega
  | sec => simp only [above, floor, radix]
  | msec => simp only [above, floor, radix]

/-- The part above grows with the part. -/
theorem above_squeeze {a b c : Nat} {p : Part} (high : above M p c = above M p a) (first : floor M p a ≤ floor M p b)
    (second : floor M p b ≤ floor M p c) : above M p c = above M p b := by
  by_cases day : p = .day
  · subst day
    rfl
  · rw [above_eq M _ day, above_eq M _ day] at *
    have := Nat.div_le_div_right (c := radix M p) first
    have := Nat.div_le_div_right (c := radix M p) second
    omega

theorem whole_iff (M n : Nat) (p : Part) : Whole M p n ↔ match p with
    | .day => n / M % 86400 = 0 ∧ n % M = 0
    | .hour => n / M % 3600 = 0 ∧ n % M = 0
    | .min => n / M % 60 = 0 ∧ n % M = 0
    | .sec => n % M = 0
    | .msec => True := by
  cases p <;> simp only [Whole, Part.below, List.forall_mem_cons, List.not_mem_nil, false_imp_iff, implies_true,
    and_true] <;> simp only [digit] <;> omega

/-- A part stays or goes on by one, and then everything below it is zero. -/
theorem floor_succ (pos : 0 < M) (n : Nat) (p : Part) :
    floor M p (n + 1) = floor M p n ∨ floor M p (n + 1) = floor M p n + 1 ∧ Whole M p (n + 1) := by
  obtain ⟨-, rest, second⟩ | ⟨-, rest, second⟩ := succ_cases pos n
  all_goals
    rw [whole_iff]
    cases p <;> simp only [floor, second, rest, true_or, and_true, or_true] <;> omega

/-- The wheels to visit at a tick are those with nothing below them. -/
theorem mem_rolled {M n : Nat} {p : Part} : p ∈ rolled M n :: (rolled M n).below ↔ Whole M p n := by
  rw [whole_iff]
  unfold rolled
  split_ifs with msec sec min hour <;> cases p <;>
    simp only [Part.below, List.mem_cons, List.not_mem_nil, reduceCtorEq, or_false, or_true, false_iff,
      true_iff] <;> omega

/-- A timer that is still to come stays placed when the tick goes on. -/
theorem Placed.next (pos : 0 < M) {p : Part} (placed : Placed M now [] p due) :
    Placed M (now + 1) (rolled M (now + 1) :: (rolled M (now + 1)).below) p due := by
  have ahead := placed.ahead.resolve_right (by simp)
  rcases floor_succ pos now p with same | ⟨next, whole⟩
  · exact ⟨above_squeeze placed.above (by omega) (by omega), .inl (by omega)⟩
  · refine ⟨above_squeeze placed.above (by omega) (by omega), ?_⟩
    rcases Nat.lt_or_ge (floor M p (now + 1)) (floor M p due) with less | same
    · exact .inl less
    · exact .inr ⟨by omega, mem_rolled.2 whole⟩

theorem floor_mono {m n : Nat} (le : m ≤ n) (p : Part) : floor M p m ≤ floor M p n := by
  cases p with
  | day => exact Nat.div_le_div_right (Nat.div_le_div_right le)
  | hour => exact Nat.div_le_div_right (Nat.div_le_div_right le)
  | min => exact Nat.div_le_div_right (Nat.div_le_div_right le)
  | sec => exact Nat.div_le_div_right le
  | msec => exact le

/-- A part is the part above it and its digit. -/
theorem floor_split (M n : Nat) {p : Part} (lower : p ≠ .day) :
    floor M p n = radix M p * above M p n + digit M p n := by
  cases p with
  | day => exact absurd rfl lower
  | hour => simp only [floor, above, digit, radix]; omega
  | min => simp only [floor, above, digit, radix]; omega
  | sec => simp only [floor, above, digit, radix]; omega
  | msec => simp only [floor, above, digit, radix]; rw [Nat.div_add_mod]

theorem digit_eq {m n : Nat} {p : Part} (high : above M p m = above M p n) (same : floor M p m = floor M p n) :
    digit M p m = digit M p n := by
  by_cases day : p = .day
  · subst day
    exact same
  · rw [floor_split M m day, floor_split M n day, high] at same
    omega

theorem floor_eq {m n : Nat} {p : Part} (high : above M p m = above M p n) (same : digit M p m = digit M p n) :
    floor M p m = floor M p n := by
  by_cases day : p = .day
  · subst day
    exact same
  · rw [floor_split M m day, floor_split M n day, high, same]

/-- Where a timer in the wheel of `p` goes when its slot comes. -/
def Down (M now due : Nat) (p : Part) : Prop :=
  Whole M p now → floor M p now = floor M p due →
    match p.below.find? (fun q => decide (digit M q due ≠ 0)) with
    | some q => above M q due = above M q now ∧ floor M q now < floor M q due
    | none => due = now

theorem Down.step {p q : Part} (next : p.below = q :: q.below) (lower : q ≠ .day)
    (up : ∀ n, above M q n = floor M p n) (down : Down M now due q) : Down M now due p := by
  intro whole same
  have zero : digit M q now = 0 := whole q (by rw [next]; exact List.mem_cons_self)
  have high : above M q due = above M q now := by rw [up, up, same]
  have split := floor_split M now lower
  have split' := floor_split M due lower
  rw [zero] at split
  rw [high] at split'
  rw [next, List.find?_cons]
  by_cases part : digit M q due = 0
  · simp only [part, ne_eq, not_true_eq_false, decide_false]
    refine down ?_ (by omega)
    intro r mem
    exact whole r (by rw [next]; exact List.mem_cons_of_mem q mem)
  · simp only [ne_eq, part, not_false_eq_true, decide_true]
    exact ⟨high, by omega⟩

/-- The wheel of the next part that is not zero, or the timer is due now. -/
theorem down (M now due : Nat) : ∀ p, Down M now due p := by
  have msec : Down M now due .msec := fun _ same => same.symm
  have sec : Down M now due .sec := msec.step rfl (by decide) fun _ => rfl
  have min : Down M now due .min := sec.step rfl (by decide) fun _ => rfl
  have hour : Down M now due .hour := min.step rfl (by decide) fun _ => rfl
  have day : Down M now due .day := hour.step rfl (by decide) fun _ => rfl
  intro p
  cases p <;> assumption

/-- The first part in which two ticks differ, from the top. -/
def firstDiff (M now due : Nat) : Part :=
  if digit M .day due ≠ digit M .day now then .day
  else if digit M .hour due ≠ digit M .hour now then .hour
  else if digit M .min due ≠ digit M .min now then .min
  else if digit M .sec due ≠ digit M .sec now then .sec
  else .msec

/-- A timer due later belongs to the wheel of the first part that differs. -/
theorem placed_later (later : now < due) (parts : List Part) : Placed M now parts (firstDiff M now due) due := by
  have mono := floor_mono (M := M) (Nat.le_of_lt later)
  have day := mono .day
  have hour := mono .hour
  have min := mono .min
  have sec := mono .sec
  simp only [floor] at day hour min sec
  unfold firstDiff
  split_ifs with day' hour' min' sec' <;> simp only [digit] at *
  · exact ⟨rfl, .inl (by simp only [floor]; omega)⟩
  · exact ⟨by simp only [above]; omega, .inl (by simp only [floor]; omega)⟩
  · exact ⟨by simp only [above]; omega, .inl (by simp only [floor]; omega)⟩
  · exact ⟨by simp only [above]; omega, .inl (by simp only [floor]; omega)⟩
  · exact ⟨by simp only [above]; omega, .inl later⟩

/-- So does a timer due now, when the wheel of the last part is still to visit. -/
theorem placed_firstDiff {parts : List Part} (soon : now < due ∨ now = due ∧ .msec ∈ parts) :
    Placed M now parts (firstDiff M now due) due := by
  rcases soon with later | ⟨rfl, mem⟩
  · exact placed_later later parts
  · have last : firstDiff M now now = .msec := by simp [firstDiff]
    rw [last]
    exact ⟨rfl, .inr ⟨rfl, mem⟩⟩

/-- Ticks in `ms` milliseconds. -/
def ticks (M ms : Nat) : Nat := ms * M / 1000

theorem ticks_eq (M ms : Nat) : ticks M ms = M * (ms / 1000) + ms % 1000 * M / 1000 := by
  unfold ticks
  have split : ms * M = 1000 * (M * (ms / 1000)) + ms % 1000 * M := by
    conv_lhs => rw [← Nat.div_add_mod ms 1000]
    ring
  rw [split, Nat.mul_add_div (by decide)]

theorem rest_lt {M : Nat} (ms : Nat) (pos : 0 < M) : ms % 1000 * M / 1000 < M := by
  have lt : ms % 1000 < 1000 := Nat.mod_lt _ (by decide)
  rw [Nat.div_lt_iff_lt_mul (by decide), Nat.mul_comm M]
  exact Nat.mul_lt_mul_of_pos_right lt pos

/-- Ticks and seconds of a sum of two times, with the carry. -/
theorem add_ticks (pos : 0 < M) (n ms : Nat) :
    (n + ticks M ms) % M = (n % M + ms % 1000 * M / 1000) % M ∧
      (n + ticks M ms) / M = n / M + ms / 1000 + (n % M + ms % 1000 * M / 1000) / M := by
  have split : n + ticks M ms = M * (n / M + ms / 1000) + (n % M + ms % 1000 * M / 1000) := by
    have := Nat.div_add_mod n M
    rw [ticks_eq, Nat.mul_add]
    omega
  rw [split, Nat.mul_add_mod, Nat.mul_add_div pos]
  exact ⟨rfl, rfl⟩

/-- Adding one part: the digit and what goes on to the next part. -/
theorem carry_eq (a b c : Nat) {r : Nat} (pos : 0 < r) :
    (a + b + c) % r = (a % r + b % r + c) % r ∧ (a + b + c) / r = a / r + b / r + (a % r + b % r + c) / r := by
  have split : a + b + c = r * (a / r + b / r) + (a % r + b % r + c) := by
    have := Nat.div_add_mod a r
    have := Nat.div_add_mod b r
    rw [Nat.mul_add]
    omega
  rw [split, Nat.mul_add_mod, Nat.mul_add_div pos]
  exact ⟨rfl, rfl⟩

end GameServer.Timers.Wheel
