import Mathlib.Algebra.Order.BigOperators.Group.Finset
import Mathlib.Data.Prod.Lex
import GameServer.Lib.Termination
import GameServer.Timers.WheelBounds

/-!
# Updates that end

A timer whose next due tick has passed goes back to the list that `UpdateMsecWheel` is emptying. The loop ends because such
a timer has a budget of calls in this tick: the calls its count leaves it, or the ticks between its due time and the
tick of the wheel. When every timer that is armed again uses up a part of its budget or leaves the lists of this tick
(`MovesOn`), every update ends, whatever timers its callbacks release (`update_ends`). A timer without a last call whose
interval is shorter than a tick does not move on, and is called again and again (`instant_spins`).
-/

namespace GameServer.Timers.Wheel

open GameServer.Lib

/-- A timer that is armed again is released, or has a last call, or goes to a list that is not emptied in this tick, or is
due later than it was. -/
def MovesOn (s : TimeWheel) (timer : Timer) : Prop :=
  timer.bRelease = true ∨ 0 < timer.count ∨
    (s.msec_count < s.getTimerTick (s.addParts timer.due timer.interval) ∧
      s.today timer.due + ticks s.rate timer.interval.toNat ≠ s.msec_count) ∨
    (0 < ticks s.rate timer.interval.toNat ∧ s.today timer.due + ticks s.rate timer.interval.toNat ≤ s.msec_count)

/-- The days are inside the wheel, and a timer whose callback is over can be counted down and moves on, unless that was its
last call. -/
def Meets (s : TimeWheel) (a : Action) : Prop :=
  Fits s a ∧ (a = .ret → ∀ timer ∈ s.callee, timer.count ≠ 1 → -2 ^ 31 < timer.count ∧ MovesOn s timer)

instance (s : TimeWheel) (timer : Timer) : Decidable (MovesOn s timer) := by
  unfold MovesOn
  infer_instance

instance (s : TimeWheel) (a : Action) : Decidable (Meets s a) := by
  unfold Meets
  infer_instance

/-- What a callback may do that creates no timers. -/
def Releases (_ : TimeWheel) (a : Action) : Prop := ∃ k, a = .removeTimer k

/-- One pass of the loops in `Update`, or a callback and the end of `excuteTimer`. -/
inductive Turn (ok : TimeWheel → Action → Prop) (s t : TimeWheel) : Prop where
  | go (next : step s .go = some t)
  | callback (as : List Action) (u : TimeWheel) (calls : Runs step Releases s as u) (good : ok u .ret)
      (next : step u .ret = some t)

/-- `Update` is over, or it is in a callback that cannot return as `ok` says. -/
def Halts (ok : TimeWheel → Action → Prop) (s : TimeWheel) : Prop :=
  s.phase = .idle ∨
    (∃ curr ps k, s.phase = .calling curr ps k) ∧ ∀ as u, Runs step Releases s as u → ¬ ok u .ret

def Phase.callee : Phase → Option Nat
  | .calling _ _ k => some k
  | _ => none

/-- `k` is in a list that is emptied in this tick. -/
def Pending (s : TimeWheel) (k : Nat) : Prop := ∃ p ∈ s.phase.parts, k ∈ s.wheel p (s.point p)

instance (s : TimeWheel) (k : Nat) : Decidable (Pending s k) :=
  inferInstanceAs (Decidable (∃ p ∈ s.phase.parts, k ∈ s.wheel p (s.point p)))

namespace TimeWheel

/-- The calls of a timer in this tick, at most. -/
def budget (s : TimeWheel) (timer : Timer) : Nat :=
  if timer.bRelease then 0
  else if 0 < timer.count then timer.count.toNat
  else s.msec_count - s.today timer.due + 1

/-- Two turns for each call of `k` in this tick, and one for its deletion. -/
def weight (s : TimeWheel) (k : Nat) : Nat :=
  match s.timers k with
  | none => 0
  | some timer =>
    if s.phase.callee = some k then 2 * (s.budget timer - 1) + 2
    else if Pending s k then 2 * s.budget timer + 1
    else 0

def total (s : TimeWheel) : Nat := ∑ k ∈ Finset.range s.created, s.weight k

/-- The ticks to go, and the turns in this one. -/
def rank (s : TimeWheel) : Nat × Nat :=
  match s.phase with
  | .idle => (0, 0)
  | .ticking curr => (2 * (curr - s.msec_count).toNat + 1, 0)
  | .visiting curr ps => (2 * (curr - s.msec_count).toNat + 2, s.total + ps.length)
  | .calling curr ps _ => (2 * (curr - s.msec_count).toNat + 2, s.total + ps.length)

end TimeWheel

section Digits

variable {M m n : Nat}

/-- The parts tell the tick. -/
theorem eq_of_digits (same : ∀ p, digit M p m = digit M p n) : m = n := by
  have day := same .day
  have hour := same .hour
  have min := same .min
  have sec := same .sec
  have msec := same .msec
  simp only [digit] at day hour min sec msec
  have second : m / M = n / M := by omega
  calc m = M * (m / M) + m % M := (Nat.div_add_mod m M).symm
    _ = M * (n / M) + n % M := by rw [second, msec]
    _ = n := Nat.div_add_mod n M

theorem digit_firstDiff (other : n ≠ m) : digit M (firstDiff M m n) n ≠ digit M (firstDiff M m n) m := by
  unfold firstDiff
  split_ifs with day hour min sec
  · exact day
  · exact hour
  · exact min
  · exact sec
  · intro msec
    refine other (eq_of_digits (M := M) fun p => ?_)
    cases p with
    | day => exact not_not.1 day
    | hour => exact not_not.1 hour
    | min => exact not_not.1 min
    | sec => exact not_not.1 sec
    | msec => exact msec

end Digits

section Weights

variable {s t : TimeWheel} {a : Action} {k : Nat} {timer : Timer}

theorem callee_eq_some {phase : Phase} : phase.callee = some k ↔ ∃ curr ps, phase = .calling curr ps k := by
  constructor
  · intro callee
    cases phase with
    | calling curr ps id =>
      obtain rfl := Option.some.inj callee
      exact ⟨curr, ps, rfl⟩
    | idle => cases callee
    | ticking curr => cases callee
    | visiting curr ps => cases callee
  · rintro ⟨curr, ps, rfl⟩
    rfl

theorem weight_le (here : s.timers k = some timer) (uncalled : s.phase.callee ≠ some k) :
    s.weight k ≤ 2 * s.budget timer + 1 := by
  unfold TimeWheel.weight
  rw [here]
  dsimp only
  rw [if_neg uncalled]
  split_ifs <;> omega

theorem weight_pending (here : s.timers k = some timer) (uncalled : s.phase.callee ≠ some k) (pending : Pending s k) :
    s.weight k = 2 * s.budget timer + 1 := by
  unfold TimeWheel.weight
  rw [here]
  dsimp only
  rw [if_neg uncalled, if_pos pending]

theorem weight_calling (here : s.timers k = some timer) (callee : s.phase.callee = some k) :
    s.weight k = 2 * (s.budget timer - 1) + 2 := by
  unfold TimeWheel.weight
  rw [here]
  dsimp only
  rw [if_pos callee]

theorem weight_away (uncalled : s.phase.callee ≠ some k) (away : ¬ Pending s k) : s.weight k = 0 := by
  unfold TimeWheel.weight
  split
  · rfl
  · rw [if_neg uncalled, if_neg away]

theorem weight_gone (gone : s.timers k = none) : s.weight k = 0 := by
  unfold TimeWheel.weight
  rw [gone]

/-- A list that is empty has nobody waiting in it. -/
theorem Within.pending_iff (within : Within s a t) (other : touches s a ≠ some k) : Pending t k ↔ Pending s k := by
  have frame := within.frame k other
  have mem : ∀ p, k ∈ t.wheel p (t.point p) ↔ k ∈ s.wheel p (s.point p) := by
    intro p
    rw [← List.count_pos_iff, ← List.count_pos_iff, frame.point, frame.wheel]
  unfold Pending
  simp only [mem]
  rcases within.parts with same | ⟨q, before, empty⟩
  · rw [same]
  · rw [before]
    simp [empty]

/-- A timer that a step does not touch keeps its weight. -/
theorem Within.weight_eq (within : Within s a t) (sound : Sound s) (next : step s a = some t) (other : touches s a ≠ some k) :
    t.weight k = s.weight k := by
  have frame := within.frame k other
  have callee : t.phase.callee = some k ↔ s.phase.callee = some k := by
    rw [callee_eq_some, callee_eq_some]
    simp only [within.calling_iff sound next other]
  have budget : ∀ timer, t.budget timer = s.budget timer := by
    intro timer
    simp only [TimeWheel.budget, TimeWheel.today, frame.msec_count, frame.size, frame.point]
  unfold TimeWheel.weight
  simp only [frame.timer, callee, within.pending_iff other, budget]

theorem created_push {p : Part} {i : Int} {id : Nat} (next : s.push p i id = some t) : t.created = s.created := by
  obtain ⟨-, -, rfl⟩ := push_eq_some next
  rfl

/-- Timers are created by `CreateTimer` alone. -/
theorem created_step (next : step s a = some t) (kept : ∀ diff interval count, a ≠ .createTimer diff interval count) :
    t.created = s.created := by
  cases a with
  | createTimer diff interval count => exact absurd rfl (kept diff interval count)
  | removeTimer id =>
    simp only [step, TimeWheel.removeTimer] at next
    split_ifs at next
    split at next
    · cases next
    · rw [← Option.some.inj next]
      rfl
  | update interval =>
    simp only [step] at next
    split_ifs at next
    rw [← Option.some.inj next]
  | go =>
    simp only [step] at next
    split at next
    · rw [← Option.some.inj next]
      unfold TimeWheel.tick
      split_ifs <;> rfl
    · next curr p ps phase =>
      obtain ⟨-, rfl⟩ | ⟨id, ids, timer, -, -, ⟨q, -, pushed⟩ | ⟨-, rfl⟩⟩ := visit_cases next
      · rfl
      · have created := created_push pushed
        exact created
      · unfold TimeWheel.excuteTimer
        split_ifs <;> rfl
    · cases next
  | ret =>
    simp only [step] at next
    split at next
    · next curr ps id phase =>
      obtain ⟨timer, -, -, ⟨-, rfl⟩ | ⟨-, ⟨-, pushed⟩ | ⟨-, placed⟩⟩⟩ := finish_cases next
      · rfl
      · have created := created_push pushed
        exact created
      · obtain ⟨p, pushed⟩ := place_eq_some placed
        have created := created_push pushed
        exact created
    · cases next

/-- The timer that a step touches decides how the total changes. -/
theorem Within.total_le (within : Within s a t) (sound : Sound s) (next : step s a = some t) (created : t.created = s.created)
    (less : ∀ k, touches s a = some k → t.weight k ≤ s.weight k) : t.total ≤ s.total := by
  unfold TimeWheel.total
  rw [created]
  apply Finset.sum_le_sum
  intro j _
  by_cases touch : touches s a = some j
  · exact less j touch
  · exact (within.weight_eq sound next touch).le

theorem Within.total_lt (within : Within s a t) (sound : Sound s) (next : step s a = some t) (created : t.created = s.created)
    (touch : touches s a = some k) (less : t.weight k < s.weight k) : t.total < s.total := by
  have old := sound.touches_lt next within touch
  unfold TimeWheel.total
  rw [created] at old ⊢
  apply Finset.sum_lt_sum
  · intro j _
    by_cases same : j = k
    · rw [same]
      exact less.le
    · apply Nat.le_of_eq
      apply within.weight_eq sound next
      rw [touch]
      exact fun other => same (Option.some.inj other).symm
  · exact ⟨k, Finset.mem_range.2 old, less⟩

end Weights

section Steps

variable {s t u : TimeWheel} {a : Action} {k : Nat} {timer : Timer} {curr : Int} {p : Part} {ps : List Part}

/-- A released timer has no calls left. -/
theorem weight_removeTimer (next : s.removeTimer k = some t) : t.weight k ≤ s.weight k := by
  unfold TimeWheel.removeTimer at next
  cases here : s.timers k with
  | none =>
    rw [here] at next
    cases next
  | some timer =>
    rw [here] at next
    obtain rfl := Option.some.inj next
    have here' : (s.setTimer k (some { timer with bRelease := true })).timers k = some { timer with bRelease := true } :=
      Function.update_self _ _ _
    have none' : (s.setTimer k (some { timer with bRelease := true })).budget { timer with bRelease := true } = 0 := by
      simp [TimeWheel.budget]
    by_cases callee : s.phase.callee = some k
    · rw [weight_calling here callee, weight_calling here' callee, none']
      omega
    · by_cases pending : Pending s k
      · rw [weight_pending here callee pending, weight_pending here' callee pending, none']
        omega
      · rw [weight_away (s := s.setTimer k _) callee pending]
        exact Nat.zero_le _

/-- A timer that goes to a list away from the points is not called in this tick. -/
theorem away_push {i : Int} (nowhere : Nowhere s k) (next : s.push p i k = some t) (other : i ≠ s.point p) : ¬ Pending t k := by
  have moved := nowhere.push next
  obtain ⟨low, -, rfl⟩ := push_eq_some next
  rintro ⟨q, -, mem⟩
  obtain ⟨rfl, slot⟩ := moved.eq mem
  have slot : s.point q = i.toNat := slot
  omega

/-- A timer in the first list of the tick is called, or deleted, or goes to a list of a later tick. -/
theorem weight_visit (live : Live s) (phase : s.phase = .visiting curr (p :: ps))
    (touch : (s.wheel p (s.point p)).head? = some k) (next : s.visit curr p ps = some t) : t.weight k < s.weight k := by
  have pending : Pending s k := by
    refine ⟨p, ?_, List.mem_of_mem_head? touch⟩
    rw [phase]
    exact List.mem_cons_self
  have uncalled : s.phase.callee ≠ some k := by
    rw [phase]
    simp [Phase.callee]
  have whole := (live.sound.parts p ps (by rw [phase]; rfl)).2
  obtain ⟨empty, -⟩ | ⟨id, ids, timer, list, here, way⟩ := visit_cases next
  · rw [empty] at touch
    cases touch
  rw [list] at touch
  obtain rfl := Option.some.inj touch
  obtain ⟨timer', here', -, located, -⟩ := live.listed (by rw [list]; exact List.mem_cons_self)
  obtain rfl := Option.some.inj (here.symm.trans here')
  have nowhere := located.pop list
  rw [weight_pending here uncalled pending]
  obtain ⟨q, found, pushed⟩ | ⟨-, rfl⟩ := way
  · have zero : s.point q = 0 := by
      rw [live.sound.points]
      exact whole q (List.mem_of_find?_eq_some found)
    have other : timer.due q ≠ s.point q := by
      rw [zero]
      simpa using List.find?_some found
    have same : t.phase = s.phase := phase_push (s := s.setWheel p (s.point p) ids) pushed
    rw [weight_away (by rwa [same]) (away_push nowhere pushed other)]
    exact Nat.succ_pos _
  · unfold TimeWheel.excuteTimer
    split
    · next released =>
      have gone : ((s.setWheel p (s.point p) ids).setTimer id none).timers id = none := Function.update_self _ _ _
      rw [weight_gone gone]
      exact Nat.succ_pos _
    · next unreleased =>
      have some' : 0 < s.budget timer := by
        unfold TimeWheel.budget
        rw [if_neg unreleased]
        split_ifs <;> omega
      have called := weight_calling (s := { s.setWheel p (s.point p) ids with
        calls := (s.setWheel p (s.point p) ids).calls ++ [(id, (s.setWheel p (s.point p) ids).msec_count)],
        phase := .calling curr (p :: ps) id }) here rfl
      have same : TimeWheel.budget { s.setWheel p (s.point p) ids with
          calls := (s.setWheel p (s.point p) ids).calls ++ [(id, (s.setWheel p (s.point p) ids).msec_count)],
          phase := .calling curr (p :: ps) id } timer = s.budget timer := rfl
      rw [called, same]
      omega

/-- A due time that has passed is on today's day. -/
theorem today_rearmed (sound : Sound s) (clocked : Clocked s.rate timer)
    (parts : ∀ p, (s.rearmed timer).due p = digit s.rate p (s.today timer.due + ticks s.rate timer.interval.toNat))
    (past : s.today timer.due + ticks s.rate timer.interval.toNat ≤ s.msec_count) :
    s.today (s.rearmed timer).due = s.today timer.due + ticks s.rate timer.interval.toNat := by
  obtain ⟨-, n, start⟩ := clocked
  have first := digit_today sound start .day
  rw [if_pos rfl] at first
  have last := sound.points .day
  have low := floor_mono (M := s.rate) (Nat.le_add_right (s.today timer.due) (ticks s.rate timer.interval.toNat)) .day
  have high := floor_mono (M := s.rate) past .day
  have start' : ∀ p, p ≠ .day →
      (s.rearmed timer).due p = digit s.rate p (s.today timer.due + ticks s.rate timer.interval.toNat) := fun p _ => parts p
  apply eq_of_digits (M := s.rate)
  intro p
  rw [digit_today sound start' p]
  split_ifs with day
  · rw [day]
    simp only [digit, floor] at *
    omega
  · rfl

/-- A timer whose callback is over is deleted, or uses up a part of its budget, or goes to a list of a later tick. -/
theorem weight_finish (live : Live s) (meets : Meets s .ret) (phase : s.phase = .calling curr ps k)
    (next : s.finish curr ps k = some t) : t.weight k < s.weight k := by
  obtain ⟨timer, here, callee, clocked, nowhere⟩ := live.called phase
  rw [weight_calling here (by rw [phase]; rfl)]
  obtain ⟨timer', here', -, ⟨-, rfl⟩ | ⟨more, way⟩⟩ := finish_cases next
  · rw [weight_gone (s := s.back curr ps k none) (Function.update_self _ _ _)]
    omega
  obtain rfl := Option.some.inj (here.symm.trans here')
  obtain ⟨-, parts⟩ := live.rearmed meets.1 callee more clocked
  have moves := (meets.2 rfl timer callee more).2
  have nowhere' : Nowhere (s.back curr ps k (some (s.rearmed timer))) k := nowhere
  obtain ⟨q, i, pushed⟩ : ∃ q i, (s.back curr ps k (some (s.rearmed timer))).push q i k = some t := by
    rcases way with ⟨-, pushed⟩ | ⟨-, placed⟩
    · exact ⟨_, _, pushed⟩
    · obtain ⟨q, pushed⟩ := place_eq_some placed
      exact ⟨_, _, pushed⟩
  obtain ⟨here'', uncalled, same⟩ : t.timers k = some (s.rearmed timer) ∧ t.phase.callee ≠ some k ∧
      t.budget (s.rearmed timer) = s.budget (s.rearmed timer) := by
    obtain ⟨-, -, rfl⟩ := push_eq_some pushed
    exact ⟨Function.update_self _ _ _, by simp [TimeWheel.setWheel, TimeWheel.back, Phase.callee], rfl⟩
  have most := weight_le here'' uncalled
  rw [same] at most
  unfold TimeWheel.budget at most ⊢
  have bRelease : (s.rearmed timer).bRelease = timer.bRelease := rfl
  have count : (s.rearmed timer).count = timer.count - 1 := rfl
  rw [bRelease, count] at most
  by_cases released : timer.bRelease = true
  · rw [if_pos released] at most ⊢
    omega
  rw [if_neg released] at most ⊢
  by_cases last : 0 < timer.count
  · rw [if_pos last]
    rw [if_pos (by omega)] at most
    omega
  rw [if_neg last]
  rw [if_neg (by omega)] at most
  obtain ⟨later, other⟩ | ⟨pos, past⟩ := (moves.resolve_left released).resolve_left last
  · -- the list is that of another tick
    have away : ¬ Pending t k := by
      obtain ⟨soon, -⟩ | ⟨-, placed⟩ := way
      · exact absurd later (Int.not_lt.2 soon)
      rw [place_eq (live.sound.back phase _) parts] at placed
      refine away_push nowhere' placed ?_
      have slot : (s.back curr ps k (some (s.rearmed timer))).point = s.point := rfl
      rw [parts, slot, live.sound.points]
      exact fun same => digit_firstDiff other (Int.ofNat_inj.1 same)
    rw [weight_away uncalled away]
    omega
  · rw [today_rearmed live.sound clocked parts past] at most
    omega

/-- A pass over a list can be made. -/
theorem Live.exists_visit (live : Live s) (phase : s.phase = .visiting curr (p :: ps)) : ∃ t, s.visit curr p ps = some t := by
  have inside : InBounds s .go := live.inBounds trivial
  have accesses : accesses s .go = (p, (s.point p : Int)) ::
      (((s.wheel p (s.point p)).head?.bind s.timers).bind fun timer =>
        (p.below.find? fun q => timer.due q ≠ 0).map fun q => (q, timer.due q)).toList := by
    simp only [Wheel.accesses, phase]
  have point := (inside (p, (s.point p : Int)) (by rw [accesses]; exact List.mem_cons_self)).2
  unfold TimeWheel.visit
  rw [if_neg (Nat.not_le.2 (Int.ofNat_lt.1 point))]
  cases list : s.wheel p (s.point p) with
  | nil => exact ⟨_, rfl⟩
  | cons id ids =>
    obtain ⟨timer, here, -, -, -⟩ := live.listed (k := id) (by rw [list]; exact List.mem_cons_self)
    have here' : (s.setWheel p (s.point p) ids).timers id = some timer := here
    simp only [here']
    cases found : p.below.find? fun q => decide (timer.due q ≠ 0) with
    | none => exact ⟨_, rfl⟩
    | some q =>
      apply push_inside
      apply inside (q, timer.due q)
      rw [accesses, list, List.head?_cons, Option.bind_some, here, Option.bind_some, found]
      simp

/-- `excuteTimer` can go on from a callback. -/
theorem Live.exists_finish (live : Live s) (phase : s.phase = .calling curr ps k) (meets : Meets s .ret) :
    ∃ t, s.finish curr ps k = some t := by
  have inside : InBounds s .ret := live.inBounds meets.1
  obtain ⟨timer, here, callee, -, -⟩ := live.called phase
  unfold InBounds at inside
  rw [accesses_ret callee] at inside
  unfold TimeWheel.finish
  rw [here]
  dsimp only
  by_cases last : timer.count = 1
  · rw [if_neg (by omega), if_pos (by omega)]
    exact ⟨_, rfl⟩
  have least := (meets.2 rfl timer callee last).1
  rw [if_neg last] at inside
  rw [if_neg (Int.not_le.2 least), if_neg (by omega)]
  split
  · next soon =>
    have soon : s.getTimerTick (s.rearmed timer).due ≤ s.msec_count := soon
    apply push_inside
    apply inside (.msec, (s.point .msec : Int))
    rw [if_pos soon]
    exact List.mem_singleton_self _
  · next later =>
    have later : ¬ s.getTimerTick (s.rearmed timer).due ≤ s.msec_count := later
    rw [place_eq_target]
    apply push_inside
    apply inside ((s.target (s.rearmed timer).due), (s.rearmed timer).due (s.target (s.rearmed timer).due))
    rw [if_neg later]
    exact List.mem_singleton_self _

end Steps

/-- Lists are left to visit. -/
def Phase.Listed : Phase → Prop
  | .visiting _ ps => ps ≠ []
  | .calling _ ps _ => ps ≠ []
  | _ => True

/-- What every turn of an update keeps. -/
structure Turning (s : TimeWheel) : Prop where
  live : Live s
  listed : s.phase.Listed

section Turns

variable {s t u : TimeWheel} {as : List Action} {curr : Int} {p : Part} {ps : List Part} {k : Nat}

/-- What a callback leaves: it goes on being called, and nobody has more calls left. -/
structure Called (s u : TimeWheel) : Prop where
  live : Live u
  phase : u.phase = s.phase
  msec_count : u.msec_count = s.msec_count
  total : u.total ≤ s.total

theorem Live.releases (live : Live s) (calls : Runs Wheel.step Releases s as u) : Called s u := by
  refine calls.invariant (Called s) ⟨live, rfl, rfl, Nat.le_refl _⟩ ?_
  rintro u _ v called ⟨k, rfl⟩ next
  obtain ⟨live, phase, now, total⟩ := called
  obtain ⟨curr, ticking, rfl⟩ | within := step_cases next
  · simp [Wheel.step, ticking, Phase.callable] at next
  have created := created_step next (by simp)
  have removed : u.removeTimer k = some v := by
    simp only [Wheel.step] at next
    split_ifs at next
    exact next
  have frame := within.frame (k + 1) (by simp [touches])
  refine ⟨live.step (a := .removeTimer k) trivial next, (phase_removeTimer removed).trans phase, frame.msec_count.trans now, ?_⟩
  refine (within.total_le live.sound next created ?_).trans total
  intro j touch
  obtain rfl := Option.some.inj touch
  exact weight_removeTimer removed

theorem rank_ticking (phase : s.phase = .ticking curr) : s.rank = (2 * (curr - s.msec_count).toNat + 1, 0) := by
  simp only [TimeWheel.rank, phase]

theorem rank_visiting (phase : s.phase = .visiting curr ps) :
    s.rank = (2 * (curr - s.msec_count).toNat + 2, s.total + ps.length) := by
  simp only [TimeWheel.rank, phase]

theorem rank_calling (phase : s.phase = .calling curr ps k) :
    s.rank = (2 * (curr - s.msec_count).toNat + 2, s.total + ps.length) := by
  simp only [TimeWheel.rank, phase]

theorem listed_advance (s : TimeWheel) (curr : Int) : (s.advance curr).phase.Listed := by
  simp only [TimeWheel.advance, TimeWheel.movePoints, Phase.Listed]
  split_ifs <;> exact List.cons_ne_nil _ _

theorem Turning.visit (turning : Turning s) (phase : s.phase = .visiting curr (p :: ps)) (next : step s .go = some t) :
    Turning t ∧ Prod.Lex (· < ·) (· < ·) t.rank s.rank := by
  have sound := turning.live.sound
  have live := turning.live.step (a := .go) trivial next
  have created := created_step next (by simp)
  have visited : s.visit curr p ps = some t := by
    simp only [step, phase] at next
    exact next
  have within := Within.visit phase visited
  obtain ⟨j, other⟩ := exists_untouched s .go
  have now := (within.frame j other).msec_count
  have touches : touches s .go = (s.wheel p (s.point p)).head? := by simp only [touches, phase]
  rw [rank_visiting phase]
  obtain ⟨empty, same⟩ | ⟨id, ids, timer, list, -, way⟩ := visit_cases visited
  · have total : t.total ≤ s.total := by
      apply within.total_le sound next created
      intro k touch
      rw [touches, empty] at touch
      cases touch
    by_cases last : ps = []
    · have after : t.phase = .ticking curr := by rw [same, if_pos last]
      refine ⟨⟨live, by rw [after]; trivial⟩, ?_⟩
      rw [rank_ticking after, now]
      exact .left _ _ (Nat.lt_succ_self _)
    · have after : t.phase = .visiting curr ps := by rw [same, if_neg last]
      refine ⟨⟨live, by rw [after]; exact last⟩, ?_⟩
      rw [rank_visiting after, now]
      refine .right _ ?_
      rw [List.length_cons]
      omega
  · have touch : Wheel.touches s .go = some id := by rw [touches, list, List.head?_cons]
    have less : t.total < s.total := by
      apply within.total_lt sound next created touch
      exact weight_visit turning.live phase (by rw [list, List.head?_cons]) visited
    have after : t.phase = .visiting curr (p :: ps) ∨ t.phase = .calling curr (p :: ps) id := by
      obtain ⟨q, -, pushed⟩ | ⟨-, rfl⟩ := way
      · exact .inl ((phase_push pushed).trans phase)
      · unfold TimeWheel.excuteTimer
        split
        · exact .inl phase
        · exact .inr rfl
    rcases after with after | after
    · refine ⟨⟨live, by rw [after]; exact List.cons_ne_nil _ _⟩, ?_⟩
      rw [rank_visiting after, now]
      exact .right _ (Nat.add_lt_add_right less _)
    · refine ⟨⟨live, by rw [after]; exact List.cons_ne_nil _ _⟩, ?_⟩
      rw [rank_calling after, now]
      exact .right _ (Nat.add_lt_add_right less _)

theorem Turning.go (turning : Turning s) (next : step s .go = some t) :
    Turning t ∧ Prod.Lex (· < ·) (· < ·) t.rank s.rank := by
  cases phase : s.phase with
  | idle => simp [step, phase] at next
  | ticking curr =>
    have live := turning.live.step (a := .go) trivial next
    have rank := rank_ticking phase
    simp only [step, phase] at next
    obtain rfl := Option.some.inj next
    rw [rank]
    unfold TimeWheel.tick at live ⊢
    split_ifs at live ⊢ with less
    · have now : (s.advance curr).msec_count = s.msec_count + 1 := rfl
      refine ⟨⟨live, listed_advance s curr⟩, .left _ _ ?_⟩
      rw [now]
      omega
    · refine ⟨⟨live, trivial⟩, .left _ _ (Nat.succ_pos _)⟩
  | visiting curr parts =>
    cases parts with
    | nil => simp [step, phase] at next
    | cons p ps => exact turning.visit phase next
  | calling curr ps k => simp [step, phase] at next

theorem Turning.ret (turning : Turning s) (phase : s.phase = .calling curr ps k) (calls : Runs step Releases s as u)
    (meets : Meets u .ret) (next : step u .ret = some t) : Turning t ∧ Prod.Lex (· < ·) (· < ·) t.rank s.rank := by
  obtain ⟨live, same, now, total⟩ := turning.live.releases calls
  have phase' := same.trans phase
  have created := created_step next (by simp)
  have ended : u.finish curr ps k = some t := by
    simp only [step, phase'] at next
    exact next
  obtain ⟨_, ticking, -⟩ | within := step_cases next
  · rw [phase'] at ticking
    cases ticking
  have touch : touches u .ret = some k := by simp only [touches, phase']
  obtain ⟨j, other⟩ := exists_untouched u .ret
  have now' := (within.frame j other).msec_count
  have less := within.total_lt live.sound next created touch (weight_finish live meets phase' ended)
  have after := phase_finish ended
  have listed := turning.listed
  rw [phase] at listed
  refine ⟨⟨live.step meets.1 next, by rw [after]; exact listed⟩, ?_⟩
  rw [rank_visiting after, rank_calling phase, now', now]
  exact .right _ (Nat.add_lt_add_right (Nat.lt_of_lt_of_le less total) _)

/-- **One turn of an update** lowers the rank. -/
theorem Turning.turn (turning : Turning s) (turn : Turn Meets s t) :
    Turning t ∧ Prod.Lex (· < ·) (· < ·) t.rank s.rank := by
  cases turn with
  | go next => exact turning.go next
  | callback as u calls meets next =>
    cases phase : s.phase with
    | calling curr ps k => exact turning.ret phase calls meets next
    | idle => simp [step, (turning.live.releases calls).phase, phase] at next
    | ticking curr => simp [step, (turning.live.releases calls).phase, phase] at next
    | visiting curr ps => simp [step, (turning.live.releases calls).phase, phase] at next

/-- A turn can be taken, unless the update is over or its callback cannot return. -/
theorem Turning.progress (turning : Turning s) (going : ¬ Halts Meets s) : ∃ t, Turn Meets s t := by
  cases phase : s.phase with
  | idle => exact absurd (.inl phase) going
  | ticking curr =>
    refine ⟨s.tick curr, .go ?_⟩
    simp only [step, phase]
  | visiting curr parts =>
    cases parts with
    | nil =>
      have listed := turning.listed
      rw [phase] at listed
      exact absurd rfl listed
    | cons p ps =>
      obtain ⟨t, next⟩ := turning.live.exists_visit phase
      refine ⟨t, .go ?_⟩
      simp only [step, phase]
      exact next
  | calling curr ps k =>
    have returns : ∃ as u, Runs step Releases s as u ∧ Meets u .ret := by
      by_contra never
      refine going (.inr ⟨⟨curr, ps, k, phase⟩, fun as u calls meets => ?_⟩)
      exact never ⟨as, u, calls, meets⟩
    obtain ⟨as, u, calls, meets⟩ := returns
    obtain ⟨live, same, -, -⟩ := turning.live.releases calls
    have phase' := same.trans phase
    obtain ⟨t, next⟩ := live.exists_finish phase' meets
    refine ⟨t, .callback as u calls meets ?_⟩
    simp only [step, phase']
    exact next

end Turns

/-- **Updates end.** From every `Init`, after every run whose steps meet the condition, `Update` comes to its end through
turns that meet it, whatever the callbacks release. -/
theorem update_ends (w : SizeT) (day_count millsec_count : Nat) (days : 0 < day_count ∧ day_count < 2 ^ 31)
    (rate : 0 < millsec_count) (as : List Action) (s : TimeWheel) (run : Runs step Meets (init w day_count millsec_count) as s)
    (idle : s.phase = .idle) (interval : Int) (fits : Fits s (.update interval)) :
    ∃ t, step s (.update interval) = some t ∧ Returns (Turn Meets) (Halts Meets) t := by
  have live : Live s := by
    have run' := run.mono fun _ _ meets => meets.1
    rcases Nat.lt_or_ge 1000 millsec_count with many | few
    · rw [init_clip w day_count many] at run'
      exact live_run (by decide) days run'
    · exact live_run ⟨rate, few⟩ days run'
  have next : step s (.update interval) = some { s with phase := .ticking (s.sizeT.scale interval (s.size .msec)) } := by
    simp only [step, if_pos idle]
  have start : Turning { s with phase := .ticking (s.sizeT.scale interval (s.size .msec)) } := ⟨live.step fits next, trivial⟩
  refine ⟨_, next, ?_⟩
  apply Returns.of_rank (WellFounded.prod_lex Nat.lt_wfRel.wf Nat.lt_wfRel.wf) TimeWheel.rank Turning start
  · intro u turning going
    exact turning.progress going
  · intro u v turning _ turn
    exact turning.turn turn

/-- The update over the first four ticks of a wheel with a timer of 150 ms, every 250 ms. -/
theorem update_ends_series : ∃ s t, Runs step Meets (init .w64 1 10) [.createTimer 150 250 (-1)] s ∧
    step s (.update 400) = some t ∧ Returns (Turn Meets) (Halts Meets) t := by
  have ran : ∃ s, Runs step Meets (init .w64 1 10) [.createTimer 150 250 (-1)] s ∧
      (s.phase = .idle ∧ Fits s (.update 400)) := by
    apply Runs.exists_of_decide
    decide +kernel
  obtain ⟨s, run, idle, fits⟩ := ran
  obtain ⟨t, next, ends⟩ := update_ends .w64 1 10 (by decide) (by decide) _ s run idle 400 fits
  exact ⟨s, t, run, next, ends⟩

/-- The timer 0, with no interval and no last call, is in the list of the first tick or being called. -/
structure Spinning (s : TimeWheel) : Prop where
  sizeT : s.sizeT = .w64
  rate : s.size .msec = 1
  point : s.point .day = 0 ∧ s.point .msec = 0
  now : s.msec_count = 1
  timer : ∃ timer ∈ s.timers 0, timer.interval = 0 ∧ timer.count < 0 ∧ timer.bRelease = false ∧
    timer.due .hour = 0 ∧ timer.due .min = 0 ∧ timer.due .sec = 0 ∧ timer.due .msec = 0
  phase : s.phase = .visiting 1 [.msec] ∧ s.wheel .msec 0 = [0] ∨ s.phase = .calling 1 [.msec] 0 ∧ s.wheel .msec 0 = []

section Spinning

variable {s t u : TimeWheel} {as : List Action}

theorem Spinning.visit (spinning : Spinning s) (phase : s.phase = .visiting 1 [.msec]) (list : s.wheel .msec 0 = [0]) :
    ∃ t, step s .go = some t ∧ Spinning t := by
  obtain ⟨sizeT, rate, point, now, ⟨timer, here, interval, count, unreleased, due⟩, -⟩ := spinning
  have here : s.timers 0 = some timer := here
  have popped : (s.setWheel .msec 0 []).timers 0 = some timer := here
  have next : step s .go = some ((s.setWheel .msec 0 []).excuteTimer 1 [.msec] 0 timer) := by
    simp only [step, phase, TimeWheel.visit, rate, point.2]
    rw [if_neg (by decide), list]
    simp only [popped]
    rfl
  refine ⟨_, next, ?_⟩
  unfold TimeWheel.excuteTimer
  rw [if_neg (by rw [unreleased]; decide)]
  refine ⟨sizeT, rate, point, now, ⟨timer, here, interval, count, unreleased, due⟩, .inr ⟨rfl, ?_⟩⟩
  simp [TimeWheel.setWheel]

/-- Callbacks leave the counts alone. -/
theorem count_releases (calls : Runs step Releases s as u) :
    u.phase = s.phase ∧ (u.timers 0).map Timer.count = (s.timers 0).map Timer.count := by
  refine calls.invariant (fun u => u.phase = s.phase ∧ (u.timers 0).map Timer.count = (s.timers 0).map Timer.count) ⟨rfl, rfl⟩ ?_
  rintro u _ v ⟨phase, count⟩ ⟨k, rfl⟩ next
  simp only [step] at next
  split_ifs at next
  refine ⟨(phase_removeTimer next).trans phase, Eq.trans ?_ count⟩
  unfold TimeWheel.removeTimer at next
  cases here : u.timers k with
  | none =>
    rw [here] at next
    cases next
  | some timer =>
    rw [here] at next
    obtain rfl := Option.some.inj next
    by_cases same : k = 0
    · subst same
      simp [TimeWheel.setTimer, here]
    · have other : 0 ≠ k := fun zero => same zero.symm
      simp [TimeWheel.setTimer, other]

/-- The timer goes back to the list it came from. -/
theorem Spinning.ret (spinning : Spinning s) (phase : s.phase = .calling 1 [.msec] 0) (list : s.wheel .msec 0 = [])
    (calls : Runs step Releases s as u) (next : step u .ret = some t) : ∃ t, step s .ret = some t ∧ Spinning t := by
  obtain ⟨sizeT, rate, ⟨day, msec⟩, now, ⟨timer, here, interval, count, unreleased, due⟩, -⟩ := spinning
  have here : s.timers 0 = some timer := here
  have least : -2 ^ 31 < timer.count := by
    obtain ⟨same, counts⟩ := count_releases calls
    simp only [step, same, phase] at next
    obtain ⟨timer', here', least, -⟩ := finish_cases next
    rw [here, here'] at counts
    have counts := Option.some.inj counts
    omega
  obtain ⟨hour, min, sec, msec'⟩ := due
  have parts : ∀ p, s.addParts timer.due 0 p = 0 := by
    intro p
    simp only [TimeWheel.addParts, TimeWheel.parts, sizeT, rate, day, hour, min, sec, msec']
    cases p <;> decide
  have tick : s.getTimerTick (s.addParts timer.due 0) ≤ s.msec_count := by
    simp only [TimeWheel.getTimerTick, parts, sizeT, rate, now]
    decide
  have pushed : (s.back 1 [.msec] 0 (some (s.rearmed timer))).push .msec (s.point .msec) 0 =
      some ((s.back 1 [.msec] 0 (some (s.rearmed timer))).setWheel .msec 0 [0]) := by
    have wheel : (s.back 1 [.msec] 0 (some (s.rearmed timer))).wheel .msec 0 = [] := list
    have size : (s.back 1 [.msec] 0 (some (s.rearmed timer))).size .msec = 1 := rate
    unfold TimeWheel.push
    rw [msec, size, if_pos (by decide)]
    simp [wheel]
  have next : step s .ret = some ((s.back 1 [.msec] 0 (some (s.rearmed timer))).setWheel .msec 0 [0]) := by
    simp only [step, phase, TimeWheel.finish, here]
    rw [if_neg (Int.not_le.2 least), if_neg (by omega)]
    rw [← interval] at tick
    exact (if_pos tick).trans pushed
  have due : ∀ p, (s.rearmed timer).due p = 0 := by
    intro p
    rw [TimeWheel.rearmed, interval]
    exact parts p
  have count' : (s.rearmed timer).count = timer.count - 1 := rfl
  have again : (s.back 1 [.msec] 0 (some (s.rearmed timer))).timers 0 = some (s.rearmed timer) := by
    simp [TimeWheel.back]
  refine ⟨_, next, sizeT, rate, ⟨day, msec⟩, now, ⟨s.rearmed timer, again, interval, ?_, unreleased, ?_⟩, ?_⟩
  · omega
  · exact ⟨due .hour, due .min, due .sec, due .msec⟩
  · refine .inl ⟨rfl, ?_⟩
    simp [TimeWheel.setWheel]

theorem Spinning.turn (spinning : Spinning s) (turn : Turn Any s t) : ∃ t, Turn Any s t ∧ Spinning t := by
  rcases spinning.phase with ⟨phase, list⟩ | ⟨phase, list⟩
  · obtain ⟨t, next, spins⟩ := spinning.visit phase list
    exact ⟨t, .go next, spins⟩
  · cases turn with
    | go next => simp [step, phase] at next
    | callback as u calls _ next =>
      obtain ⟨t, next, spins⟩ := spinning.ret phase list calls next
      exact ⟨t, .callback [] s .refl trivial next, spins⟩

end Spinning

/-- A timer of no milliseconds without a last call, and an update over one tick. -/
theorem instant_spins : ∃ s t, Runs step Any (init .w64 1 1) [.createTimer 0 0 (-1)] s ∧ s.phase = .idle ∧
    step s (.update 1000) = some t ∧ ¬ Returns (Turn Any) (fun s => s.phase = .idle) t := by
  have checked : ((runChecked step (fun _ _ => true) (init .w64 1 1) [.createTimer 0 0 (-1)]).bind fun s =>
      (step s (.update 1000)).bind fun t =>
        runChecked step (fun s a => decide (s.phase ≠ .idle ∧ a = .go)) t [.go, .go, .go]).any
        (fun s => decide (s.sizeT = .w64 ∧ s.size .msec = 1 ∧ (s.point .day = 0 ∧ s.point .msec = 0) ∧ s.msec_count = 1 ∧
          (∃ timer ∈ s.timers 0, timer.interval = 0 ∧ timer.count < 0 ∧ timer.bRelease = false ∧
            timer.due .hour = 0 ∧ timer.due .min = 0 ∧ timer.due .sec = 0 ∧ timer.due .msec = 0) ∧
          s.phase = .calling 1 [.msec] 0 ∧ s.wheel .msec 0 = [])) = true := by decide +kernel
  obtain ⟨u, reached, holds⟩ := (Option.any_eq_true _ _).1 checked
  obtain ⟨s, created, reached⟩ := Option.bind_eq_some_iff.1 reached
  obtain ⟨t, updated, reached⟩ := Option.bind_eq_some_iff.1 reached
  obtain ⟨sizeT, rate, point, now, timer, phase⟩ := of_decide_eq_true holds
  have spinning : Spinning u := ⟨sizeT, rate, point, now, timer, .inr phase⟩
  have goes : Runs step (fun s a => s.phase ≠ .idle ∧ a = .go) t [.go, .go, .go] u :=
    Runs.of_checked (fun _ _ good => of_decide_eq_true good) reached
  have idle : s.phase = .idle := by
    simp only [step] at updated
    split_ifs at updated with idle
    exact idle
  refine ⟨s, t, Runs.of_checked (fun _ _ _ => trivial) created, idle, updated, fun returns => ?_⟩
  have returns' : Returns (Turn Any) (fun s => s.phase = .idle) u := by
    refine goes.invariant (Returns (Turn Any) fun s => s.phase = .idle) returns ?_
    rintro v _ v' returns ⟨going, rfl⟩ next
    exact returns.next going (.go next)
  refine not_returns Spinning spinning ?_ (fun _ _ spinning turn => spinning.turn turn) returns'
  intro v spinning idle
  rcases spinning.phase with ⟨phase, -⟩ | ⟨phase, -⟩
  · rw [phase] at idle
    cases idle
  · rw [phase] at idle
    cases idle

end GameServer.Timers.Wheel
