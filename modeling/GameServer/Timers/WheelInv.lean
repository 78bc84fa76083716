import GameServer.Timers.WheelTicks

/-!
# Where a timer waits

`Sound` holds of every state the wheel gets to: the points are the parts of the tick and
the wheels still to visit have nothing below them. `Waiting` follows one timer: it is in
one list, in the wheel where a timer with its due tick is `Placed`. A step leaves it
waiting or calls it at its due tick (`Waiting.step`); what other timers do does not touch
it (`Frame`).
-/

namespace GameServer.Timers.Wheel

/-- The ticks in a second. -/
def TimeWheel.rate (s : TimeWheel) : Nat := s.size .msec

/-- The wheels to visit in this tick. -/
def Phase.parts : Phase → List Part
  | .visiting _ ps => ps
  | .calling _ ps _ => ps
  | _ => []

/-- The ticks at which `k` was called. -/
def TimeWheel.callsOf (s : TimeWheel) (k : Nat) : List Nat := (s.calls.filter fun c => c.1 = k).map Prod.snd

structure Sound (s : TimeWheel) : Prop where
  sizes : s.size .hour = 24 ∧ s.size .min = 60 ∧ s.size .sec = 60
  days : s.size .day < 2 ^ 31
  rate : 0 < s.rate ∧ s.rate ≤ 1000
  points : ∀ p, s.point p = digit s.rate p s.msec_count
  parts : ∀ p ps, s.phase.parts = p :: ps → ps = p.below ∧ Whole s.rate p s.msec_count
  fresh : ∀ k, s.created ≤ k → (∀ p i, (s.wheel p i).count k = 0) ∧ s.timers k = none ∧ s.callsOf k = []
  called : ∀ curr ps id, s.phase = .calling curr ps id → id < s.created

/-- `t` differs from `s` in nothing that concerns `k`, the phase apart. -/
structure Frame (k : Nat) (s t : TimeWheel) : Prop where
  wheel : ∀ p i, (t.wheel p i).count k = (s.wheel p i).count k
  timer : t.timers k = s.timers k
  calls : t.callsOf k = s.callsOf k
  sizeT : t.sizeT = s.sizeT
  size : t.size = s.size
  point : t.point = s.point
  msec_count : t.msec_count = s.msec_count
  created : s.created ≤ t.created

section Frames

variable {k id : Nat} {s t u : TimeWheel} {p : Part} {i : Int}

theorem Frame.refl (k : Nat) (s : TimeWheel) : Frame k s s :=
  ⟨fun _ _ => rfl, rfl, rfl, rfl, rfl, rfl, rfl, le_refl _⟩

theorem Frame.trans (first : Frame k s t) (second : Frame k t u) : Frame k s u where
  wheel p i := (second.wheel p i).trans (first.wheel p i)
  timer := second.timer.trans first.timer
  calls := second.calls.trans first.calls
  sizeT := second.sizeT.trans first.sizeT
  size := second.size.trans first.size
  point := second.point.trans first.point
  msec_count := second.msec_count.trans first.msec_count
  created := first.created.trans second.created

theorem push_eq_some (next : s.push p i id = some t) :
    0 ≤ i ∧ i < s.size p ∧ t = s.setWheel p i.toNat (s.wheel p i.toNat ++ [id]) := by
  unfold TimeWheel.push at next
  split_ifs at next with inside
  exact ⟨inside.1, inside.2, (Option.some.inj next).symm⟩

theorem place_eq_some {due : Part → Int} (next : s.place due id = some t) : ∃ p, s.push p (due p) id = some t := by
  unfold TimeWheel.place at next
  split_ifs at next <;> exact ⟨_, next⟩

theorem frame_setWheel {i : Nat} {ids : List Nat} (same : ids.count k = (s.wheel p i).count k) :
    Frame k s (s.setWheel p i ids) := by
  refine ⟨?_, rfl, rfl, rfl, rfl, rfl, rfl, le_refl _⟩
  intro q j
  simp only [TimeWheel.setWheel]
  split_ifs with here
  · rw [same, here.1, here.2]
  · rfl

theorem frame_push (other : id ≠ k) (next : s.push p i id = some t) : Frame k s t := by
  obtain ⟨-, -, rfl⟩ := push_eq_some next
  exact frame_setWheel (by simp [other])

theorem frame_place {due : Part → Int} (other : id ≠ k) (next : s.place due id = some t) : Frame k s t := by
  obtain ⟨p, next⟩ := place_eq_some next
  exact frame_push other next

theorem frame_setTimer (other : id ≠ k) (timer : Option Timer) : Frame k s (s.setTimer id timer) := by
  refine ⟨fun _ _ => rfl, ?_, rfl, rfl, rfl, rfl, rfl, le_refl _⟩
  simp [TimeWheel.setTimer, Ne.symm other]

theorem frame_phase (phase : Phase) : Frame k s { s with phase := phase } :=
  ⟨fun _ _ => rfl, rfl, rfl, rfl, rfl, rfl, rfl, le_refl _⟩

theorem frame_newTimer (other : s.created ≠ k) (timer : Timer) : Frame k s (s.newTimer timer) := by
  refine ⟨fun _ _ => rfl, ?_, rfl, rfl, rfl, rfl, rfl, Nat.le_succ _⟩
  simp [TimeWheel.newTimer, Ne.symm other]

theorem frame_createTimer {diff interval count : Int} (other : s.created ≠ k)
    (next : s.createTimer diff interval count = some t) : Frame k s t :=
  (frame_newTimer other _).trans (frame_place other next)

theorem frame_removeTimer (other : id ≠ k) (next : s.removeTimer id = some t) : Frame k s t := by
  unfold TimeWheel.removeTimer at next
  split at next
  · cases next
  · rw [← Option.some.inj next]
    exact frame_setTimer other _

theorem frame_excuteTimer (other : id ≠ k) (curr : Int) (ps : List Part) (timer : Timer) :
    Frame k s (s.excuteTimer curr ps id timer) := by
  unfold TimeWheel.excuteTimer
  split_ifs
  · exact frame_setTimer other none
  · refine ⟨fun _ _ => rfl, rfl, ?_, rfl, rfl, rfl, rfl, le_refl _⟩
    simp [TimeWheel.callsOf, List.filter_append, other]

theorem frame_back (other : id ≠ k) (curr : Int) (ps : List Part) (timer : Option Timer) :
    Frame k s (s.back curr ps id timer) := by
  refine ⟨fun _ _ => rfl, ?_, rfl, rfl, rfl, rfl, rfl, le_refl _⟩
  simp [TimeWheel.back, Ne.symm other]

/-- A timer that is armed again, with its next due time and one call less to come. -/
def TimeWheel.rearmed (s : TimeWheel) (timer : Timer) : Timer :=
  { timer with due := s.addParts timer.due timer.interval, count := timer.count - 1 }

/-- What `excuteTimer` can do after the callback. -/
theorem finish_cases {curr : Int} {ps : List Part} (next : s.finish curr ps id = some t) :
    ∃ timer, s.timers id = some timer ∧ -2 ^ 31 < timer.count ∧
      (timer.count = 1 ∧ t = s.back curr ps id none ∨ timer.count ≠ 1 ∧
        (s.getTimerTick (s.rearmed timer).due ≤ s.msec_count ∧
            (s.back curr ps id (some (s.rearmed timer))).push .msec (s.point .msec) id = some t ∨
          (s.msec_count : Int) < s.getTimerTick (s.rearmed timer).due ∧
            (s.back curr ps id (some (s.rearmed timer))).place (s.rearmed timer).due id = some t)) := by
  unfold TimeWheel.finish at next
  cases here : s.timers id with
  | none =>
    rw [here] at next
    cases next
  | some timer =>
    rw [here] at next
    dsimp only at next
    split_ifs at next with least last soon
    · exact ⟨timer, rfl, by omega, .inl ⟨by omega, (Option.some.inj next).symm⟩⟩
    · exact ⟨timer, rfl, by omega, .inr ⟨by omega, .inl ⟨soon, next⟩⟩⟩
    · exact ⟨timer, rfl, by omega, .inr ⟨by omega, .inr ⟨Int.not_le.1 soon, next⟩⟩⟩

theorem frame_finish {curr : Int} {ps : List Part} (other : id ≠ k) (next : s.finish curr ps id = some t) :
    Frame k s t := by
  obtain ⟨timer, -, -, ⟨-, rfl⟩ | ⟨-, ⟨-, pushed⟩ | ⟨-, placed⟩⟩⟩ := finish_cases next
  · exact frame_back other _ _ _
  · exact (frame_back other _ _ _).trans (frame_push other pushed)
  · exact (frame_back other _ _ _).trans (frame_place other placed)

/-- What one pass over the list at a point can do. -/
theorem visit_cases {curr : Int} {ps : List Part} (next : s.visit curr p ps = some t) :
    (s.wheel p (s.point p) = [] ∧ t = { s with phase := if ps = [] then .ticking curr else .visiting curr ps }) ∨
      ∃ id ids timer, s.wheel p (s.point p) = id :: ids ∧ s.timers id = some timer ∧
        ((∃ q, p.below.find? (fun q => decide (timer.due q ≠ 0)) = some q ∧
            (s.setWheel p (s.point p) ids).push q (timer.due q) id = some t) ∨
          p.below.find? (fun q => decide (timer.due q ≠ 0)) = none ∧
            t = (s.setWheel p (s.point p) ids).excuteTimer curr (p :: ps) id timer) := by
  unfold TimeWheel.visit at next
  by_cases outside : s.size p ≤ s.point p
  · rw [if_pos outside] at next
    cases next
  rw [if_neg outside] at next
  cases list : s.wheel p (s.point p) with
  | nil =>
    rw [list] at next
    exact .inl ⟨rfl, (Option.some.inj next).symm⟩
  | cons id ids =>
    rw [list] at next
    dsimp only at next
    split at next
    · cases next
    next timer pool =>
    refine .inr ⟨id, ids, timer, rfl, pool, ?_⟩
    split at next
    · next q found => exact .inl ⟨q, found, next⟩
    · next found => exact .inr ⟨found, (Option.some.inj next).symm⟩

theorem frame_visit {curr : Int} {ps : List Part} (other : (s.wheel p (s.point p)).head? ≠ some k)
    (next : s.visit curr p ps = some t) : Frame k s t := by
  obtain ⟨-, rfl⟩ | ⟨id, ids, timer, list, -, way⟩ := visit_cases next
  · exact frame_phase _
  · rw [list, List.head?_cons] at other
    have other : id ≠ k := fun same => other (by rw [same])
    have popped : Frame k s (s.setWheel p (s.point p) ids) := frame_setWheel (by simp [list, other])
    obtain ⟨q, -, pushed⟩ | ⟨-, rfl⟩ := way
    · exact popped.trans (frame_push other pushed)
    · exact popped.trans (frame_excuteTimer other _ _ _)

theorem phase_push (next : s.push p i id = some t) : t.phase = s.phase := by
  obtain ⟨-, -, rfl⟩ := push_eq_some next
  rfl

theorem phase_place {due : Part → Int} (next : s.place due id = some t) : t.phase = s.phase := by
  obtain ⟨p, next⟩ := place_eq_some next
  exact phase_push next

theorem phase_createTimer {diff interval count : Int} (next : s.createTimer diff interval count = some t) :
    t.phase = s.phase := by
  have phase := phase_place next
  exact phase

theorem phase_removeTimer (next : s.removeTimer id = some t) : t.phase = s.phase := by
  unfold TimeWheel.removeTimer at next
  split at next
  · cases next
  · rw [← Option.some.inj next]
    rfl

theorem phase_finish {curr : Int} {ps : List Part} (next : s.finish curr ps id = some t) : t.phase = .visiting curr ps := by
  obtain ⟨timer, -, -, ⟨-, rfl⟩ | ⟨-, ⟨-, pushed⟩ | ⟨-, placed⟩⟩⟩ := finish_cases next
  · rfl
  · exact phase_push pushed
  · exact phase_place placed

end Frames

/-- The timer a step is about. -/
def touches (s : TimeWheel) : Action → Option Nat
  | .createTimer _ _ _ => some s.created
  | .removeTimer id => some id
  | .update _ => none
  | .go => match s.phase with
    | .visiting _ (p :: _) => (s.wheel p (s.point p)).head?
    | _ => none
  | .ret => match s.phase with
    | .calling _ _ id => some id
    | _ => none

/-- The ways a step is about a timer. -/
theorem touch_cases {s t : TimeWheel} {a : Action} {k : Nat} (next : step s a = some t) (touch : touches s a = some k) :
    (∃ diff interval count, a = .createTimer diff interval count ∧ s.created = k ∧ s.createTimer diff interval count = some t) ∨
      (a = .removeTimer k ∧ s.removeTimer k = some t) ∨
      (∃ curr p ps, a = .go ∧ s.phase = .visiting curr (p :: ps) ∧ (s.wheel p (s.point p)).head? = some k ∧
        s.visit curr p ps = some t) ∨
      ∃ curr ps, a = .ret ∧ s.phase = .calling curr ps k ∧ s.finish curr ps k = some t := by
  cases a with
  | createTimer diff interval count =>
    simp only [step] at next
    split_ifs at next
    exact .inl ⟨diff, interval, count, rfl, Option.some.inj touch, next⟩
  | removeTimer id =>
    obtain rfl := Option.some.inj touch
    simp only [step] at next
    split_ifs at next
    exact .inr (.inl ⟨rfl, next⟩)
  | update interval => cases touch
  | go =>
    simp only [touches] at touch
    split at touch
    · next curr p ps phase =>
      simp only [step, phase] at next
      exact .inr (.inr (.inl ⟨curr, p, ps, rfl, phase, touch, next⟩))
    · cases touch
  | ret =>
    simp only [touches] at touch
    split at touch
    · next curr ps id phase =>
      obtain rfl := Option.some.inj touch
      simp only [step, phase] at next
      exact .inr (.inr (.inr ⟨curr, ps, rfl, phase, next⟩))
    · cases touch

/-- A step within a tick: the wheels to visit stay, or the first of them is empty and done. -/
structure Within (s : TimeWheel) (a : Action) (t : TimeWheel) : Prop where
  parts : t.phase.parts = s.phase.parts ∨
    ∃ p, s.phase.parts = p :: t.phase.parts ∧ s.wheel p (s.point p) = []
  frame : ∀ k, touches s a ≠ some k → Frame k s t
  calling : ∀ curr ps id, t.phase = .calling curr ps id → s.phase = .calling curr ps id ∨ touches s a = some id

section Within

variable {s t : TimeWheel} {a : Action}

theorem Within.of_phase (phase : t.phase = s.phase) (frame : ∀ k, touches s a ≠ some k → Frame k s t) : Within s a t := by
  refine ⟨.inl (by rw [phase]), frame, fun curr ps id calling => .inl ?_⟩
  rw [← phase]
  exact calling

theorem Within.visit {curr : Int} {p : Part} {ps : List Part} (phase : s.phase = .visiting curr (p :: ps))
    (next : s.visit curr p ps = some t) : Within s .go t := by
  have touch : touches s .go = (s.wheel p (s.point p)).head? := by simp only [touches, phase]
  have frame : ∀ k, touches s .go ≠ some k → Frame k s t := fun k other => frame_visit (touch ▸ other) next
  obtain ⟨empty, rfl⟩ | ⟨id, ids, timer, list, -, ⟨q, -, pushed⟩ | ⟨-, rfl⟩⟩ := visit_cases next
  · refine ⟨.inr ⟨p, ?_, empty⟩, frame, ?_⟩
    · by_cases last : ps = []
      · simp [phase, last, Phase.parts]
      · simp [phase, last, Phase.parts]
    · intro curr' ps' id' calling
      by_cases last : ps = [] <;> simp [last] at calling
  · have popped : t.phase = (s.setWheel p (s.point p) ids).phase := phase_push pushed
    exact .of_phase popped frame
  · unfold TimeWheel.excuteTimer at frame ⊢
    split_ifs at frame ⊢
    · exact .of_phase rfl frame
    · refine ⟨.inl (by rw [phase]; rfl), frame, fun curr' ps' id' calling => .inr ?_⟩
      simp only [Phase.calling.injEq] at calling
      rw [touch, list, List.head?_cons, calling.2.2]

/-- What one step can do: the next tick begins, or the step is within one. -/
theorem step_cases (next : step s a = some t) :
    (∃ curr, s.phase = .ticking curr ∧ t = s.advance curr) ∨ Within s a t := by
  cases a with
  | createTimer diff interval count =>
    simp only [step] at next
    split_ifs at next
    exact .inr (.of_phase (phase_createTimer next) fun k other =>
      frame_createTimer (fun same => other (by rw [← same]; rfl)) next)
  | removeTimer id =>
    simp only [step] at next
    split_ifs at next
    exact .inr (.of_phase (phase_removeTimer next) fun k other =>
      frame_removeTimer (fun same => other (by rw [← same]; rfl)) next)
  | update interval =>
    simp only [step] at next
    split_ifs at next with idle
    rw [← Option.some.inj next]
    exact .inr ⟨.inl (by rw [idle]; rfl), fun k _ => frame_phase _, by simp⟩
  | go =>
    simp only [step] at next
    split at next
    · next curr phase =>
      have next := Option.some.inj next
      unfold TimeWheel.tick at next
      split_ifs at next
      · exact .inl ⟨curr, phase, next.symm⟩
      · subst next
        exact .inr ⟨.inl (by rw [phase]; rfl), fun k _ => frame_phase _, by simp⟩
    · next curr p ps phase => exact .inr (.visit phase next)
    · cases next
  | ret =>
    simp only [step] at next
    split at next
    · next curr ps id phase =>
      right
      have touch : touches s .ret = some id := by simp only [touches, phase]
      refine ⟨.inl ?_, fun k other => frame_finish (fun same => other (by rw [touch, same])) next, ?_⟩
      · rw [phase_finish next, phase]
        rfl
      · intro curr' ps' id' calling
        rw [phase_finish next] at calling
        cases calling
    · cases next

end Within

/-- The points become the parts of the next tick. -/
theorem movePoints_eq {size : Part → Nat} {n : Nat} (pos : 0 < size .msec)
    (sizes : size .hour = 24 ∧ size .min = 60 ∧ size .sec = 60) :
    TimeWheel.movePoints size (fun p => digit (size .msec) p n) =
      (fun p => digit (size .msec) p (n + 1), rolled (size .msec) (n + 1) :: (rolled (size .msec) (n + 1)).below) := by
  obtain ⟨hour, min, sec⟩ := sizes
  unfold TimeWheel.movePoints
  simp only [Function.update_self, ne_eq, reduceCtorEq, not_false_eq_true, Function.update_of_ne, hour, min, sec, digit]
  generalize size .msec = M at *
  rcases succ_cases pos n with ⟨less, rest, second⟩ | ⟨last, rest, second⟩
  · rw [if_pos (by omega)]
    refine Prod.ext (funext fun p => ?_) ?_
    · cases p <;> simp [Function.update, second, rest]
    · simp [rolled, rest, Part.below]
  rw [if_neg (by omega)]
  by_cases sec' : n / M % 60 + 1 = 60
  · rw [if_neg (by omega)]
    by_cases min' : n / M / 60 % 60 + 1 = 60
    · rw [if_neg (by omega)]
      by_cases hour' : n / M / 3600 % 24 + 1 = 24
      · rw [if_neg (by omega)]
        have roll : rolled M (n + 1) = .day := by
          simp only [rolled, rest, second]
          rw [if_neg (by omega), if_neg (by omega), if_neg (by omega), if_neg (by omega)]
        refine Prod.ext (funext fun p => ?_) (by rw [roll]; rfl)
        cases p <;> simp [Function.update, second, rest] <;> omega
      · rw [if_pos (by omega)]
        have roll : rolled M (n + 1) = .hour := by
          simp only [rolled, rest, second]
          rw [if_neg (by omega), if_neg (by omega), if_neg (by omega), if_pos (by omega)]
        refine Prod.ext (funext fun p => ?_) (by rw [roll]; rfl)
        cases p <;> simp [Function.update, second, rest] <;> omega
    · rw [if_pos (by omega)]
      have roll : rolled M (n + 1) = .min := by
        simp only [rolled, rest, second]
        rw [if_neg (by omega), if_neg (by omega), if_pos (by omega)]
      refine Prod.ext (funext fun p => ?_) (by rw [roll]; rfl)
      cases p <;> simp [Function.update, second, rest] <;> omega
  · rw [if_pos (by omega)]
    have roll : rolled M (n + 1) = .sec := by
      simp only [rolled, rest, second]
      rw [if_neg (by omega), if_pos (by omega)]
    refine Prod.ext (funext fun p => ?_) (by rw [roll]; rfl)
    cases p <;> simp [Function.update, second, rest] <;> omega

theorem below_tail {p q : Part} {ps : List Part} (below : q.below = p :: ps) : ps = p.below := by
  cases q <;> simp only [Part.below, List.cons.injEq, reduceCtorEq] at below <;> rw [← below.1, ← below.2] <;> rfl

theorem below_trans {p q r : Part} (first : q ∈ p.below) (second : r ∈ q.below) : r ∈ p.below := by
  cases p <;> cases q <;> simp [Part.below] at first <;> cases r <;> simp [Part.below] at second ⊢

section Steps

variable {s t : TimeWheel} {a : Action} {k : Nat}

theorem created_createTimer {diff interval count : Int} (next : s.createTimer diff interval count = some t) :
    t.created = s.created + 1 := by
  obtain ⟨p, next⟩ := place_eq_some next
  obtain ⟨-, -, rfl⟩ := push_eq_some next
  rfl

/-- A step is about a timer that exists, or the one it creates. -/
theorem Sound.touches_lt (sound : Sound s) (next : step s a = some t) (within : Within s a t)
    (touch : touches s a = some k) : k < t.created := by
  have old : k < s.created → k < t.created := by
    intro less
    have frame := within.frame (k + 1) (by rw [touch]; simp)
    exact Nat.lt_of_lt_of_le less frame.created
  rcases touch_cases next touch with ⟨_, _, _, -, rfl, created⟩ | ⟨-, removed⟩ | ⟨curr, p, ps, -, -, first, -⟩ |
    ⟨curr, ps, -, phase, -⟩
  · rw [created_createTimer created]
    exact Nat.lt_succ_self _
  · apply old
    by_contra beyond
    rw [TimeWheel.removeTimer, (sound.fresh k (Nat.le_of_not_lt beyond)).2.1] at removed
    cases removed
  · apply old
    by_contra beyond
    have none' := (sound.fresh k (Nat.le_of_not_lt beyond)).1 p (s.point p)
    rw [List.count_eq_zero] at none'
    exact none' (List.mem_of_mem_head? first)
  · exact old (sound.called curr ps k phase)

theorem Sound.advance (sound : Sound s) (curr : Int) : Sound (s.advance curr) := by
  have points : s.point = fun p => digit s.rate p s.msec_count := funext sound.points
  have moved := movePoints_eq (n := s.msec_count) sound.rate.1 sound.sizes
  have same : s.size .msec = s.rate := rfl
  rw [same, ← points] at moved
  unfold TimeWheel.advance
  rw [moved]
  refine ⟨sound.sizes, sound.days, sound.rate, fun p => rfl, ?_, sound.fresh, by simp⟩
  intro p ps visiting
  obtain ⟨rfl, rfl⟩ := List.cons.inj visiting
  exact ⟨rfl, mem_rolled.1 List.mem_cons_self⟩

theorem Sound.step (sound : Sound s) (next : step s a = some t) : Sound t := by
  obtain ⟨curr, -, rfl⟩ | within := step_cases next
  · exact sound.advance curr
  · obtain ⟨k, other⟩ : ∃ k, touches s a ≠ some k := by
      refine ⟨(touches s a).getD 0 + 1, ?_⟩
      cases touches s a <;> simp
    have frame := within.frame k other
    have rate : t.rate = s.rate := by rw [TimeWheel.rate, frame.size]; rfl
    refine ⟨by rw [frame.size]; exact sound.sizes, by rw [frame.size]; exact sound.days, by rw [rate]; exact sound.rate, ?_, ?_, ?_, ?_⟩
    · intro p
      rw [frame.point, rate, frame.msec_count]
      exact sound.points p
    · intro p ps visiting
      rw [rate, frame.msec_count]
      rcases within.parts with same | ⟨q, before, -⟩
      · exact sound.parts p ps (same ▸ visiting)
      · obtain ⟨below, whole⟩ := sound.parts q _ before
        have tail := below_tail (below.symm.trans visiting)
        refine ⟨tail, fun r mem => whole r ?_⟩
        rw [← below, visiting, tail]
        exact List.mem_cons_of_mem p mem
    · intro j beyond
      have other : touches s a ≠ some j := by
        intro touch
        have less := sound.touches_lt next within touch
        omega
      have frame := within.frame j other
      obtain ⟨count, timer, calls⟩ := sound.fresh j (frame.created.trans beyond)
      exact ⟨fun p i => by rw [frame.wheel, count], by rw [frame.timer, timer], by rw [frame.calls, calls]⟩
    · intro curr ps id calling
      rcases within.calling curr ps id calling with before | touch
      · exact Nat.lt_of_lt_of_le (sound.called curr ps id before) frame.created
      · exact sound.touches_lt next within touch

end Steps

/-- `k` is in the list at `i` of the wheel of `p`, once, and nowhere else. -/
def Located (s : TimeWheel) (k : Nat) (p : Part) (i : Nat) : Prop :=
  ∀ q j, (s.wheel q j).count k = if q = p ∧ j = i then 1 else 0

def Nowhere (s : TimeWheel) (k : Nat) : Prop := ∀ q j, (s.wheel q j).count k = 0

/-- The timer `k` has these fields and is due at `due`. -/
structure Timed (s : TimeWheel) (k due : Nat) (timer : Timer) : Prop where
  here : s.timers k = some timer
  unreleased : timer.bRelease = false
  parts : ∀ p, timer.due p = digit s.rate p due
  old : k < s.created

/-- `k` waits in the right list for the tick `due`. -/
structure Waiting (s : TimeWheel) (k due : Nat) (timer : Timer) : Prop extends Timed s k due timer where
  place : ∃ p, Located s k p (digit s.rate p due) ∧ Placed s.rate s.msec_count s.phase.parts p due
  uncalled : ∀ curr ps, s.phase ≠ .calling curr ps k

/-- `k` is being called, at its due tick. -/
structure Calling (s : TimeWheel) (k due : Nat) (timer : Timer) : Prop extends Timed s k due timer where
  now : s.msec_count = due
  phase : ∃ curr ps, s.phase = .calling curr ps k
  nowhere : Nowhere s k

section Waiting

variable {s t : TimeWheel} {a : Action} {k due : Nat} {timer : Timer}

theorem Frame.rate (frame : Frame k s t) : t.rate = s.rate := by
  rw [TimeWheel.rate, frame.size]
  rfl

theorem Timed.frame (timed : Timed s k due timer) (frame : Frame k s t) : Timed t k due timer where
  here := frame.timer.trans timed.here
  unreleased := timed.unreleased
  parts p := by rw [frame.rate, timed.parts]
  old := Nat.lt_of_lt_of_le timed.old frame.created

theorem Located.frame {p : Part} {i : Nat} (located : Located s k p i) (frame : Frame k s t) : Located t k p i :=
  fun q j => (frame.wheel q j).trans (located q j)

theorem Located.mem {p : Part} {i : Nat} (located : Located s k p i) : k ∈ s.wheel p i := by
  rw [← List.count_pos_iff, located p i]
  simp

theorem Located.eq {p q : Part} {i j : Nat} (located : Located s k p i) (mem : k ∈ s.wheel q j) : q = p ∧ j = i := by
  rw [← List.count_pos_iff, located q j] at mem
  by_contra other
  rw [if_neg other] at mem
  omega

theorem Nowhere.push {p : Part} {i : Int} (nowhere : Nowhere s k) (next : s.push p i k = some t) :
    Located t k p i.toNat := by
  obtain ⟨-, -, rfl⟩ := push_eq_some next
  intro q j
  have zero := nowhere q j
  simp only [TimeWheel.setWheel]
  split_ifs with here
  · rw [here.1, here.2] at zero
    rw [List.count_append, zero]
    simp
  · exact zero

theorem Located.pop {p : Part} {i : Nat} {ids : List Nat} (located : Located s k p i) (list : s.wheel p i = k :: ids) :
    Nowhere (s.setWheel p i ids) k := by
  intro q j
  have count := located q j
  simp only [TimeWheel.setWheel]
  split_ifs with here
  · rw [here.1, here.2, list, List.count_cons_self, if_pos ⟨rfl, rfl⟩] at count
    omega
  · rwa [if_neg here] at count

/-- A timer that waits and is not touched goes on waiting. -/
theorem Waiting.within (waiting : Waiting s k due timer) (sound : Sound s) (within : Within s a t)
    (other : touches s a ≠ some k) : Waiting t k due timer := by
  have frame := within.frame k other
  obtain ⟨p, located, placed⟩ := waiting.place
  refine ⟨waiting.toTimed.frame frame, ⟨p, ?_, ?_⟩, ?_⟩
  · rw [frame.rate]
    exact located.frame frame
  · rw [frame.rate, frame.msec_count]
    rcases within.parts with same | ⟨q, before, empty⟩
    · rw [same]
      exact placed
    · refine ⟨placed.above, placed.ahead.imp_right ?_⟩
      rintro ⟨same, mem⟩
      rw [before] at mem
      refine ⟨same, (List.mem_cons.1 mem).resolve_left ?_⟩
      rintro rfl
      have here := located.mem
      rw [digit_eq placed.above same.symm, ← sound.points, empty] at here
      cases here
  · intro curr ps calling
    rcases within.calling curr ps k calling with before | touch
    · exact waiting.uncalled curr ps before
    · exact other touch

theorem Waiting.advance (waiting : Waiting s k due timer) (sound : Sound s) {curr : Int} (phase : s.phase = .ticking curr) :
    Waiting (s.advance curr) k due timer := by
  have points : s.point = fun p => digit s.rate p s.msec_count := funext sound.points
  have moved := movePoints_eq (n := s.msec_count) sound.rate.1 sound.sizes
  have same : s.size .msec = s.rate := rfl
  rw [same, ← points] at moved
  obtain ⟨p, located, placed⟩ := waiting.place
  rw [phase] at placed
  unfold TimeWheel.advance
  rw [moved]
  exact ⟨⟨waiting.here, waiting.unreleased, waiting.parts, waiting.old⟩, ⟨p, located, placed.next sound.rate.1⟩, by simp⟩

/-- The slot of `k` has come: it goes down to the wheel of its next part, or is called. -/
theorem Waiting.visit (waiting : Waiting s k due timer) (sound : Sound s) {curr : Int} {p : Part} {ps : List Part}
    (phase : s.phase = .visiting curr (p :: ps)) (touch : (s.wheel p (s.point p)).head? = some k)
    (next : s.visit curr p ps = some t) :
    Waiting t k due timer ∧ t.callsOf k = s.callsOf k ∨
      Calling t k due timer ∧ t.callsOf k = s.callsOf k ++ [due] := by
  obtain ⟨q, located, placed⟩ := waiting.place
  have whole := (sound.parts p ps (by rw [phase]; rfl)).2
  obtain ⟨empty, -⟩ | ⟨id, ids, timer', list, here, way⟩ := visit_cases next
  · rw [empty] at touch
    cases touch
  rw [list] at touch
  obtain rfl := Option.some.inj touch
  obtain rfl := Option.some.inj (waiting.here.symm.trans here)
  obtain ⟨rfl, slot⟩ := located.eq (q := p) (j := s.point p) (by rw [list]; exact List.mem_cons_self)
  rw [sound.points] at slot
  have same := floor_eq placed.above.symm slot
  have down := down s.rate s.msec_count due p whole same
  have nowhere : Nowhere (s.setWheel p (s.point p) ids) id := by
    apply Located.pop _ list
    rw [sound.points, slot]
    exact located
  have find : (p.below.find? fun q => decide (timer.due q ≠ 0)) = p.below.find? fun q => decide (digit s.rate q due ≠ 0) := by
    congr 1
    funext q
    rw [waiting.parts q]
    simp
  obtain ⟨q, found, pushed⟩ | ⟨found, rfl⟩ := way
  · left
    rw [← find, found] at down
    have located' := nowhere.push pushed
    rw [waiting.parts q, Int.toNat_natCast] at located'
    obtain ⟨-, -, rfl⟩ := push_eq_some pushed
    refine ⟨⟨⟨waiting.here, waiting.unreleased, waiting.parts, waiting.old⟩, ⟨q, located', down.1, .inl down.2⟩, ?_⟩, rfl⟩
    exact waiting.uncalled
  · right
    rw [← find, found] at down
    unfold TimeWheel.excuteTimer
    rw [if_neg (by rw [waiting.unreleased]; simp)]
    refine ⟨⟨⟨waiting.here, waiting.unreleased, waiting.parts, waiting.old⟩, down.symm, ⟨curr, _, rfl⟩, nowhere⟩, ?_⟩
    rw [down]
    simp [TimeWheel.callsOf, TimeWheel.setWheel, List.filter_append]

/-- **One step of the wheel**: a timer that waits goes on waiting or is called at its due tick. -/
theorem Waiting.step (waiting : Waiting s k due timer) (sound : Sound s) (kept : a ≠ .removeTimer k)
    (next : step s a = some t) :
    Waiting t k due timer ∧ t.callsOf k = s.callsOf k ∨
      Calling t k due timer ∧ t.callsOf k = s.callsOf k ++ [due] := by
  obtain ⟨curr, phase, rfl⟩ | within := step_cases next
  · exact .inl ⟨waiting.advance sound phase, rfl⟩
  by_cases touch : touches s a = some k
  · rcases touch_cases next touch with ⟨_, _, _, -, same, -⟩ | ⟨removes, -⟩ | ⟨curr, p, ps, -, phase, first, visited⟩ |
      ⟨curr, ps, -, phase, -⟩
    · exact absurd same waiting.old.ne'
    · exact absurd removes kept
    · exact waiting.visit sound phase first visited
    · exact absurd phase (waiting.uncalled curr ps)
  · exact .inl ⟨waiting.within sound within touch, (within.frame k touch).calls⟩

end Waiting

end GameServer.Timers.Wheel
