import GameServer.Timers.WheelExact

/-!
# Periodic timers

After its callback a timer is due its interval after its own last due time, and
`GetTimerTick` tells whether that has passed. It computes `day * 86400000` as an `int`,
which is right up to day 24 (`getTimerTick_eq`); while the due days stay there, and the
timer was not created outside an update with less than a tick to go, the calls come at
exact intervals (`periodic_exact`). On day 50 the product is small again, the timer looks
overdue and is called twice in one tick (`periodic_again`).
-/

namespace GameServer.Timers.Wheel

open GameServer.Lib

section Finish

variable {s t : TimeWheel} {a : Action} {k due : Nat} {timer : Timer}

/-- Up to day 24 the tick of a due time is computed right. -/
theorem getTimerTick_eq (sound : Sound s) {time : Part → Int} {n : Nat} (parts : ∀ p, time p = digit s.rate p n)
    (day : digit s.rate .day n ≤ 24) : s.getTimerTick time = n := by
  have day' : toInt32 ((digit s.rate .day n : Int) * 86400000) = digit s.rate .day n * 86400000 :=
    toInt32_eq (by omega) (by omega)
  have seconds : (digit s.rate .day n : Int) * 86400000 + digit s.rate .hour n * 3600000 + digit s.rate .min n * 60000 +
      digit s.rate .sec n * 1000 = ((1000 * (n / s.rate) : Nat) : Int) := by
    simp only [digit]
    generalize n / s.rate = q
    omega
  have small : 1000 * (n / s.rate) * s.rate < 2 ^ 64 := by
    have days : n / s.rate < 25 * 86400 := by
      simp only [digit] at day
      omega
    calc 1000 * (n / s.rate) * s.rate ≤ 1000 * (25 * 86400) * 1000 :=
          Nat.mul_le_mul (Nat.mul_le_mul_left 1000 (Nat.le_of_lt days)) sound.rate.2
      _ < 2 ^ 64 := by decide
  have ticks : 1000 * (n / s.rate) * s.rate / 1000 = s.rate * (n / s.rate) := by
    rw [Nat.mul_assoc, Nat.mul_div_cancel_left _ (by decide), Nat.mul_comm]
  have size : s.size .msec = s.rate := rfl
  have split := Nat.div_add_mod n s.rate
  simp only [TimeWheel.getTimerTick, parts, day', seconds, size]
  rw [scale_natCast _ small, ticks]
  simp only [digit]
  omega

/-- The counts of periodic timers: forever, or a number of calls. -/
def Count (count : Int) : Prop := count = -1 ∨ 0 < count ∧ count < 2 ^ 31

theorem Sound.back (sound : Sound s) {curr : Int} {ps : List Part} (phase : s.phase = .calling curr ps k)
    (timer : Option Timer) : Sound (s.back curr ps k timer) where
  sizes := sound.sizes
  days := sound.days
  rate := sound.rate
  points := sound.points
  parts p qs parts := sound.parts p qs (by rw [phase]; exact parts)
  fresh j beyond := by
    obtain ⟨zero, none', calls⟩ := sound.fresh j beyond
    have other : j ≠ k := fun same => Nat.lt_irrefl _ (Nat.lt_of_lt_of_le (sound.called curr ps k phase) (same ▸ beyond))
    exact ⟨zero, by simpa [TimeWheel.back, other] using none', calls⟩
  called curr' ps' id phase' := by cases phase'

/-- After the callback the timer waits for the tick one interval later. -/
theorem Calling.rearm (calling : Calling s k due timer) (sound : Sound s) {curr : Int} {ps : List Part} {ms : Nat}
    (phase : s.phase = .calling curr ps k) (interval : timer.interval = ms) (pos : 0 < ticks s.rate ms)
    (day : digit s.rate .day (due + ticks s.rate ms) ≤ 24) (more : timer.count ≠ 1)
    (next : s.finish curr ps k = some t) :
    ∃ time, Waiting t k (due + ticks s.rate ms) ⟨time, ms, timer.count - 1, timer.bRelease⟩ ∧
      t.callsOf k = s.callsOf k ∧ t.msec_count = s.msec_count := by
  have here : s.point .day = digit s.rate .day due := by rw [← calling.now]; exact sound.points .day
  have bound : digit s.rate .day (due + ticks s.rate ms) < 2 ^ 31 := by omega
  have parts := addParts_eq sound (fun p _ => calling.parts p) here bound
  rw [← interval] at parts
  have later : s.msec_count < due + ticks s.rate ms := by
    rw [calling.now]
    omega
  obtain ⟨timer', here', -, ⟨last, -⟩ | ⟨-, ⟨passed, -⟩ | ⟨-, placed⟩⟩⟩ := finish_cases next
  all_goals obtain rfl := Option.some.inj (calling.here.symm.trans here')
  · exact absurd last more
  · rw [TimeWheel.rearmed, getTimerTick_eq sound parts day] at passed
    omega
  · have sound' := sound.back phase (some (s.rearmed timer))
    obtain ⟨⟨p, i, ids, rfl⟩, place⟩ := place_waits sound' parts (.inl later) calling.nowhere placed
    refine ⟨s.addParts timer.due timer.interval, ⟨⟨?_, calling.unreleased, parts, calling.old⟩, place, ?_⟩, rfl, rfl⟩
    · rw [← interval]
      exact Function.update_self _ _ _
    · intro curr' ps' phase'
      cases phase'

end Finish

/-- The first `j` ticks from `first` on, `n` apart. -/
def every (first n j : Nat) : List Nat := (List.range j).map fun i => first + i * n

theorem every_succ (first n j : Nat) : every first n (j + 1) = every first n j ++ [first + j * n] := by
  simp [every, List.range_succ]

/-- Nobody releases `k`, and its due days stay below 25: when its callback is over, it was
the last call or one interval from now is at most on day 24. -/
def Early (k M ms : Nat) (s : TimeWheel) (a : Action) : Prop :=
  a ≠ .removeTimer k ∧ ∀ curr ps, s.phase = .calling curr ps k → a = .ret →
    (s.timers k).map Timer.count = some 1 ∨ (s.msec_count + ticks M ms) / M / 86400 ≤ 24

/-- `k` has been called at the first `j` ticks of its series and at no other, and `j` is the
number of them that have passed. -/
structure InSeries (s : TimeWheel) (k : Nat) (count : Int) (first n j : Nat) : Prop where
  calls : s.callsOf k = every first n j
  counted : count = -1 ∨ (j : Int) ≤ count
  notEarly : 0 < j → first + (j - 1) * n ≤ s.msec_count
  notLate : count = j ∨ s.msec_count < first + j * n ∨ s.msec_count = first + j * n ∧ s.phase.parts ≠ []

/-- A call is due after the first `j`. -/
def More (count : Int) (j : Nat) : Prop := count = -1 ∨ (j : Int) < count

/-- A periodic timer waits for its next tick, or is being called there, or has been called
for the last time. -/
inductive Periodic (k : Nat) (count : Int) (first M ms : Nat) (s : TimeWheel) : Prop where
  | waiting (j : Nat) (time : Part → Int) : More count j →
      Waiting s k (first + j * ticks M ms) ⟨time, ms, count - j, false⟩ →
      (0 < j → first + (j - 1) * ticks M ms ≤ s.msec_count) →
      s.callsOf k = every first (ticks M ms) j → Periodic k count first M ms s
  | calling (j : Nat) (time : Part → Int) : More count j →
      Calling s k (first + j * ticks M ms) ⟨time, ms, count - j, false⟩ →
      s.callsOf k = every first (ticks M ms) (j + 1) → Periodic k count first M ms s
  | gone (j : Nat) : count = (j + 1 : Nat) → Gone s k → first + j * ticks M ms ≤ s.msec_count →
      s.callsOf k = every first (ticks M ms) (j + 1) → Periodic k count first M ms s

section Periodic

variable {s t : TimeWheel} {a : Action} {k first ms M j : Nat} {count : Int}

theorem Periodic.inSeries (periodic : Periodic k count first M ms s) (sound : Sound s) (pos : 0 < ticks M ms) :
    ∃ j, InSeries s k count first (ticks M ms) j := by
  cases periodic with
  | waiting j time more waiting past calls =>
    exact ⟨j, calls, more.imp_right Int.le_of_lt, past, .inr (waiting.before sound)⟩
  | calling j time more calling calls =>
    have now := calling.now
    unfold More at more
    refine ⟨j + 1, calls, by omega, fun _ => now.ge, .inr (.inl ?_)⟩
    rw [Nat.succ_mul]
    omega
  | gone j last gone past calls =>
    exact ⟨j + 1, calls, .inr last.ge, fun _ => past, .inl last⟩

theorem Periodic.ret (sound : Sound s) (pos : 0 < ticks s.rate ms) {curr : Int}
    {ps : List Part} {time : Part → Int} (more : More count j)
    (calling : Calling s k (first + j * ticks s.rate ms) ⟨time, ms, count - j, false⟩)
    (calls : s.callsOf k = every first (ticks s.rate ms) (j + 1)) (phase : s.phase = .calling curr ps k)
    (early : Early k s.rate ms s .ret) (ended : s.finish curr ps k = some t) :
    Periodic k count first s.rate ms t := by
  unfold More at more
  by_cases last : count - j = 1
  · obtain ⟨gone, same, now⟩ := finish_last calling last ended
    exact .gone j (by omega) gone now.ge (same.trans calls)
  have day : (s.msec_count + ticks s.rate ms) / s.rate / 86400 ≤ 24 := by
    refine (early.2 curr ps phase rfl).resolve_left ?_
    rw [calling.here]
    simpa using last
  obtain ⟨time', waiting, same, now⟩ := calling.rearm sound phase rfl pos (by rw [← calling.now]; exact day) last ended
  have left : count - (j : Int) - 1 = count - ((j + 1 : Nat) : Int) := by omega
  rw [left, Nat.add_assoc, ← Nat.succ_mul] at waiting
  exact .waiting (j + 1) time' (by unfold More; omega) waiting (fun _ => (now.trans calling.now).ge) (same.trans calls)

theorem Periodic.step (periodic : Periodic k count first s.rate ms s) (sound : Sound s)
    (pos : 0 < ticks s.rate ms) (early : Early k s.rate ms s a) (next : step s a = some t) :
    Periodic k count first s.rate ms t := by
  have on := msec_count_step next
  cases periodic with
  | waiting j time more waiting past calls =>
    rcases waiting.step sound early.1 next with ⟨waiting', same⟩ | ⟨calling, called⟩
    · exact .waiting j time more waiting' (fun some => (past some).trans on) (same.trans calls)
    · exact .calling j time more calling (by rw [called, calls, every_succ])
  | calling j time more calling calls =>
    rcases calling.step early.1 next with ⟨calling', same⟩ | ⟨rfl, curr, ps, phase, ended⟩
    · exact .calling j time more calling' (same.trans calls)
    · exact .ret sound pos more calling calls phase early ended
  | gone j last gone past calls =>
    obtain ⟨gone', same⟩ := gone.step early.1 next
    exact .gone j last gone' (past.trans on) (same.trans calls)

structure SoundPeriodic (k : Nat) (count : Int) (first M ms : Nat) (s : TimeWheel) : Prop where
  sound : Sound s
  rate : s.rate = M
  periodic : Periodic k count first M ms s

theorem SoundPeriodic.step (state : SoundPeriodic k count first M ms s) (pos : 0 < ticks M ms)
    (early : Early k M ms s a) (next : step s a = some t) : SoundPeriodic k count first M ms t := by
  obtain ⟨sound, rfl, periodic⟩ := state
  exact ⟨sound.step next, by rw [TimeWheel.rate, size_step next]; rfl, periodic.step sound pos early next⟩

end Periodic

/-- **Periodic timers.** In every state the wheel gets to, take a timer created there with an
interval of at least one tick, and with at least one tick to go or while the wheels of the
tick are being visited. As long as its due days stay below 25, its calls come at its first
due tick and then at exact intervals, each once, however the run goes on. -/
theorem periodic_exact (w : SizeT) (M days : Nat) (rate : 0 < M ∧ M ≤ 1000) (bound : days < 2 ^ 31) (as : List Action)
    (s : TimeWheel) (run : Runs step Any (init w days M) as s) (callable : s.phase.callable = true) (ms interval : Nat)
    (count : Int) (counts : Count count) (later : 0 < ticks M ms ∨ .msec ∈ s.phase.parts)
    (pos : 0 < ticks M interval) (day : (s.msec_count + ticks M ms) / M / 86400 < days) :
    ∃ t, step s (.createTimer ms interval count) = some t ∧
      ∀ bs u, Runs step (Early s.created M interval) t bs u →
        ∃ j, InSeries u s.created count (s.msec_count + ticks M ms) (ticks M interval) j := by
  obtain ⟨sound, rfl, rfl⟩ := sound_run rate bound run
  obtain ⟨t, next⟩ := createTimer_inside sound interval count day
  obtain ⟨due, waiting, calls⟩ := waiting_createTimer sound later day next
  have next : step s (.createTimer ms interval count) = some t := by
    simp only [step, callable, if_true]
    exact next
  have rate' : t.rate = s.rate := by rw [TimeWheel.rate, size_step next]; rfl
  refine ⟨t, next, ?_⟩
  intro bs u rest
  have last : SoundPeriodic s.created count (s.msec_count + ticks s.rate ms) s.rate interval u := by
    refine rest.invariant _ ⟨sound.step next, rate', .waiting 0 due ?_ ?_ (by simp) calls⟩ ?_
    · unfold Count at counts
      unfold More
      omega
    · rw [Nat.zero_mul, Nat.add_zero, Nat.cast_zero, Int.sub_zero]
      exact waiting
    · intro u a v periodic early next
      exact periodic.step pos early next
  exact last.periodic.inSeries last.sound pos

/-- A wheel of ten ticks a second with a timer of 150 ms, every 250 ms. -/
def seriesState : TimeWheel := ((init .w64 1 10).createTimer 150 250 (-1)).getD (init .w64 1 10)

/-- One update over the first four ticks. -/
def seriesRun : List Action := [.update 400, .go, .go, .ret, .go, .go, .go, .go, .go, .ret, .go, .go, .go, .go]

/-- `Early` for the timer 0 of that wheel, as a check. -/
def earlyB (s : TimeWheel) (a : Action) : Bool :=
  decide (a ≠ .removeTimer 0) && decide ((s.msec_count + ticks 10 250) / 10 / 86400 ≤ 24)

def seriesEnd : TimeWheel := (runChecked step earlyB seriesState seriesRun).getD seriesState

theorem periodic_exact_tick : seriesEnd.callsOf 0 = [1, 3] ∧ ∃ j, InSeries seriesEnd 0 (-1) 1 2 j := by
  obtain ⟨t, next, exact'⟩ := periodic_exact .w64 10 1 (by decide) (by decide) [] (init .w64 1 10) .refl rfl 150 250 (-1)
    (.inl rfl) (.inl (by decide)) (by decide) (by decide)
  have same : seriesState = t := by
    have next : (init .w64 1 10).createTimer 150 250 (-1) = some t := next
    rw [seriesState, next, Option.getD_some]
  have checked : runChecked step earlyB seriesState seriesRun = some seriesEnd := (Option.some_get (by rfl)).symm
  have run : Runs step (Early 0 10 250) seriesState seriesRun seriesEnd := by
    refine Runs.of_checked ?_ checked
    intro s a early
    simp only [earlyB, Bool.and_eq_true, decide_eq_true_eq] at early
    exact ⟨early.1, fun _ _ _ _ => .inr early.2⟩
  exact ⟨by decide +kernel, exact' seriesRun seriesEnd (same ▸ run)⟩

/-- A wheel without timers at the tick `n`. -/
def emptyAt (w : SizeT) (days M n : Nat) (phase : Phase) : TimeWheel :=
  { init w days M with point := fun p => digit M p n, msec_count := n, phase := phase }

section Empty

variable (w : SizeT) (days : Nat) (curr : Int) {M n : Nat}

theorem init_eq_emptyAt (M : Nat) : init w days M = emptyAt w days M 0 .idle := by
  have points : (init w days M).point = fun p => digit M p 0 := by
    funext p
    cases p <;> simp [init, digit]
  rw [emptyAt, ← points]
  rfl

theorem size_emptyAt (rate : 0 < M ∧ M ≤ 1000) (phase : Phase) : (emptyAt w days M n phase).size .msec = M :=
  if_neg (Nat.not_lt.2 rate.2)

theorem inside_emptyAt (rate : 0 < M ∧ M ≤ 1000) (day : n / M / 86400 < days) (phase : Phase) (p : Part) :
    ¬ (emptyAt w days M n phase).size p ≤ (emptyAt w days M n phase).point p := by
  apply Nat.not_le.2
  cases p with
  | day => exact day
  | hour => exact Nat.mod_lt _ (by decide)
  | min => exact Nat.mod_lt _ (by decide)
  | sec => exact Nat.mod_lt _ (by decide)
  | msec => rw [size_emptyAt w days rate]; exact Nat.mod_lt _ rate.1

theorem visit_emptyAt (rate : 0 < M ∧ M ≤ 1000) (day : n / M / 86400 < days) (p : Part) (ps : List Part) :
    step (emptyAt w days M n (.visiting curr (p :: ps))) .go =
      some (emptyAt w days M n (if ps = [] then .ticking curr else .visiting curr ps)) :=
  (if_neg (inside_emptyAt w days rate day _ p)).trans rfl

variable {ok : TimeWheel → Action → Prop} (free : ∀ s, ok s .go)

include free in
/-- Visiting empty wheels. -/
theorem visits_emptyAt (rate : 0 < M ∧ M ≤ 1000) (day : n / M / 86400 < days) (p : Part) (ps : List Part) :
    ∃ as, Runs step ok (emptyAt w days M n (.visiting curr (p :: ps))) as (emptyAt w days M n (.ticking curr)) := by
  induction ps generalizing p with
  | nil => exact ⟨_, Runs.single (free _) (visit_emptyAt w days curr rate day p [])⟩
  | cons q qs ih =>
    obtain ⟨as, run⟩ := ih q
    exact ⟨_, (Runs.single (free _) (visit_emptyAt w days curr rate day p (q :: qs))).trans run⟩

theorem advance_emptyAt (rate : 0 < M ∧ M ≤ 1000) :
    (emptyAt w days M n (.ticking curr)).advance curr =
      emptyAt w days M (n + 1) (.visiting curr (rolled M (n + 1) :: (rolled M (n + 1)).below)) := by
  have size := size_emptyAt w days (n := n) rate (.ticking curr)
  have pos : 0 < (emptyAt w days M n (.ticking curr)).size .msec := by rw [size]; exact rate.1
  have moved := movePoints_eq (n := n) pos ⟨rfl, rfl, rfl⟩
  rw [size] at moved
  unfold TimeWheel.advance
  have point : (emptyAt w days M n (.ticking curr)).point = fun p => digit M p n := rfl
  rw [point, moved]
  rfl

include free in
theorem tick_emptyAt (rate : 0 < M ∧ M ≤ 1000) (day : (n + 1) / M / 86400 < days) (more : (n : Int) < curr) :
    ∃ as, Runs step ok (emptyAt w days M n (.ticking curr)) as (emptyAt w days M (n + 1) (.ticking curr)) := by
  have next : step (emptyAt w days M n (.ticking curr)) .go = some ((emptyAt w days M n (.ticking curr)).advance curr) :=
    congrArg some (if_pos more)
  rw [advance_emptyAt w days curr rate] at next
  obtain ⟨as, run⟩ := visits_emptyAt w days curr free rate day (rolled M (n + 1)) (rolled M (n + 1)).below
  exact ⟨_, (Runs.single (free _) next).trans run⟩

include free in
/-- A wheel without timers gets to every tick of its days. -/
theorem runs_emptyAt (rate : 0 < M ∧ M ≤ 1000) (day : n / M / 86400 < days) (le : (n : Int) ≤ curr) :
    ∃ as, Runs step ok (emptyAt w days M 0 (.ticking curr)) as (emptyAt w days M n (.ticking curr)) := by
  induction n with
  | zero => exact ⟨[], .refl⟩
  | succ n ih =>
    have before : n / M / 86400 ≤ (n + 1) / M / 86400 := Nat.div_le_div_right (Nat.div_le_div_right (Nat.le_succ n))
    obtain ⟨as, run⟩ := ih (Nat.lt_of_le_of_lt before day) (by omega)
    obtain ⟨bs, last⟩ := tick_emptyAt w days curr free rate day (by omega)
    exact ⟨_, run.trans last⟩

end Empty

/-- A wheel of one tick a second two seconds before day 50, with a timer for every second. -/
def day49 : TimeWheel := ((emptyAt .w64 60 1 4319998 .idle).createTimer 1000 1000 (-1)).getD (init .w64 60 1)

/-- One update over the last tick of day 49. -/
def day49Run : List Action := [.update 4319999000, .go, .go, .ret, .go, .go]

def day49End : TimeWheel := (runChecked step (fun _ a => decide (a ≠ .removeTimer 0)) day49 day49Run).getD day49

/-- The next due tick is on day 50, `GetTimerTick` overflows, and the timer is called twice in
the tick 4319999. -/
theorem periodic_again :
    ∃ as s, Runs step Any (init .w64 60 1) as s ∧ s.msec_count = 4319998 ∧ s.created = 0 ∧
      step s (.createTimer 1000 1000 (-1)) = some day49 ∧ Runs step (Keeps 0) day49 day49Run day49End ∧
      day49End.callsOf 0 = [4319999, 4319999] ∧ ¬ ∃ j, InSeries day49End 0 (-1) 4319999 1 j := by
  obtain ⟨as, run⟩ := @runs_emptyAt .w64 60 4319998 1 4319998 Any (fun _ => trivial) (by decide)
    (by decide) (by decide)
  have first : Runs step Any (init .w64 60 1) [.update 4319998000] (emptyAt .w64 60 1 0 (.ticking 4319998)) := by
    rw [init_eq_emptyAt]
    exact Runs.single trivial rfl
  have last : Runs step Any (emptyAt .w64 60 1 4319998 (.ticking 4319998)) [.go] (emptyAt .w64 60 1 4319998 .idle) :=
    Runs.single trivial (congrArg some (if_neg (by decide)))
  have checked : runChecked step (fun _ a => decide (a ≠ .removeTimer 0)) day49 day49Run = some day49End :=
    (Option.some_get (by rfl)).symm
  have calls : day49End.callsOf 0 = [4319999, 4319999] := by decide +kernel
  refine ⟨_, _, (first.trans run).trans last, rfl, rfl, (Option.some_get (by rfl)).symm,
    Runs.of_checked (fun _ _ kept => by simpa [Keeps] using kept) checked, calls, ?_⟩
  rintro ⟨j, series⟩
  have same := series.calls
  rw [calls] at same
  have length : j = 2 := by simpa [every] using (congrArg List.length same).symm
  rw [length] at same
  revert same
  decide

end GameServer.Timers.Wheel
