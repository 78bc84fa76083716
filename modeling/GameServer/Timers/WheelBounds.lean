import GameServer.Timers.WheelPeriodic

/-!
# Inside the wheels

`accesses` lists the wheel and the index of each access to a wheel that a step makes. The point of the day wheel is never
brought back to zero, so the indices are inside the wheels as long as the days are fewer than `day_count`: those of the
ticks, of the due time of a new timer, and of the due time of a timer that is armed again (`Fits`). That is enough, in runs
of any length (`indices_inside`).

`Live` is what holds of all timers: each one is in one list, or is being called, or is gone, and the parts of its due time
below the day are those of a tick.
-/

namespace GameServer.Timers.Wheel

open GameServer.Lib

namespace TimeWheel

/-- The wheel that `place` pushes to. -/
def target (s : TimeWheel) (due : Part → Int) : Part :=
  if due .day ≠ s.point .day then .day
  else if due .hour ≠ s.point .hour then .hour
  else if due .min ≠ s.point .min then .min
  else if due .sec ≠ s.point .sec then .sec
  else .msec

/-- The tick of today at the time of day of `due`. -/
def today (s : TimeWheel) (due : Part → Int) : Nat :=
  s.size .msec * (s.point .day * 86400 + (due .hour).toNat * 3600 + (due .min).toNat * 60 + (due .sec).toNat) +
    (due .msec).toNat

/-- The timer in its callback. -/
def callee (s : TimeWheel) : Option Timer :=
  match s.phase with
  | .calling _ _ id => s.timers id
  | _ => none

end TimeWheel

/-- The accesses to the wheels that a step makes. -/
def accesses (s : TimeWheel) : Action → List (Part × Int)
  | .createTimer diff _ _ =>
    let due := s.addParts (fun p => s.point p) diff
    [(s.target due, due (s.target due))]
  | .go => match s.phase with
    | .visiting _ (p :: _) =>
      let timer := (s.wheel p (s.point p)).head?.bind s.timers
      let next := timer.bind fun timer => (p.below.find? fun q => timer.due q ≠ 0).map fun q => (q, timer.due q)
      (p, (s.point p : Int)) :: next.toList
    | _ => []
  | .ret => match s.callee with
    | none => []
    | some timer =>
      let due := s.addParts timer.due timer.interval
      if timer.count = 1 then []
      else if s.getTimerTick due ≤ s.msec_count then [(.msec, (s.point .msec : Int))]
      else [(s.target due, due (s.target due))]
  | _ => []

def InBounds (s : TimeWheel) (a : Action) : Prop := ∀ x ∈ accesses s a, 0 ≤ x.2 ∧ x.2 < s.size x.1

/-- The days are inside the wheel: of the due time of a new timer, of the clock at an update, and of the due time of a timer
whose callback is over, unless that was its last call. -/
def Fits (s : TimeWheel) : Action → Prop
  | .createTimer diff interval _ =>
    0 ≤ diff ∧ 0 ≤ interval ∧ (s.msec_count + ticks s.rate diff.toNat) / s.rate / 86400 < s.size .day
  | .update interval => 0 ≤ interval ∧ interval / 86400000 < s.size .day
  | .ret => ∀ timer ∈ s.callee, timer.count ≠ 1 →
    (s.today timer.due + ticks s.rate timer.interval.toNat) / s.rate / 86400 < s.size .day
  | _ => True

instance (s : TimeWheel) (a : Action) : Decidable (Fits s a) := by
  cases a <;> unfold Fits <;> infer_instance

/-- The parts of a due time below the day are those of a tick. -/
def Clocked (M : Nat) (timer : Timer) : Prop := 0 ≤ timer.interval ∧ ∃ n : Nat, ∀ p, p ≠ .day → timer.due p = digit M p n

/-- Where a timer is. -/
inductive Housed (s : TimeWheel) (k : Nat) : Prop where
  | listed (p : Part) (i : Nat) (timer : Timer) (here : s.timers k = some timer) (clocked : Clocked s.rate timer)
      (located : Located s k p i) (uncalled : ∀ curr ps, s.phase ≠ .calling curr ps k)
  | called (curr : Int) (ps : List Part) (timer : Timer) (here : s.timers k = some timer) (clocked : Clocked s.rate timer)
      (nowhere : Nowhere s k) (phase : s.phase = .calling curr ps k)
  | away (gone : s.timers k = none) (nowhere : Nowhere s k) (uncalled : ∀ curr ps, s.phase ≠ .calling curr ps k)

/-- The tick that the update goes up to. -/
def Phase.curr : Phase → Option Int
  | .idle => none
  | .ticking curr => some curr
  | .visiting curr _ => some curr
  | .calling curr _ _ => some curr

structure Live (s : TimeWheel) : Prop where
  sound : Sound s
  housed : ∀ k, Housed s k
  inside : s.point .day < s.size .day
  ahead : ∀ curr, s.phase.curr = some curr → curr.toNat / s.rate / 86400 < s.size .day

section Times

variable {s : TimeWheel} {timer : Timer}

theorem place_eq_target (s : TimeWheel) (due : Part → Int) (id : Nat) :
    s.place due id = s.push (s.target due) (due (s.target due)) id := by
  unfold TimeWheel.place TimeWheel.target
  split_ifs <;> rfl

/-- Today's tick has the parts of the due time, and the day of the point. -/
theorem digit_today (sound : Sound s) {n : Nat} (parts : ∀ p, p ≠ .day → timer.due p = digit s.rate p n) (p : Part) :
    digit s.rate p (s.today timer.due) = if p = .day then s.point .day else digit s.rate p n := by
  have pos := sound.rate.1
  have size : s.size .msec = s.rate := rfl
  have rest : n % s.rate < s.rate := Nat.mod_lt _ pos
  have eq : s.today timer.due =
      s.rate * (s.point .day * 86400 + n / s.rate / 3600 % 24 * 3600 + n / s.rate / 60 % 60 * 60 + n / s.rate % 60) +
        n % s.rate := by
    unfold TimeWheel.today
    rw [parts .hour (by decide), parts .min (by decide), parts .sec (by decide), parts .msec (by decide), size]
    simp only [Int.toNat_natCast, digit]
  have second : s.today timer.due / s.rate =
      s.point .day * 86400 + n / s.rate / 3600 % 24 * 3600 + n / s.rate / 60 % 60 * 60 + n / s.rate % 60 := by
    rw [eq, Nat.mul_add_div pos, Nat.div_eq_of_lt rest, Nat.add_zero]
  have tick : s.today timer.due % s.rate = n % s.rate := by
    rw [eq, Nat.mul_add_mod, Nat.mod_mod]
  cases p <;> simp only [digit, second, tick, reduceCtorEq, if_true, if_false] <;> omega

/-- A timer is armed again for its interval after today's tick. -/
theorem parts_rearm (sound : Sound s) (clocked : Clocked s.rate timer)
    (bound : digit s.rate .day (s.today timer.due + ticks s.rate timer.interval.toNat) < 2 ^ 31) (p : Part) :
    s.addParts timer.due timer.interval p = digit s.rate p (s.today timer.due + ticks s.rate timer.interval.toNat) := by
  obtain ⟨natural, n, parts⟩ := clocked
  have today := digit_today sound parts
  have start : ∀ p, p ≠ .day → timer.due p = digit s.rate p (s.today timer.due) := by
    intro p lower
    rw [today p, if_neg lower]
    exact parts p lower
  have day : s.point .day = digit s.rate .day (s.today timer.due) := by
    rw [today .day, if_pos rfl]
  have added := addParts_eq sound start day bound p
  rwa [Int.toNat_of_nonneg natural] at added

/-- The index of a due time in the wheel it goes to. -/
theorem target_inside (sound : Sound s) {due : Part → Int} {n : Nat} (parts : ∀ p, due p = digit s.rate p n)
    (day : digit s.rate .day n < s.size .day) : 0 ≤ due (s.target due) ∧ due (s.target due) < s.size (s.target due) := by
  have low := digit_lt sound day (s.target due)
  rw [parts]
  omega

theorem push_inside {p : Part} {i : Int} {id : Nat} (inside : 0 ≤ i ∧ i < s.size p) : ∃ t, s.push p i id = some t :=
  ⟨_, if_pos inside⟩

end Times

section Steps

variable {s t : TimeWheel} {a : Action} {k : Nat} {timer : Timer}

theorem Housed.frame (housed : Housed s k) (frame : Frame k s t)
    (calling : ∀ curr ps, t.phase = .calling curr ps k ↔ s.phase = .calling curr ps k) : Housed t k := by
  have rate := frame.rate
  cases housed with
  | listed p i timer here clocked located uncalled =>
    refine .listed p i timer (frame.timer.trans here) (by rwa [rate]) (located.frame frame) fun curr ps phase => ?_
    exact uncalled curr ps ((calling curr ps).1 phase)
  | called curr ps timer here clocked nowhere phase =>
    refine .called curr ps timer (frame.timer.trans here) (by rwa [rate]) ?_ ((calling curr ps).2 phase)
    exact fun q j => (frame.wheel q j).trans (nowhere q j)
  | away gone nowhere uncalled =>
    refine .away (frame.timer.trans gone) (fun q j => (frame.wheel q j).trans (nowhere q j)) fun curr ps phase => ?_
    exact uncalled curr ps ((calling curr ps).1 phase)

/-- A timer that a step does not touch is called after it if it was before. -/
theorem Within.calling_iff (within : Within s a t) (sound : Sound s) (next : step s a = some t) (other : touches s a ≠ some k)
    (curr : Int) (ps : List Part) : t.phase = .calling curr ps k ↔ s.phase = .calling curr ps k := by
  constructor
  · intro phase
    exact (within.calling curr ps k phase).resolve_right other
  · intro phase
    have kept : a ≠ .removeTimer k := by
      rintro rfl
      exact other rfl
    rcases step_calling phase (sound.called curr ps k phase) kept next with ⟨-, same⟩ | ⟨rfl, -⟩
    · exact same.trans phase
    · exact absurd (by simp only [touches, phase]) other

theorem housed_push {p : Part} {i : Int} (here : s.timers k = some timer) (clocked : Clocked s.rate timer) (nowhere : Nowhere s k)
    (uncalled : ∀ curr ps, s.phase ≠ .calling curr ps k) (next : s.push p i k = some t) : Housed t k := by
  have located := nowhere.push next
  obtain ⟨-, -, rfl⟩ := push_eq_some next
  exact .listed p i.toNat timer here clocked located uncalled

theorem housed_place {due : Part → Int} (here : s.timers k = some timer) (clocked : Clocked s.rate timer) (nowhere : Nowhere s k)
    (uncalled : ∀ curr ps, s.phase ≠ .calling curr ps k) (next : s.place due k = some t) : Housed t k := by
  obtain ⟨p, next⟩ := place_eq_some next
  exact housed_push here clocked nowhere uncalled next

theorem Live.createTimer {diff interval count : Int} (live : Live s) (fits : Fits s (.createTimer diff interval count))
    (next : s.createTimer diff interval count = some t) : Housed t s.created := by
  obtain ⟨natural, natural', day⟩ := fits
  obtain ⟨zero, -, -⟩ := live.sound.fresh s.created (le_refl _)
  have parts := due_createTimer live.sound day
  rw [Int.toNat_of_nonneg natural] at parts
  have uncalled : ∀ curr ps, s.phase ≠ .calling curr ps s.created := fun curr ps phase =>
    Nat.lt_irrefl _ (live.sound.called curr ps s.created phase)
  unfold TimeWheel.createTimer at next
  dsimp only at next
  generalize s.addParts (fun p => s.point p) diff = due at parts next
  exact housed_place (s := s.newTimer ⟨due, interval, count, false⟩) (Function.update_self _ _ _)
    ⟨natural', _, fun p _ => parts p⟩ zero uncalled next

theorem Live.removeTimer (live : Live s) (next : s.removeTimer k = some t) : Housed t k := by
  unfold TimeWheel.removeTimer at next
  cases live.housed k with
  | listed p i timer here clocked located uncalled =>
    rw [here] at next
    rw [← Option.some.inj next]
    exact .listed p i { timer with bRelease := true } (Function.update_self _ _ _) clocked located uncalled
  | called curr ps timer here clocked nowhere phase =>
    rw [here] at next
    rw [← Option.some.inj next]
    exact .called curr ps { timer with bRelease := true } (Function.update_self _ _ _) clocked nowhere phase
  | away gone =>
    rw [gone] at next
    cases next

/-- A timer that is found in a list. -/
theorem Live.listed (live : Live s) {p : Part} {i : Nat} (mem : k ∈ s.wheel p i) : ∃ timer, s.timers k = some timer ∧
    Clocked s.rate timer ∧ Located s k p i ∧ ∀ curr ps, s.phase ≠ .calling curr ps k := by
  have found := List.count_pos_iff.2 mem
  cases live.housed k with
  | listed p' i' timer here clocked located uncalled =>
    obtain ⟨rfl, rfl⟩ := located.eq mem
    exact ⟨timer, here, clocked, located, uncalled⟩
  | called curr ps timer here clocked nowhere phase =>
    rw [nowhere] at found
    cases found
  | away gone nowhere =>
    rw [nowhere] at found
    cases found

theorem Live.visit (live : Live s) {curr : Int} {p : Part} {ps : List Part} (touch : (s.wheel p (s.point p)).head? = some k)
    (next : s.visit curr p ps = some t) : Housed t k := by
  obtain ⟨empty, -⟩ | ⟨id, ids, timer, list, here, way⟩ := visit_cases next
  · rw [empty] at touch
    cases touch
  rw [list] at touch
  obtain rfl := Option.some.inj touch
  obtain ⟨timer', here', clocked, located, uncalled⟩ := live.listed (by rw [list]; exact List.mem_cons_self)
  obtain rfl := Option.some.inj (here.symm.trans here')
  have nowhere := located.pop list
  obtain ⟨q, -, pushed⟩ | ⟨-, rfl⟩ := way
  · exact housed_push (s := s.setWheel p (s.point p) ids) here clocked nowhere uncalled pushed
  · unfold TimeWheel.excuteTimer
    split
    · exact .away (Function.update_self _ _ _) nowhere uncalled
    · exact .called curr (p :: ps) timer here clocked nowhere rfl

/-- The timer in its callback. -/
theorem Live.called (live : Live s) {curr : Int} {ps : List Part} (phase : s.phase = .calling curr ps k) :
    ∃ timer, s.timers k = some timer ∧ s.callee = some timer ∧ Clocked s.rate timer ∧ Nowhere s k := by
  cases live.housed k with
  | listed p i timer here clocked located uncalled => exact absurd phase (uncalled curr ps)
  | called curr' ps' timer here clocked nowhere =>
    refine ⟨timer, here, ?_, clocked, nowhere⟩
    simp only [TimeWheel.callee, phase, here]
  | away gone nowhere uncalled => exact absurd phase (uncalled curr ps)

/-- The due time of a timer that is armed again is on a day of the wheel. -/
theorem Live.rearmed (live : Live s) (fits : Fits s .ret) (callee : s.callee = some timer) (more : timer.count ≠ 1)
    (clocked : Clocked s.rate timer) :
    digit s.rate .day (s.today timer.due + ticks s.rate timer.interval.toNat) < s.size .day ∧
      ∀ p, (s.rearmed timer).due p = digit s.rate p (s.today timer.due + ticks s.rate timer.interval.toNat) := by
  have day := fits timer callee more
  exact ⟨day, parts_rearm live.sound clocked (Nat.lt_trans day live.sound.days)⟩

theorem Live.ret (live : Live s) {curr : Int} {ps : List Part} (fits : Fits s .ret) (phase : s.phase = .calling curr ps k)
    (next : s.finish curr ps k = some t) : Housed t k := by
  obtain ⟨timer, here, callee, clocked, nowhere⟩ := live.called phase
  obtain ⟨timer', here', -, ⟨-, rfl⟩ | ⟨more, way⟩⟩ := finish_cases next
  · refine .away (Function.update_self _ _ _) nowhere fun curr' ps' phase' => ?_
    cases phase'
  obtain rfl := Option.some.inj (here.symm.trans here')
  obtain ⟨-, parts⟩ := live.rearmed fits callee more clocked
  have clocked' : Clocked s.rate (s.rearmed timer) := ⟨clocked.1, _, fun p _ => parts p⟩
  have uncalled : ∀ curr' ps', (s.back curr ps k (some (s.rearmed timer))).phase ≠ .calling curr' ps' k := by
    intro curr' ps' phase'
    cases phase'
  rcases way with ⟨-, pushed⟩ | ⟨-, placed⟩
  · exact housed_push (s := s.back curr ps k (some (s.rearmed timer))) (Function.update_self _ _ _) clocked' nowhere uncalled pushed
  · exact housed_place (s := s.back curr ps k (some (s.rearmed timer))) (Function.update_self _ _ _) clocked' nowhere uncalled placed

theorem Live.housed_step (live : Live s) (fits : Fits s a) (next : step s a = some t) (k : Nat) : Housed t k := by
  obtain ⟨curr, phase, rfl⟩ | within := step_cases next
  · cases live.housed k with
    | listed p i timer here clocked located uncalled =>
      exact .listed p i timer here clocked located fun curr' ps' calling => by cases calling
    | called curr' ps' timer here clocked nowhere calling =>
      rw [phase] at calling
      cases calling
    | away gone nowhere uncalled => exact .away gone nowhere fun curr' ps' calling => by cases calling
  by_cases touch : touches s a = some k
  · rcases touch_cases next touch with ⟨diff, interval, count, rfl, rfl, created⟩ | ⟨rfl, removed⟩ |
      ⟨curr, p, ps, rfl, -, first, visited⟩ | ⟨curr, ps, rfl, phase, finished⟩
    · exact live.createTimer fits created
    · exact live.removeTimer removed
    · exact live.visit first visited
    · exact live.ret fits phase finished
  · exact (live.housed k).frame (within.frame k touch) (within.calling_iff live.sound next touch)

/-- The day of the tick that an update goes up to is not after that of the clock. -/
theorem day_clock (w : SizeT) {M : Nat} (pos : 0 < M) {interval : Int} (natural : 0 ≤ interval) :
    (w.scale interval M).toNat / M / 86400 ≤ interval.toNat / 86400000 := by
  obtain ⟨ms, rfl⟩ := Int.eq_ofNat_of_zero_le natural
  have cast : (ms : Int) * M = ((ms * M : Nat) : Int) := by push_cast; rfl
  have most : (w.scale ms M).toNat ≤ ticks M ms := by
    cases w with
    | w32 =>
      simp only [SizeT.scale]
      rw [cast, Int.tdiv_eq_ediv_of_nonneg (Int.natCast_nonneg _)]
      unfold ticks
      omega
    | w64 =>
      simp only [SizeT.scale]
      rw [cast]
      unfold ticks
      omega
  have rest := rest_lt ms pos
  have seconds : ticks M ms / M = ms / 1000 := by
    rw [ticks_eq, Nat.mul_add_div pos, Nat.div_eq_of_lt rest, Nat.add_zero]
  have less := Nat.div_le_div_right (c := M) most
  rw [seconds] at less
  have days := Nat.div_le_div_right (c := 86400) less
  rw [Int.toNat_natCast]
  omega

theorem lt_of_advance {curr : Int} (phase : s.phase = .ticking curr) (next : step s a = some (s.advance curr)) :
    (s.msec_count : Int) < curr := by
  cases a with
  | createTimer diff interval count => simp [step, phase, Phase.callable] at next
  | removeTimer id => simp [step, phase, Phase.callable] at next
  | update interval => simp [step, phase] at next
  | go =>
    simp only [step, phase] at next
    have next := Option.some.inj next
    unfold TimeWheel.tick at next
    split_ifs at next with less
    · exact less
    · have phases := congrArg TimeWheel.phase next
      cases phases
  | ret => simp [step, phase] at next

/-- The tick that the update goes up to comes from `Update` alone. -/
theorem curr_step {curr : Int} (next : step s a = some t) (ahead : t.phase.curr = some curr) :
    s.phase.curr = some curr ∨ ∃ interval, a = .update interval ∧ curr = s.sizeT.scale interval (s.size .msec) := by
  cases a with
  | createTimer diff interval count =>
    simp only [step] at next
    split_ifs at next
    rw [phase_createTimer next] at ahead
    exact .inl ahead
  | removeTimer id =>
    simp only [step] at next
    split_ifs at next
    rw [phase_removeTimer next] at ahead
    exact .inl ahead
  | update interval =>
    simp only [step] at next
    split_ifs at next
    rw [← Option.some.inj next] at ahead
    exact .inr ⟨interval, rfl, (Option.some.inj ahead).symm⟩
  | go =>
    left
    simp only [step] at next
    split at next
    · next curr' phase =>
      have next := Option.some.inj next
      unfold TimeWheel.tick at next
      rw [phase]
      split_ifs at next
      · rw [← next] at ahead
        exact ahead
      · rw [← next] at ahead
        cases ahead
    · next curr' p ps phase =>
      rw [phase]
      obtain ⟨-, rfl⟩ | ⟨id, ids, timer, -, -, ⟨q, -, pushed⟩ | ⟨-, rfl⟩⟩ := visit_cases next
      · split at ahead
        · exact ahead
        · exact ahead
      · rw [phase_push pushed] at ahead
        have ahead : s.phase.curr = some curr := ahead
        rwa [phase] at ahead
      · unfold TimeWheel.excuteTimer at ahead
        split at ahead
        · have ahead : s.phase.curr = some curr := ahead
          rwa [phase] at ahead
        · exact ahead
    · cases next
  | ret =>
    left
    simp only [step] at next
    split at next
    · next curr' ps id phase =>
      rw [phase_finish next] at ahead
      rw [phase]
      exact ahead
    · cases next

/-- **One step of the wheel** keeps all its timers. -/
theorem Live.step (live : Live s) (fits : Fits s a) (next : step s a = some t) : Live t := by
  refine ⟨live.sound.step next, live.housed_step fits next, ?_, ?_⟩
  · obtain ⟨curr, phase, rfl⟩ | within := step_cases next
    · have less := lt_of_advance phase next
      have ahead := live.ahead curr (by rw [phase]; rfl)
      have point := (live.sound.advance curr).points .day
      have size : (s.advance curr).size .day = s.size .day := rfl
      have now : s.msec_count + 1 ≤ curr.toNat := by omega
      have days := Nat.div_le_div_right (c := 86400) (Nat.div_le_div_right (c := s.rate) now)
      rw [point, size]
      exact Nat.lt_of_le_of_lt days ahead
    · obtain ⟨j, other⟩ := exists_untouched s a
      have frame := within.frame j other
      rw [frame.point, frame.size]
      exact live.inside
  · intro curr phase
    rw [TimeWheel.rate, size_step next]
    rcases curr_step next phase with before | ⟨interval, rfl, rfl⟩
    · exact live.ahead curr before
    · obtain ⟨natural, day⟩ := fits
      have days := day_clock s.sizeT live.sound.rate.1 natural
      have size : s.size .msec = s.rate := rfl
      rw [size]
      omega

theorem live_init (w : SizeT) {M days : Nat} (rate : 0 < M ∧ M ≤ 1000) (bound : 0 < days ∧ days < 2 ^ 31) :
    Live (init w days M) where
  sound := (sound_init w rate bound.2).sound
  housed k := .away rfl (fun _ _ => rfl) fun curr ps phase => by cases phase
  inside := bound.1
  ahead curr phase := by cases phase

theorem accesses_ret (callee : s.callee = some timer) : accesses s .ret =
    if timer.count = 1 then []
    else if s.getTimerTick (s.rearmed timer).due ≤ s.msec_count then [(.msec, (s.point .msec : Int))]
    else [(s.target (s.rearmed timer).due, (s.rearmed timer).due (s.target (s.rearmed timer).due))] := by
  simp only [accesses, callee]
  rfl

/-- The wheel goes on only from accesses inside. -/
theorem inBounds_of_step (next : step s a = some t) : InBounds s a := by
  intro x mem
  cases a with
  | createTimer diff interval count =>
    simp only [step] at next
    split_ifs at next
    obtain rfl := List.mem_singleton.1 mem
    unfold TimeWheel.createTimer at next
    dsimp only at next
    rw [place_eq_target] at next
    obtain ⟨low, high, -⟩ := push_eq_some next
    exact ⟨low, high⟩
  | removeTimer id => cases mem
  | update interval => cases mem
  | go =>
    simp only [accesses] at mem
    split at mem
    · next curr p ps phase =>
      simp only [step, phase] at next
      rcases List.mem_cons.1 mem with rfl | mem
      · refine ⟨Int.natCast_nonneg _, Int.ofNat_lt.2 ?_⟩
        by_contra outside
        simp only [TimeWheel.visit, if_pos (Nat.le_of_not_lt outside)] at next
        cases next
      · obtain ⟨timer, found, mem⟩ := Option.bind_eq_some_iff.1 (Option.mem_toList.1 mem)
        obtain ⟨k, head, here⟩ := Option.bind_eq_some_iff.1 found
        obtain ⟨q, lower, rfl⟩ := Option.map_eq_some_iff.1 mem
        obtain ⟨empty, -⟩ | ⟨id, ids, timer', list, here', way⟩ := visit_cases next
        · rw [empty] at head
          cases head
        rw [list] at head
        obtain rfl := Option.some.inj head
        obtain rfl := Option.some.inj (here.symm.trans here')
        obtain ⟨q', lower', pushed⟩ | ⟨none', -⟩ := way
        · obtain rfl := Option.some.inj (lower.symm.trans lower')
          obtain ⟨low, high, -⟩ := push_eq_some pushed
          exact ⟨low, high⟩
        · cases lower.symm.trans none'
    · cases mem
  | ret =>
    simp only [step] at next
    split at next
    · next curr ps k phase =>
      obtain ⟨timer, here, -, way⟩ := finish_cases next
      have callee : s.callee = some timer := by
        simp only [TimeWheel.callee, phase, here]
      rw [accesses_ret callee] at mem
      obtain ⟨last, -⟩ | ⟨more, ⟨soon, pushed⟩ | ⟨later, placed⟩⟩ := way
      · rw [if_pos last] at mem
        cases mem
      · rw [if_neg more, if_pos soon] at mem
        obtain rfl := List.mem_singleton.1 mem
        obtain ⟨low, high, -⟩ := push_eq_some pushed
        exact ⟨low, high⟩
      · rw [if_neg more, if_neg (Int.not_le.2 later)] at mem
        obtain rfl := List.mem_singleton.1 mem
        rw [place_eq_target] at placed
        obtain ⟨low, high, -⟩ := push_eq_some placed
        exact ⟨low, high⟩
    · cases next

/-- All accesses of the next step are inside the wheels. -/
theorem Live.inBounds (live : Live s) (fits : Fits s a) : InBounds s a := by
  have points : ∀ p, 0 ≤ (s.point p : Int) ∧ (s.point p : Int) < s.size p := by
    intro p
    have low := digit_lt live.sound (n := s.msec_count) (by rw [← live.sound.points]; exact live.inside) p
    rw [← live.sound.points] at low
    omega
  intro x mem
  cases a with
  | createTimer diff interval count =>
    obtain ⟨natural, -, day⟩ := fits
    have parts := due_createTimer live.sound day
    rw [Int.toNat_of_nonneg natural] at parts
    obtain rfl := List.mem_singleton.1 mem
    exact target_inside live.sound parts day
  | removeTimer id => cases mem
  | update interval => cases mem
  | go =>
    simp only [accesses] at mem
    split at mem
    · next curr p ps phase =>
      rcases List.mem_cons.1 mem with rfl | mem
      · exact points p
      · obtain ⟨timer, found, mem⟩ := Option.bind_eq_some_iff.1 (Option.mem_toList.1 mem)
        obtain ⟨k, head, here⟩ := Option.bind_eq_some_iff.1 found
        obtain ⟨q, next, rfl⟩ := Option.map_eq_some_iff.1 mem
        obtain ⟨timer', here', ⟨-, n, parts⟩, -⟩ := live.listed (List.mem_of_mem_head? head)
        obtain rfl := Option.some.inj (here.symm.trans here')
        have lower : q ≠ .day := by
          have mem := List.mem_of_find?_eq_some next
          cases p <;> cases q <;> simp [Part.below] at mem ⊢
        have low : digit s.rate q n < s.size q := by
          obtain ⟨hour, min, sec⟩ := live.sound.sizes
          cases q with
          | day => exact absurd rfl lower
          | hour => rw [hour]; exact Nat.mod_lt _ (by decide)
          | min => rw [min]; exact Nat.mod_lt _ (by decide)
          | sec => rw [sec]; exact Nat.mod_lt _ (by decide)
          | msec => exact Nat.mod_lt _ live.sound.rate.1
        dsimp only
        rw [parts q lower]
        omega
    · cases mem
  | ret =>
    cases callee : s.callee with
    | none =>
      simp only [accesses, callee] at mem
      cases mem
    | some timer =>
      rw [accesses_ret callee] at mem
      have clocked : Clocked s.rate timer := by
        cases phase : s.phase with
        | calling curr ps id =>
          obtain ⟨timer', here, callee', clocked, -⟩ := live.called phase
          obtain rfl := Option.some.inj (callee.symm.trans callee')
          exact clocked
        | idle => simp [TimeWheel.callee, phase] at callee
        | ticking curr => simp [TimeWheel.callee, phase] at callee
        | visiting curr ps => simp [TimeWheel.callee, phase] at callee
      split_ifs at mem with last soon
      · cases mem
      · obtain rfl := List.mem_singleton.1 mem
        exact points .msec
      · obtain rfl := List.mem_singleton.1 mem
        obtain ⟨day, parts⟩ := live.rearmed fits callee last clocked
        exact target_inside live.sound parts day

end Steps

theorem live_run {w : SizeT} {M days : Nat} {as : List Action} {s : TimeWheel} (rate : 0 < M ∧ M ≤ 1000)
    (bound : 0 < days ∧ days < 2 ^ 31) (run : Runs step Fits (init w days M) as s) : Live s :=
  run.invariant Live (live_init w rate bound) fun _ _ _ live fits next => live.step fits next

/-- `Init` makes no more than 1000 ticks in a second. -/
theorem init_clip (w : SizeT) (days : Nat) {M : Nat} (many : 1000 < M) : init w days M = init w days 1000 := by
  simp [init, many]

/-- **Indices inside the wheels.** From every `Init`, after every run in which the days are inside the day wheel, all
accesses of the next step are inside their wheels. -/
theorem indices_inside (w : SizeT) (day_count millsec_count : Nat) (days : 0 < day_count ∧ day_count < 2 ^ 31)
    (rate : 0 < millsec_count) (as : List Action) (s : TimeWheel) (run : Runs step Fits (init w day_count millsec_count) as s)
    (a : Action) (fits : Fits s a) : InBounds s a := by
  rcases Nat.lt_or_ge 1000 millsec_count with many | few
  · rw [init_clip w day_count many] at run
    exact (live_run (by decide) days run).inBounds fits
  · exact (live_run ⟨rate, few⟩ days run).inBounds fits

/-- A timer of 150 ms in its first callback, to be called again every 250 ms. -/
theorem indices_inside_callback : ∃ s, Runs step Fits (init .w64 1 10) [.createTimer 150 250 (-1), .update 200, .go, .go] s ∧
    accesses s .ret = [(.msec, 3)] ∧ InBounds s .ret := by
  have ran : ∃ s, Runs step Fits (init .w64 1 10) [.createTimer 150 250 (-1), .update 200, .go, .go] s ∧
      (accesses s .ret = [(.msec, 3)] ∧ Fits s .ret) := by
    apply Runs.exists_of_decide
    decide +kernel
  obtain ⟨s, run, accesses, fits⟩ := ran
  exact ⟨s, run, accesses, indices_inside .w64 1 10 (by decide) (by decide) _ s run .ret fits⟩

/-- After a day a wheel of one day is indexed at 1. -/
theorem day_outside : ∃ as s, Runs step (fun _ a => a = .update 86400000 ∨ a = .go) (init .w64 1 1) as s ∧
    (.day, 1) ∈ accesses s .go ∧ ¬ InBounds s .go ∧ step s .go = none := by
  have first : Runs step (fun _ a => a = .update 86400000 ∨ a = .go) (init .w64 1 1) [.update 86400000]
      (emptyAt .w64 1 1 0 (.ticking 86400)) := by
    rw [init_eq_emptyAt]
    exact Runs.single (.inl rfl) rfl
  obtain ⟨as, run⟩ := @runs_emptyAt .w64 1 86400 1 86399 (fun _ a => a = .update 86400000 ∨ a = .go) (fun _ => .inr rfl)
    (by decide) (by decide) (by decide)
  have next : step (emptyAt .w64 1 1 86399 (.ticking 86400)) .go = some ((emptyAt .w64 1 1 86399 (.ticking 86400)).advance 86400) :=
    congrArg some (if_pos (by decide))
  rw [advance_emptyAt .w64 1 86400 (by decide)] at next
  have last : Runs step (fun _ a => a = .update 86400000 ∨ a = .go) (emptyAt .w64 1 1 86399 (.ticking 86400)) [.go]
      (emptyAt .w64 1 1 86400 (.visiting 86400 (rolled 1 86400 :: (rolled 1 86400).below))) := Runs.single (.inr rfl) next
  have outside : (.day, 1) ∈ accesses (emptyAt .w64 1 1 86400 (.visiting 86400 (rolled 1 86400 :: (rolled 1 86400).below))) .go := by
    decide +kernel
  have beyond : ¬ InBounds (emptyAt .w64 1 1 86400 (.visiting 86400 (rolled 1 86400 :: (rolled 1 86400).below))) .go := by
    intro inside
    exact absurd (inside _ outside).2 (by decide)
  refine ⟨_, _, (first.trans run).trans last, outside, beyond, ?_⟩
  apply Option.eq_none_iff_forall_ne_some.2
  intro t next
  exact beyond (inBounds_of_step next)

end GameServer.Timers.Wheel
