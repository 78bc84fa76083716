import GameServer.Timers.WheelInv

/-!
# One-shot timers

`AddTime`'s carries make the due time of a new timer the parts of the tick it is due at
(`addParts_eq`), so a new timer waits in the right list (`waiting_createTimer`). A timer
with count one is then called at that tick and no other (`one_shot_exact`).
-/

namespace GameServer.Timers.Wheel

open GameServer.Lib

section Create

variable {s t : TimeWheel}

theorem scale_natCast (w : SizeT) {a M : Nat} (small : a * M < 2 ^ 64) :
    w.scale (a : Int) M = ((a * M / 1000 : Nat) : Int) := by
  have cast : (a : Int) * M = ((a * M : Nat) : Int) := by push_cast; rfl
  cases w with
  | w32 =>
    simp only [SizeT.scale]
    rw [cast, Int.tdiv_eq_ediv_of_nonneg (Int.natCast_nonneg _)]
    rfl
  | w64 =>
    simp only [SizeT.scale]
    rw [cast, Int.emod_eq_of_lt (Int.natCast_nonneg _) (by omega)]
    rfl

theorem parts_natCast (sound : Sound s) (ms : Nat) (days : ms / 86400000 < 2 ^ 31) (p : Part) :
    s.parts ms p = match p with
      | .day => ((ms / 86400000 : Nat) : Int)
      | .hour => ((ms / 3600000 % 24 : Nat) : Int)
      | .min => ((ms / 60000 % 60 : Nat) : Int)
      | .sec => ((ms / 1000 % 60 : Nat) : Int)
      | .msec => ((ms % 1000 * s.rate / 1000 : Nat) : Int) := by
  have rest := rest_lt ms sound.rate.1
  have rate := sound.rate.2
  have ms' : (0 : Int) ≤ ms := Int.natCast_nonneg ms
  cases p with
  | day =>
    simp only [TimeWheel.parts]
    rw [Int.tdiv_eq_ediv_of_nonneg ms', toInt32_eq] <;> omega
  | hour =>
    simp only [TimeWheel.parts]
    rw [Int.tdiv_eq_ediv_of_nonneg ms', Int.tmod_eq_emod_of_nonneg (by omega)]
    omega
  | min =>
    simp only [TimeWheel.parts]
    rw [Int.tdiv_eq_ediv_of_nonneg ms', Int.tmod_eq_emod_of_nonneg (by omega)]
    omega
  | sec =>
    simp only [TimeWheel.parts]
    rw [Int.tdiv_eq_ediv_of_nonneg ms', Int.tmod_eq_emod_of_nonneg (by omega)]
    omega
  | msec =>
    have low : ms % 1000 < 1000 := Nat.mod_lt _ (by decide)
    have cast : (ms : Int).tmod 1000 = ((ms % 1000 : Nat) : Int) := by
      rw [Int.tmod_eq_emod_of_nonneg ms']
      omega
    have size : s.size .msec = s.rate := rfl
    have small : ms % 1000 * s.rate ≤ 1000 * 1000 := Nat.mul_le_mul (Nat.le_of_lt low) sound.rate.2
    simp only [TimeWheel.parts]
    rw [cast, size, scale_natCast _ (by omega), toInt32_eq] <;> omega

/-- One part: the digit of the sum, and its carry. -/
theorem addTime_nat {t point interval : Nat} (b : Bool) (low : point < interval) (low' : t < interval) :
    (addTime t point interval b).1 = ((point + t + b.toNat) % interval : Nat) ∧
      (addTime t point interval b).2.toNat = (point + t + b.toNat) / interval := by
  have room : point + t + b.toNat < 2 * interval := by
    have := b.toNat_le
    omega
  have temp : (point : Int) + t + (if b then 1 else 0) = ((point + t + b.toNat : Nat) : Int) := by
    cases b <;> simp
  simp only [addTime]
  rw [temp]
  generalize point + t + b.toNat = sum at *
  split_ifs with carry
  · have sub : sum = interval * 1 + (sum - interval) := by omega
    have less : sum - interval < interval := by omega
    refine ⟨?_, ?_⟩
    · conv_rhs => rw [sub, Nat.mul_add_mod, Nat.mod_eq_of_lt less]
      omega
    · conv_rhs => rw [sub, Nat.mul_add_div (by omega), Nat.div_eq_of_lt less]
      rfl
  · have less : sum < interval := by omega
    exact ⟨by rw [Nat.mod_eq_of_lt less], by rw [Nat.div_eq_of_lt less]; rfl⟩

/-- The carries of `AddTime` through seconds, minutes and hours: `first` seconds and `ms`
milliseconds are `second` seconds. -/
theorem addTime_chain {first second ms : Nat} {b : Bool} (sum : second = first + ms / 1000 + b.toNat) :
    let sec := addTime ((ms / 1000 % 60 : Nat) : Int) ((first % 60 : Nat) : Int) 60 b
    let min := addTime ((ms / 60000 % 60 : Nat) : Int) ((first / 60 % 60 : Nat) : Int) 60 sec.2
    let hour := addTime ((ms / 3600000 % 24 : Nat) : Int) ((first / 3600 % 24 : Nat) : Int) 24 min.2
    sec.1 = (second % 60 : Nat) ∧ min.1 = (second / 60 % 60 : Nat) ∧ hour.1 = (second / 3600 % 24 : Nat) ∧
      second / 86400 = first / 86400 + ms / 86400000 + hour.2.toNat := by
  intro sec min hour
  have lt60 : ∀ n, n % 60 < 60 := fun n => Nat.mod_lt n (by decide)
  have lt24 : ∀ n, n % 24 < 24 := fun n => Nat.mod_lt n (by decide)
  obtain ⟨sec1, sec2⟩ : sec.1 = _ ∧ sec.2.toNat = _ := addTime_nat b (lt60 first) (lt60 (ms / 1000))
  obtain ⟨min1, min2⟩ : min.1 = _ ∧ min.2.toNat = _ := addTime_nat sec.2 (lt60 (first / 60)) (lt60 (ms / 60000))
  obtain ⟨hour1, hour2⟩ : hour.1 = _ ∧ hour.2.toNat = _ := addTime_nat min.2 (lt24 (first / 3600)) (lt24 (ms / 3600000))
  obtain ⟨digit1, over1⟩ := carry_eq first (ms / 1000) b.toNat (by decide : 0 < 60)
  obtain ⟨digit2, over2⟩ := carry_eq (first / 60) (ms / 1000 / 60) sec.2.toNat (by decide : 0 < 60)
  obtain ⟨digit3, over3⟩ := carry_eq (first / 60 / 60) (ms / 1000 / 60 / 60) min.2.toNat (by decide : 0 < 24)
  simp only [Nat.div_div_eq_div_mul, Nat.reduceMul] at digit2 digit3 over1 over2 over3
  rw [← digit1, ← sum] at sec1
  rw [← sum, ← sec2] at over1
  rw [← over1, ← min2] at over2
  rw [← over1] at digit2
  rw [← digit2] at min1
  rw [Nat.div_div_eq_div_mul] at over2
  rw [← over2, ← hour2, Nat.div_div_eq_div_mul] at over3
  rw [← over2] at digit3
  rw [← digit3] at hour1
  exact ⟨sec1, min1, hour1, over3⟩

theorem day_eq {a b c : Nat} {carry : Bool} (sum : c = a + b + carry.toNat) (bound : c < 2 ^ 31) :
    toInt32 (a + toInt32 (b + if carry then 1 else 0)) = (c : Int) := by
  have carried : (if carry then (1 : Int) else 0) = carry.toNat := by cases carry <;> rfl
  have inner : toInt32 ((b : Int) + carry.toNat) = b + carry.toNat := toInt32_eq (by omega) (by omega)
  rw [carried, inner, toInt32_eq] <;> omega

/-- Adding times part by part with carries adds the ticks. -/
theorem addParts_eq (sound : Sound s) {start : Part → Int} {n ms : Nat}
    (parts : ∀ p, p ≠ .day → start p = digit s.rate p n) (day : s.point .day = digit s.rate .day n)
    (bound : digit s.rate .day (n + ticks s.rate ms) < 2 ^ 31) (p : Part) :
    s.addParts start ms p = digit s.rate p (n + ticks s.rate ms) := by
  obtain ⟨rest, second⟩ := add_ticks sound.rate.1 n ms
  obtain ⟨msec1, carry⟩ := addTime_nat false (Nat.mod_lt n sound.rate.1) (rest_lt ms sound.rate.1)
  simp only [Bool.toNat_false, Nat.add_zero] at msec1 carry
  rw [← rest] at msec1
  rw [← carry] at second
  obtain ⟨sec1, min1, hour1, day1⟩ := addTime_chain second
  have days : ms / 86400000 < 2 ^ 31 := by
    simp only [digit] at bound
    rw [day1] at bound
    exact Nat.lt_of_le_of_lt (Nat.le_trans (Nat.le_add_left _ _) (Nat.le_add_right _ _)) bound
  have time := parts_natCast sound ms days
  have size : (s.size .msec : Int) = s.rate := rfl
  unfold TimeWheel.addParts
  simp only [time, parts .hour (by decide), parts .min (by decide), parts .sec (by decide), parts .msec (by decide), size,
    day, digit]
  cases p with
  | day => exact day_eq day1 bound
  | hour => exact hour1
  | min => exact min1
  | sec => exact sec1
  | msec => exact msec1

theorem digit_lt (sound : Sound s) {n : Nat} (day : digit s.rate .day n < s.size .day) (p : Part) :
    digit s.rate p n < s.size p := by
  obtain ⟨hour, min, sec⟩ := sound.sizes
  cases p with
  | day => exact day
  | hour => rw [hour]; exact Nat.mod_lt _ (by decide)
  | min => rw [min]; exact Nat.mod_lt _ (by decide)
  | sec => rw [sec]; exact Nat.mod_lt _ (by decide)
  | msec => exact Nat.mod_lt _ sound.rate.1

theorem place_eq (sound : Sound s) {due : Part → Int} {n k : Nat} (parts : ∀ p, due p = digit s.rate p n) :
    s.place due k = s.push (firstDiff s.rate s.msec_count n) (due (firstDiff s.rate s.msec_count n)) k := by
  unfold TimeWheel.place firstDiff
  simp only [parts, sound.points, ne_eq, Nat.cast_inj]
  split_ifs <;> rfl

theorem place_inside (sound : Sound s) {due : Part → Int} {n : Nat} (k : Nat) (parts : ∀ p, due p = digit s.rate p n)
    (day : digit s.rate .day n < s.size .day) : ∃ t, s.place due k = some t := by
  have inside := digit_lt sound day (firstDiff s.rate s.msec_count n)
  rw [place_eq sound parts, parts, TimeWheel.push, if_pos (by omega)]
  exact ⟨_, rfl⟩

/-- A timer goes to the wheel of the first part that differs. -/
theorem place_waits (sound : Sound s) {due : Part → Int} {n k : Nat} (parts : ∀ p, due p = digit s.rate p n)
    (soon : s.msec_count < n ∨ s.msec_count = n ∧ .msec ∈ s.phase.parts) (nowhere : Nowhere s k)
    (next : s.place due k = some t) :
    (∃ p i ids, t = s.setWheel p i ids) ∧ ∃ p, Located t k p (digit s.rate p n) ∧ Placed s.rate s.msec_count s.phase.parts p n := by
  rw [place_eq sound parts] at next
  have located := nowhere.push next
  rw [parts, Int.toNat_natCast] at located
  obtain ⟨-, -, same⟩ := push_eq_some next
  exact ⟨⟨_, _, _, same⟩, _, located, placed_firstDiff soon⟩

theorem Sound.newTimer (sound : Sound s) (timer : Timer) : Sound (s.newTimer timer) where
  sizes := sound.sizes
  days := sound.days
  rate := sound.rate
  points := sound.points
  parts := sound.parts
  fresh k beyond := by
    have beyond : s.created + 1 ≤ k := beyond
    obtain ⟨zero, none', calls⟩ := sound.fresh k (by omega)
    refine ⟨zero, ?_, calls⟩
    have other : k ≠ s.created := by omega
    simpa [TimeWheel.newTimer, other] using none'
  called curr ps id phase := Nat.lt_succ_of_lt (sound.called curr ps id phase)

/-- The due time of a new timer is that of its due tick. -/
theorem due_createTimer (sound : Sound s) {ms : Nat}
    (day : digit s.rate .day (s.msec_count + ticks s.rate ms) < s.size .day) (p : Part) :
    s.addParts (fun p => s.point p) ms p = digit s.rate p (s.msec_count + ticks s.rate ms) := by
  have start : ∀ p : Part, p ≠ .day → (s.point p : Int) = digit s.rate p s.msec_count := fun p _ => by
    rw [sound.points p]
  exact addParts_eq sound start (sound.points .day) (Nat.lt_trans day sound.days) p

theorem createTimer_inside (sound : Sound s) {ms : Nat} (interval count : Int)
    (day : digit s.rate .day (s.msec_count + ticks s.rate ms) < s.size .day) :
    ∃ t, s.createTimer ms interval count = some t :=
  place_inside (sound.newTimer _) s.created (due_createTimer sound day) day

/-- A new timer waits for the tick it is due at. -/
theorem waiting_createTimer (sound : Sound s) {ms : Nat} {interval count : Int}
    (soon : 0 < ticks s.rate ms ∨ .msec ∈ s.phase.parts)
    (day : digit s.rate .day (s.msec_count + ticks s.rate ms) < s.size .day)
    (next : s.createTimer ms interval count = some t) :
    ∃ due, Waiting t s.created (s.msec_count + ticks s.rate ms) ⟨due, interval, count, false⟩ ∧
      t.callsOf s.created = [] := by
  have parts := due_createTimer sound day
  have soon : s.msec_count < s.msec_count + ticks s.rate ms ∨
      s.msec_count = s.msec_count + ticks s.rate ms ∧ .msec ∈ s.phase.parts := by
    rcases Nat.eq_zero_or_pos (ticks s.rate ms) with zero | pos
    · exact .inr ⟨by omega, soon.resolve_left (by omega)⟩
    · exact .inl (by omega)
  obtain ⟨zero, -, calls⟩ := sound.fresh s.created (le_refl _)
  obtain ⟨⟨p, i, ids, rfl⟩, place⟩ := place_waits (sound.newTimer _) parts soon zero next
  refine ⟨_, ⟨⟨Function.update_self _ _ _, rfl, parts, Nat.lt_succ_self _⟩, place, ?_⟩, calls⟩
  intro curr ps phase
  exact absurd (sound.called curr ps s.created phase) (Nat.lt_irrefl _)

end Create

theorem exists_untouched (s : TimeWheel) (a : Action) : ∃ k, touches s a ≠ some k := by
  refine ⟨(touches s a).getD 0 + 1, ?_⟩
  cases touches s a <;> simp

theorem size_step {s t : TimeWheel} {a : Action} (next : step s a = some t) : t.size = s.size := by
  obtain ⟨curr, -, rfl⟩ | within := step_cases next
  · rfl
  · obtain ⟨k, other⟩ := exists_untouched s a
    exact (within.frame k other).size

theorem msec_count_step {s t : TimeWheel} {a : Action} (next : step s a = some t) : s.msec_count ≤ t.msec_count := by
  obtain ⟨curr, -, rfl⟩ | within := step_cases next
  · exact Nat.le_succ _
  · obtain ⟨k, other⟩ := exists_untouched s a
    exact (within.frame k other).msec_count.ge

/-- `k` has been called for the last time and deleted. -/
structure Gone (s : TimeWheel) (k : Nat) : Prop where
  nowhere : Nowhere s k
  old : k < s.created
  uncalled : ∀ curr ps, s.phase ≠ .calling curr ps k

section Calls

variable {s t : TimeWheel} {a : Action} {k due : Nat} {timer : Timer}

/-- While a timer is being called nothing concerns it but calls from the callback, until the callback is over. -/
theorem step_calling {curr : Int} {ps : List Part} (phase : s.phase = .calling curr ps k) (old : k < s.created)
    (kept : a ≠ .removeTimer k) (next : step s a = some t) :
    Frame k s t ∧ t.phase = s.phase ∨ a = .ret ∧ s.finish curr ps k = some t := by
  cases a with
  | createTimer diff interval count =>
    simp only [Wheel.step] at next
    split_ifs at next
    exact .inl ⟨frame_createTimer (Nat.ne_of_gt old) next, phase_createTimer next⟩
  | removeTimer id =>
    simp only [Wheel.step] at next
    split_ifs at next
    have other : id ≠ k := fun same => kept (by rw [same])
    exact .inl ⟨frame_removeTimer other next, phase_removeTimer next⟩
  | update interval => simp [Wheel.step, phase] at next
  | go => simp [Wheel.step, phase] at next
  | ret =>
    simp only [Wheel.step, phase] at next
    exact .inr ⟨rfl, next⟩

/-- In its callback a timer is out of the lists, until the callback is over. -/
theorem Calling.step (calling : Calling s k due timer) (kept : a ≠ .removeTimer k) (next : step s a = some t) :
    Calling t k due timer ∧ t.callsOf k = s.callsOf k ∨
      a = .ret ∧ ∃ curr ps, s.phase = .calling curr ps k ∧ s.finish curr ps k = some t := by
  obtain ⟨curr, ps, phase⟩ := calling.phase
  rcases step_calling phase calling.old kept next with ⟨frame, same⟩ | ⟨ret, ended⟩
  · refine .inl ⟨⟨calling.toTimed.frame frame, frame.msec_count.trans calling.now, ⟨curr, ps, same.trans phase⟩, ?_⟩, frame.calls⟩
    exact fun q j => (frame.wheel q j).trans (calling.nowhere q j)
  · exact .inr ⟨ret, curr, ps, phase, ended⟩

theorem Gone.step (gone : Gone s k) (kept : a ≠ .removeTimer k) (next : step s a = some t) :
    Gone t k ∧ t.callsOf k = s.callsOf k := by
  obtain ⟨curr, -, rfl⟩ | within := step_cases next
  · exact ⟨⟨gone.nowhere, gone.old, by simp [TimeWheel.advance]⟩, rfl⟩
  have other : touches s a ≠ some k := by
    intro touch
    rcases touch_cases next touch with ⟨_, _, _, -, same, -⟩ | ⟨removes, -⟩ | ⟨curr, p, ps, -, -, first, -⟩ | ⟨curr, ps, -, phase, -⟩
    · exact gone.old.ne' same
    · exact kept removes
    · have zero := gone.nowhere p (s.point p)
      rw [List.count_eq_zero] at zero
      exact zero (List.mem_of_mem_head? first)
    · exact gone.uncalled curr ps phase
  have frame := within.frame k other
  refine ⟨⟨fun q j => (frame.wheel q j).trans (gone.nowhere q j), Nat.lt_of_lt_of_le gone.old frame.created, ?_⟩,
    frame.calls⟩
  intro curr ps calling
  rcases within.calling curr ps k calling with before | touch
  · exact gone.uncalled curr ps before
  · exact other touch

/-- The wheels to visit have nothing below them. -/
theorem Sound.whole (sound : Sound s) {p : Part} (mem : p ∈ s.phase.parts) : Whole s.rate p s.msec_count := by
  cases parts : s.phase.parts with
  | nil => rw [parts] at mem; cases mem
  | cons q qs =>
    obtain ⟨rfl, whole⟩ := sound.parts q qs parts
    rw [parts] at mem
    rcases List.mem_cons.1 mem with rfl | below
    · exact whole
    · intro r mem
      exact whole r (below_trans below mem)

/-- A timer waits until its tick, and then until its wheel is visited. -/
theorem Waiting.before (waiting : Waiting s k due timer) (sound : Sound s) :
    s.msec_count < due ∨ s.msec_count = due ∧ s.phase.parts ≠ [] := by
  obtain ⟨p, -, -, less | ⟨same, mem⟩⟩ := waiting.place
  · left
    by_contra reached
    have mono := floor_mono (M := s.rate) (Nat.le_of_not_lt reached) p
    omega
  · have down := down s.rate s.msec_count due p (sound.whole mem) same
    split at down
    · next q _ =>
      left
      by_contra reached
      have mono := floor_mono (M := s.rate) (Nat.le_of_not_lt reached) q
      omega
    · exact .inr ⟨down.symm, List.ne_nil_of_mem mem⟩

end Calls

/-- `k` is called at the tick `due` and at no other: before that it has not been called, and
once the wheels of that tick are visited it has. -/
structure CalledOnce (s : TimeWheel) (k due : Nat) : Prop where
  calls : s.callsOf k = [] ∨ s.callsOf k = [due]
  notEarly : s.callsOf k = [due] → due ≤ s.msec_count
  notLate : s.callsOf k = [] → s.msec_count < due ∨ s.msec_count = due ∧ s.phase.parts ≠ []

/-- A timer with count one: it waits, or is being called, or is gone. -/
def OneShot (k due : Nat) (timer : Timer) (s : TimeWheel) : Prop :=
  Sound s ∧ (Waiting s k due timer ∧ s.callsOf k = [] ∨ Calling s k due timer ∧ s.callsOf k = [due] ∨
    Gone s k ∧ s.callsOf k = [due] ∧ due ≤ s.msec_count)

section OneShot

variable {s t : TimeWheel} {a : Action} {k due : Nat} {timer : Timer}

theorem OneShot.calledOnce (shot : OneShot k due timer s) : CalledOnce s k due := by
  obtain ⟨sound, ⟨waiting, none'⟩ | ⟨calling, once⟩ | ⟨-, once, past⟩⟩ := shot
  · exact ⟨.inl none', by simp [none'], fun _ => waiting.before sound⟩
  · exact ⟨.inr once, fun _ => calling.now.ge, by simp [once]⟩
  · exact ⟨.inr once, fun _ => past, by simp [once]⟩

/-- After its last call the timer is deleted. -/
theorem finish_gone {curr : Int} {ps : List Part} (here : s.timers k = some timer) (last : timer.count = 1) (old : k < s.created)
    (nowhere : Nowhere s k) (next : s.finish curr ps k = some t) : Gone t k ∧ t.callsOf k = s.callsOf k ∧ t.msec_count = s.msec_count := by
  obtain ⟨timer', here', -, ⟨-, rfl⟩ | ⟨more, -⟩⟩ := finish_cases next
  · exact ⟨⟨nowhere, old, by simp [TimeWheel.back]⟩, rfl, rfl⟩
  · obtain rfl := Option.some.inj (here.symm.trans here')
    exact absurd last more

theorem finish_last {curr : Int} {ps : List Part} (calling : Calling s k due timer) (last : timer.count = 1)
    (next : s.finish curr ps k = some t) : Gone t k ∧ t.callsOf k = s.callsOf k ∧ t.msec_count = due := by
  obtain ⟨gone, calls, now⟩ := finish_gone calling.here last calling.old calling.nowhere next
  exact ⟨gone, calls, now.trans calling.now⟩

theorem OneShot.step (shot : OneShot k due timer s) (last : timer.count = 1) (kept : a ≠ .removeTimer k)
    (next : step s a = some t) : OneShot k due timer t := by
  obtain ⟨sound, state⟩ := shot
  refine ⟨sound.step next, ?_⟩
  obtain ⟨waiting, none'⟩ | ⟨calling, once⟩ | ⟨gone, once, past⟩ := state
  · rcases waiting.step sound kept next with ⟨waiting', calls⟩ | ⟨calling, calls⟩
    · exact .inl ⟨waiting', calls.trans none'⟩
    · exact .inr (.inl ⟨calling, by rw [calls, none']; rfl⟩)
  · rcases calling.step kept next with ⟨calling', calls⟩ | ⟨-, curr, ps, -, ended⟩
    · exact .inr (.inl ⟨calling', calls.trans once⟩)
    · obtain ⟨gone, calls, now⟩ := finish_last calling last ended
      exact .inr (.inr ⟨gone, calls.trans once, now.ge⟩)
  · obtain ⟨gone', calls⟩ := gone.step kept next
    exact .inr (.inr ⟨gone', calls.trans once, past.trans (msec_count_step next)⟩)

end OneShot

/-- Any step may be taken. -/
def Any (_ : TimeWheel) (_ : Action) : Prop := True

/-- Nobody releases the timer `k`. -/
def Keeps (k : Nat) (_ : TimeWheel) (a : Action) : Prop := a ≠ .removeTimer k

/-- What every state of a wheel with `M` ticks in a second and `D` days keeps. -/
structure SoundFor (M D : Nat) (s : TimeWheel) : Prop where
  sound : Sound s
  rate : s.rate = M
  size : s.size .day = D

theorem sound_init (w : SizeT) {M days : Nat} (rate : 0 < M ∧ M ≤ 1000) (bound : days < 2 ^ 31) :
    SoundFor M days (init w days M) := by
  have same : (init w days M).rate = M := if_neg (Nat.not_lt.2 rate.2)
  refine ⟨⟨⟨rfl, rfl, rfl⟩, bound, by rw [same]; exact rate, ?_, ?_, ?_, ?_⟩, same, rfl⟩
  · intro p
    rw [same]
    cases p <;> simp [init, digit]
  · intro p ps parts
    cases parts
  · intro k _
    exact ⟨fun _ _ => rfl, rfl, rfl⟩
  · intro curr ps id calling
    cases calling

theorem sound_run {w : SizeT} {M days : Nat} {ok : TimeWheel → Action → Prop} {as : List Action} {s : TimeWheel}
    (rate : 0 < M ∧ M ≤ 1000) (bound : days < 2 ^ 31) (run : Runs step ok (init w days M) as s) :
    SoundFor M days s := by
  refine run.invariant (SoundFor M days) (sound_init w rate bound) ?_
  intro s a t sound _ next
  have size := size_step next
  exact ⟨sound.sound.step next, by rw [TimeWheel.rate, size]; exact sound.rate, by rw [size]; exact sound.size⟩

/-- **One-shot timers.** In every state the wheel gets to, at its tick `T` or in a callback
there, a timer created with count one for a delay of at least one tick is called exactly
once, at `T` plus the ticks of the delay, however the run goes on. -/
theorem one_shot_exact (w : SizeT) (M days : Nat) (rate : 0 < M ∧ M ≤ 1000) (bound : days < 2 ^ 31) (as : List Action)
    (s : TimeWheel) (run : Runs step Any (init w days M) as s) (callable : s.phase.callable = true) (ms : Nat)
    (interval : Int) (later : 0 < ticks M ms) (day : (s.msec_count + ticks M ms) / M / 86400 < days) :
    ∃ t, step s (.createTimer ms interval 1) = some t ∧ ∀ bs u, Runs step (Keeps s.created) t bs u →
      CalledOnce u s.created (s.msec_count + ticks M ms) := by
  have sound := sound_run rate bound run
  obtain ⟨sound, rfl, rfl⟩ := sound
  obtain ⟨t, next⟩ := createTimer_inside sound interval 1 day
  obtain ⟨due, waiting, calls⟩ := waiting_createTimer sound (.inl later) day next
  have next : step s (.createTimer ms interval 1) = some t := by
    simp only [step, callable, if_true]
    exact next
  refine ⟨t, next, ?_⟩
  intro bs u rest
  have shot : OneShot s.created (s.msec_count + ticks s.rate ms) ⟨due, interval, 1, false⟩ t :=
    ⟨sound.step next, .inl ⟨waiting, calls⟩⟩
  exact (rest.invariant (OneShot _ _ _) shot fun _ _ _ shot kept next => shot.step rfl kept next).calledOnce

/-- A wheel of ten ticks a second with one timer of 150 ms. -/
def shotState : TimeWheel := ((init .w64 1 10).createTimer 150 150 1).getD (init .w64 1 10)

/-- One update over the first two ticks. -/
def shotRun : List Action := [.update 200, .go, .go, .ret, .go, .go, .go, .go]

def shotEnd : TimeWheel := (runChecked step (fun _ a => decide (a ≠ .removeTimer 0)) shotState shotRun).getD shotState

theorem one_shot_exact_tick : shotEnd.callsOf 0 = [1] ∧ shotEnd.msec_count = 2 ∧ CalledOnce shotEnd 0 1 := by
  obtain ⟨t, next, exact'⟩ := one_shot_exact .w64 10 1 (by decide) (by decide) [] (init .w64 1 10) .refl rfl 150 150
    (by decide) (by decide)
  have same : shotState = t := by
    have next : (init .w64 1 10).createTimer 150 150 1 = some t := next
    rw [shotState, next, Option.getD_some]
  have checked : runChecked step (fun _ a => decide (a ≠ .removeTimer 0)) shotState shotRun = some shotEnd :=
    (Option.some_get (by rfl)).symm
  have run : Runs step (Keeps 0) shotState shotRun shotEnd := Runs.of_checked (fun _ _ kept => by simpa [Keeps] using kept) checked
  exact ⟨by decide +kernel, by decide +kernel, exact' shotRun shotEnd (same ▸ run)⟩

end GameServer.Timers.Wheel
