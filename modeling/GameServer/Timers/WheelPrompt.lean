import GameServer.Timers.WheelExact

/-!
# Short delays

`CreateTimer` puts a timer with less than a tick to go in the list at `msec_point`. Outside an update that list has been
visited already, and it is visited again when the point has gone round: the timer is called a whole turn of the last wheel
later, one second (`Late.calledOnce`). With one tick in a second that is the next tick, and otherwise it is too late
(`prompt_iff`).
-/

namespace GameServer.Timers.Wheel

open GameServer.Lib

/-- The point of the day wheel is inside, when the wheel has been visited. -/
def DayReached (s : TimeWheel) : Prop := s.point .day < s.size .day ∨ s.point .day = 0 ∨ .day ∈ s.phase.parts

/-- `k` waits in the list at the point of the tick `T`, which has been visited. -/
structure Parked (s : TimeWheel) (k T : Nat) (timer : Timer) : Prop where
  here : s.timers k = some timer
  unreleased : timer.bRelease = false
  old : k < s.created
  located : Located s k .msec (T % s.rate)
  uncalled : ∀ curr ps, s.phase ≠ .calling curr ps k
  since : T ≤ s.msec_count
  visited : s.msec_count = T → .msec ∉ s.phase.parts
  soon : s.msec_count < T + s.rate ∨ s.msec_count = T + s.rate ∧ .msec ∈ s.phase.parts

/-- `k` is being called, a turn of the wheel after `T`. -/
structure Ringing (s : TimeWheel) (k T : Nat) (timer : Timer) : Prop where
  here : s.timers k = some timer
  old : k < s.created
  nowhere : Nowhere s k
  phase : ∃ curr ps, s.phase = .calling curr ps k
  now : s.msec_count = T + s.rate

section Parked

variable {s t : TimeWheel} {a : Action} {k T : Nat} {timer : Timer}

/-- A wheel that has been visited was inside its bounds at its point. -/
theorem inside_of_visited {p : Part} (next : step s a = some t) (visited : s.phase.parts = p :: t.phase.parts) :
    s.point p < s.size p := by
  have moved : t.phase.parts ≠ s.phase.parts := by
    rw [visited]
    exact (List.cons_ne_self _ _).symm
  cases a with
  | createTimer diff interval count =>
    simp only [step] at next
    split_ifs at next
    exact absurd (congrArg Phase.parts (phase_createTimer next)) moved
  | removeTimer id =>
    simp only [step] at next
    split_ifs at next
    exact absurd (congrArg Phase.parts (phase_removeTimer next)) moved
  | update interval =>
    simp only [step] at next
    split_ifs at next with idle
    rw [idle] at visited
    cases visited
  | go =>
    simp only [step] at next
    split at next
    · next curr phase =>
      rw [phase] at visited
      cases visited
    · next curr q ps phase =>
      rw [phase] at visited
      obtain rfl := (List.cons.inj visited).1
      by_contra outside
      simp only [TimeWheel.visit, if_pos (Nat.le_of_not_lt outside)] at next
      cases next
    · cases next
  | ret =>
    simp only [step] at next
    split at next
    · next curr ps id phase =>
      rw [phase_finish next, phase] at moved
      exact absurd rfl moved
    · cases next

theorem dayReached_step (sound : Sound s) (reached : DayReached s) (next : step s a = some t) : DayReached t := by
  unfold DayReached at reached ⊢
  obtain ⟨curr, phase, rfl⟩ | within := step_cases next
  · have moved := (sound.advance curr).points .day
    have before := sound.points .day
    rw [phase] at reached
    rcases floor_succ sound.rate.1 s.msec_count .day with same | ⟨-, whole⟩
    · have point : (s.advance curr).point .day = s.point .day := by
        rw [moved, before]
        exact same
      rw [point]
      rcases reached with inside | zero | mem
      · exact .inl inside
      · exact .inr (.inl zero)
      · cases mem
    · right; right
      have points : s.point = fun p => digit s.rate p s.msec_count := funext sound.points
      have moved := movePoints_eq (n := s.msec_count) sound.rate.1 sound.sizes
      have same : s.size .msec = s.rate := rfl
      rw [same, ← points] at moved
      unfold TimeWheel.advance
      rw [moved]
      exact mem_rolled.2 whole
  · obtain ⟨j, other⟩ := exists_untouched s a
    have frame := within.frame j other
    rw [frame.point, frame.size]
    rcases reached with inside | zero | mem
    · exact .inl inside
    · exact .inr (.inl zero)
    · rcases within.parts with same | ⟨p, before, -⟩
      · rw [same]
        exact .inr (.inr mem)
      · have visited := inside_of_visited next before
        rw [before] at mem
        rcases List.mem_cons.1 mem with rfl | mem
        · exact .inl visited
        · exact .inr (.inr mem)

/-- A new timer with less than a tick to go is parked. -/
theorem parked_createTimer (sound : Sound s) (reached : DayReached s) (idle : s.phase = .idle) {ms : Nat}
    (short : ticks s.rate ms = 0) (interval count : Int) : ∃ t due, s.createTimer ms interval count = some t ∧
      Parked t s.created s.msec_count ⟨due, interval, count, false⟩ ∧ t.callsOf s.created = [] := by
  have bound : digit s.rate .day (s.msec_count + ticks s.rate ms) < 2 ^ 31 := by
    have days := sound.days
    rw [short, Nat.add_zero, ← sound.points]
    rcases reached with inside | zero | mem
    · omega
    · omega
    · rw [idle] at mem
      cases mem
  have start : ∀ p : Part, p ≠ .day → (s.point p : Int) = digit s.rate p s.msec_count := fun p _ => by
    rw [sound.points p]
  have parts := addParts_eq sound start (sound.points .day) bound
  rw [short, Nat.add_zero] at parts
  have last : firstDiff s.rate s.msec_count s.msec_count = .msec := by simp [firstDiff]
  obtain ⟨zero, -, calls⟩ := sound.fresh s.created (le_refl _)
  unfold TimeWheel.createTimer
  dsimp only
  generalize s.addParts (fun p => s.point p) ms = due at parts
  have placed := place_eq (sound.newTimer ⟨due, interval, count, false⟩) (k := s.created) parts
  have same : firstDiff (s.newTimer ⟨due, interval, count, false⟩).rate (s.newTimer ⟨due, interval, count, false⟩).msec_count
      s.msec_count = .msec := last
  have slot : due .msec = ((s.msec_count % s.rate : Nat) : Int) := parts .msec
  have inside : 0 ≤ due .msec ∧ due .msec < ((s.newTimer ⟨due, interval, count, false⟩).size .msec : Int) := by
    rw [slot]
    exact ⟨Int.natCast_nonneg _, Int.ofNat_lt.2 (Nat.mod_lt _ sound.rate.1)⟩
  rw [same, TimeWheel.push, if_pos inside] at placed
  refine ⟨_, due, placed, ?_, calls⟩
  have nowhere : Nowhere (s.newTimer ⟨due, interval, count, false⟩) s.created := zero
  have located := nowhere.push (p := .msec) (i := due .msec) (if_pos inside)
  rw [slot, Int.toNat_natCast] at located
  rw [slot, Int.toNat_natCast]
  refine ⟨Function.update_self _ _ _, rfl, Nat.lt_succ_self _, located, ?_, Nat.le_refl _, ?_, ?_⟩
  · intro curr ps phase
    have phase : s.phase = .calling curr ps s.created := phase
    rw [idle] at phase
    cases phase
  · intro _ mem
    have mem : .msec ∈ s.phase.parts := mem
    rw [idle] at mem
    cases mem
  · exact .inl (Nat.lt_add_of_pos_right sound.rate.1)

theorem Parked.advance (parked : Parked s k T timer) (sound : Sound s) {curr : Int} (phase : s.phase = .ticking curr) :
    Parked (s.advance curr) k T timer := by
  have points : s.point = fun p => digit s.rate p s.msec_count := funext sound.points
  have moved := movePoints_eq (n := s.msec_count) sound.rate.1 sound.sizes
  have same : s.size .msec = s.rate := rfl
  rw [same, ← points] at moved
  have visits : .msec ∈ (s.advance curr).phase.parts := by
    unfold TimeWheel.advance
    rw [moved]
    exact mem_rolled.2 ((whole_iff _ _ .msec).2 trivial)
  have before : s.msec_count < T + s.rate := by
    refine parked.soon.resolve_right ?_
    rintro ⟨-, mem⟩
    rw [phase] at mem
    cases mem
  have now : (s.advance curr).msec_count = s.msec_count + 1 := rfl
  have rate : (s.advance curr).rate = s.rate := rfl
  have since := parked.since
  refine ⟨parked.here, parked.unreleased, parked.old, parked.located, ?_, ?_, ?_, ?_⟩
  · intro curr' ps calling
    cases calling
  · omega
  · intro again
    omega
  · rw [now, rate]
    rcases Nat.lt_or_ge (s.msec_count + 1) (T + s.rate) with less | last
    · exact .inl less
    · exact .inr ⟨by omega, visits⟩

theorem Parked.within (parked : Parked s k T timer) (sound : Sound s) (within : Within s a t) (other : touches s a ≠ some k) :
    Parked t k T timer := by
  have frame := within.frame k other
  have sub : .msec ∈ t.phase.parts → .msec ∈ s.phase.parts := by
    intro mem
    rcases within.parts with same | ⟨q, before, -⟩
    · rwa [← same]
    · rw [before]
      exact List.mem_cons_of_mem q mem
  refine ⟨frame.timer.trans parked.here, parked.unreleased, Nat.lt_of_lt_of_le parked.old frame.created, ?_, ?_, ?_, ?_, ?_⟩
  · rw [frame.rate]
    exact parked.located.frame frame
  · intro curr ps calling
    rcases within.calling curr ps k calling with before | touch
    · exact parked.uncalled curr ps before
    · exact other touch
  · rw [frame.msec_count]
    exact parked.since
  · rw [frame.msec_count]
    exact fun now mem => parked.visited now (sub mem)
  · rw [frame.msec_count, frame.rate]
    refine parked.soon.imp_right ?_
    rintro ⟨now, mem⟩
    refine ⟨now, ?_⟩
    rcases within.parts with same | ⟨q, before, empty⟩
    · rwa [same]
    · rw [before] at mem
      refine (List.mem_cons.1 mem).resolve_left ?_
      rintro rfl
      have slot : s.point .msec = T % s.rate := by
        rw [sound.points, digit, now, Nat.add_mod_right]
      have here := parked.located.mem
      rw [← slot, empty] at here
      cases here

/-- The list that `k` is in is visited again when the point has gone round. -/
theorem Parked.visit (parked : Parked s k T timer) (sound : Sound s) {curr : Int} {p : Part} {ps : List Part}
    (phase : s.phase = .visiting curr (p :: ps)) (touch : (s.wheel p (s.point p)).head? = some k)
    (next : s.visit curr p ps = some t) : Ringing t k T timer ∧ t.callsOf k = s.callsOf k ++ [T + s.rate] := by
  obtain ⟨empty, -⟩ | ⟨id, ids, timer', list, here, way⟩ := visit_cases next
  · rw [empty] at touch
    cases touch
  rw [list] at touch
  obtain rfl := Option.some.inj touch
  obtain rfl := Option.some.inj (parked.here.symm.trans here)
  obtain ⟨rfl, slot⟩ := parked.located.eq (q := p) (j := s.point p) (by rw [list]; exact List.mem_cons_self)
  have now : s.msec_count = T + s.rate := by
    refine (parked.soon.resolve_left ?_).1
    intro less
    have since := parked.since
    have visited : s.msec_count ≠ T := fun now => parked.visited now (by rw [phase]; exact List.mem_cons_self)
    rw [sound.points, digit] at slot
    have first := Nat.div_add_mod s.msec_count s.rate
    have second := Nat.div_add_mod T s.rate
    rw [slot] at first
    rcases Nat.lt_trichotomy (s.msec_count / s.rate) (T / s.rate) with low | same | high
    · have := Nat.mul_le_mul_left s.rate low
      rw [Nat.mul_succ] at this
      omega
    · rw [same] at first
      omega
    · have := Nat.mul_le_mul_left s.rate high
      rw [Nat.mul_succ] at this
      omega
  obtain ⟨q, found, -⟩ | ⟨-, rfl⟩ := way
  · simp [Part.below] at found
  have nowhere : Nowhere (s.setWheel .msec (s.point .msec) ids) id := by
    apply Located.pop _ list
    rw [slot]
    exact parked.located
  unfold TimeWheel.excuteTimer
  rw [if_neg (by rw [parked.unreleased]; simp)]
  refine ⟨⟨parked.here, parked.old, nowhere, ⟨curr, _, rfl⟩, now⟩, ?_⟩
  rw [← now]
  simp [TimeWheel.callsOf, TimeWheel.setWheel, List.filter_append]

theorem Parked.step (parked : Parked s k T timer) (sound : Sound s) (kept : a ≠ .removeTimer k) (next : step s a = some t) :
    Parked t k T timer ∧ t.callsOf k = s.callsOf k ∨ Ringing t k T timer ∧ t.callsOf k = s.callsOf k ++ [T + s.rate] := by
  obtain ⟨curr, phase, rfl⟩ | within := step_cases next
  · exact .inl ⟨parked.advance sound phase, rfl⟩
  by_cases touch : touches s a = some k
  · rcases touch_cases next touch with ⟨_, _, _, -, same, -⟩ | ⟨removes, -⟩ | ⟨curr, p, ps, -, phase, first, visited⟩ |
      ⟨curr, ps, -, phase, -⟩
    · exact absurd same parked.old.ne'
    · exact absurd removes kept
    · exact .inr (parked.visit sound phase first visited)
    · exact absurd phase (parked.uncalled curr ps)
  · exact .inl ⟨parked.within sound within touch, (within.frame k touch).calls⟩

theorem Ringing.step (ringing : Ringing s k T timer) (last : timer.count = 1) (kept : a ≠ .removeTimer k)
    (next : step s a = some t) : Ringing t k T timer ∧ t.callsOf k = s.callsOf k ∨
      Gone t k ∧ t.callsOf k = s.callsOf k ∧ t.msec_count = T + s.rate := by
  obtain ⟨curr, ps, phase⟩ := ringing.phase
  rcases step_calling phase ringing.old kept next with ⟨frame, same⟩ | ⟨-, ended⟩
  · left
    refine ⟨⟨frame.timer.trans ringing.here, Nat.lt_of_lt_of_le ringing.old frame.created, ?_, ?_, ?_⟩, frame.calls⟩
    · exact fun q j => (frame.wheel q j).trans (ringing.nowhere q j)
    · exact ⟨curr, ps, same.trans phase⟩
    · rw [frame.msec_count, frame.rate]
      exact ringing.now
  · right
    obtain ⟨gone, calls, now⟩ := finish_gone ringing.here last ringing.old ringing.nowhere ended
    exact ⟨gone, calls, now.trans ringing.now⟩

end Parked

/-- A timer with count one that was parked at the tick `T`: it is parked, or is being called, or is gone. -/
structure Late (k M T : Nat) (timer : Timer) (s : TimeWheel) : Prop where
  sound : Sound s
  rate : s.rate = M
  state : Parked s k T timer ∧ s.callsOf k = [] ∨ Ringing s k T timer ∧ s.callsOf k = [T + M] ∨
    Gone s k ∧ s.callsOf k = [T + M] ∧ T + M ≤ s.msec_count

section Late

variable {s t : TimeWheel} {a : Action} {k M T : Nat} {timer : Timer}

theorem Late.step (late : Late k M T timer s) (last : timer.count = 1) (kept : a ≠ .removeTimer k) (next : step s a = some t) :
    Late k M T timer t := by
  obtain ⟨sound, rfl, state⟩ := late
  refine ⟨sound.step next, by rw [TimeWheel.rate, size_step next]; rfl, ?_⟩
  rcases state with ⟨parked, none'⟩ | ⟨ringing, once⟩ | ⟨gone, once, past⟩
  · rcases parked.step sound kept next with ⟨parked', calls⟩ | ⟨ringing, calls⟩
    · exact .inl ⟨parked', calls.trans none'⟩
    · exact .inr (.inl ⟨ringing, by rw [calls, none']; rfl⟩)
  · rcases ringing.step last kept next with ⟨ringing', calls⟩ | ⟨gone, calls, now⟩
    · exact .inr (.inl ⟨ringing', calls.trans once⟩)
    · exact .inr (.inr ⟨gone, calls.trans once, now.ge⟩)
  · obtain ⟨gone', calls⟩ := gone.step kept next
    exact .inr (.inr ⟨gone', calls.trans once, past.trans (msec_count_step next)⟩)

/-- A parked timer is called at `T + M` and at no other tick. -/
theorem Late.calledOnce (late : Late k M T timer s) : CalledOnce s k (T + M) := by
  obtain ⟨sound, rfl, ⟨parked, none'⟩ | ⟨ringing, once⟩ | ⟨-, once, past⟩⟩ := late
  · refine ⟨.inl none', by simp [none'], fun _ => parked.soon.imp_right ?_⟩
    rintro ⟨now, mem⟩
    exact ⟨now, List.ne_nil_of_mem mem⟩
  · exact ⟨.inr once, fun _ => ringing.now.ge, by simp [once]⟩
  · exact ⟨.inr once, fun _ => past, by simp [once]⟩

end Late

/-- The wheels of the tick `n` have been visited. -/
def Processed (s : TimeWheel) (n : Nat) : Prop := n < s.msec_count ∨ s.msec_count = n ∧ s.phase.parts = []

theorem dayReached_run {w : SizeT} {M days : Nat} {as : List Action} {s : TimeWheel} (rate : 0 < M ∧ M ≤ 1000)
    (bound : days < 2 ^ 31) (run : Runs step Any (init w days M) as s) : DayReached s := by
  have both := run.invariant (fun s => Sound s ∧ DayReached s) ⟨(sound_init w rate bound).sound, .inr (.inl rfl)⟩ ?_
  · exact both.2
  · rintro s a t ⟨sound, reached⟩ _ next
    exact ⟨sound.step next, dayReached_step sound reached next⟩

/-- **Short delays.** Between two updates, at the tick `T`, a timer created with count one and less than a tick to go is called
exactly once, at `T + M`. So when the tick `T + 1` has been processed it has been called exactly once, and by then, if and
only if there is one tick in a second. -/
theorem prompt_iff (w : SizeT) (M days : Nat) (rate : 0 < M ∧ M ≤ 1000) (bound : days < 2 ^ 31) (as : List Action)
    (s : TimeWheel) (run : Runs step Any (init w days M) as s) (idle : s.phase = .idle) (ms : Nat) (interval : Int)
    (short : ticks M ms = 0) : ∃ t, step s (.createTimer ms interval 1) = some t ∧
      ∀ bs u, Runs step (Keeps s.created) t bs u → CalledOnce u s.created (s.msec_count + M) ∧
        (Processed u (s.msec_count + 1) → ((∃ n, u.callsOf s.created = [n] ∧ n ≤ s.msec_count + 1) ↔ M = 1)) := by
  have reached := dayReached_run rate bound run
  obtain ⟨sound, rfl, -⟩ := sound_run rate bound run
  obtain ⟨t, due, created, parked, calls⟩ := parked_createTimer sound reached idle short interval 1
  have next : step s (.createTimer ms interval 1) = some t := by
    simp only [step, idle, Phase.callable, if_true]
    exact created
  refine ⟨t, next, ?_⟩
  intro bs u rest
  have start : Late s.created s.rate s.msec_count ⟨due, interval, 1, false⟩ t :=
    ⟨sound.step next, by rw [TimeWheel.rate, size_step next]; rfl, .inl ⟨parked, calls⟩⟩
  have late := rest.invariant (Late _ _ _ _) start fun _ _ _ late kept next => late.step rfl kept next
  have once := late.calledOnce
  refine ⟨once, fun processed => ?_⟩
  constructor
  · rintro ⟨n, called, early⟩
    have due : u.callsOf s.created = [s.msec_count + s.rate] := once.calls.resolve_left (by simp [called])
    rw [called] at due
    have same : n = s.msec_count + s.rate := by simpa using due
    have pos := sound.rate.1
    omega
  · intro one
    rw [one] at once
    refine ⟨s.msec_count + 1, once.calls.resolve_left ?_, Nat.le_refl _⟩
    intro none'
    unfold Processed at processed
    rcases once.notLate none' with before | ⟨now, busy⟩
    · omega
    · rcases processed with later | ⟨-, done⟩
      · omega
      · exact busy done

/-- One update over the first tick. -/
def promptRun : List Action := [.update 1000, .go, .go, .go, .ret, .go, .go]

/-- With one tick in a second a timer of 500 ms is called in the next tick. -/
theorem prompt_iff_second : ∃ t u, step (init .w64 1 1) (.createTimer 500 500 1) = some t ∧ Runs step (Keeps 0) t promptRun u ∧
    ∃ n, u.callsOf 0 = [n] ∧ n ≤ 1 := by
  obtain ⟨t, created, exact'⟩ := prompt_iff .w64 1 1 (by decide) (by decide) [] (init .w64 1 1) .refl rfl 500 500 (by decide)
  have checked : ((step (init .w64 1 1) (.createTimer 500 500 1)).bind fun t =>
      runChecked step (fun _ a => decide (a ≠ .removeTimer 0)) t promptRun).any
        (fun u => decide (u.msec_count = 1 ∧ u.phase.parts = [])) = true := by decide +kernel
  have created : step (init .w64 1 1) (.createTimer 500 500 1) = some t := created
  obtain ⟨u, reached, done⟩ := (Option.any_eq_true _ _).1 checked
  rw [created, Option.bind_some] at reached
  have run : Runs step (Keeps 0) t promptRun u := Runs.of_checked (fun _ _ kept => by simpa [Keeps] using kept) reached
  exact ⟨t, u, created, run, ((exact' promptRun u run).2 (.inr (of_decide_eq_true done))).2 rfl⟩

/-- With ten ticks in a second a timer of 50 ms has not been called when the next tick has been processed. -/
theorem short_delay_late : ∃ t u, step (init .w64 1 10) (.createTimer 50 50 1) = some t ∧ ticks 10 50 = 0 ∧
    Runs step (Keeps 0) t [.update 100, .go, .go, .go] u ∧ u.msec_count = 1 ∧ u.phase = .idle ∧ u.callsOf 0 = [] := by
  have checked : ((step (init .w64 1 10) (.createTimer 50 50 1)).bind fun t =>
      runChecked step (fun _ a => decide (a ≠ .removeTimer 0)) t [.update 100, .go, .go, .go]).any
        (fun u => decide (u.msec_count = 1 ∧ u.phase = .idle ∧ u.callsOf 0 = [])) = true := by decide +kernel
  obtain ⟨u, reached, late⟩ := (Option.any_eq_true _ _).1 checked
  obtain ⟨t, created, reached⟩ := Option.bind_eq_some_iff.1 reached
  have run : Runs step (Keeps 0) t [.update 100, .go, .go, .go] u :=
    Runs.of_checked (fun _ _ kept => by simpa [Keeps] using kept) reached
  exact ⟨t, u, created, by decide, run, of_decide_eq_true late⟩

end GameServer.Timers.Wheel
