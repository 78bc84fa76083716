import GameServer.Timers.LayeringPlaces

/-!
# The life of a timer

`Lives` is the life of one timer as its user sees it: it is called and returns up to `n` times, and its record is
destroyed when the last call has returned, or when it is removed, or, where it is removed in its own callback, when that
callback returns. `Turn` says all that a step of the wheel can do to one timer, and `watch` notes the moments of a timer's
life beside a run. When the record is handed out again, the notes end: what happens then is the life of another timer.
-/

namespace GameServer.Timers.Layering

open GameServer.Lib

inductive Moment where
  | called
  | returned
  | removed
  | destroyed
  deriving DecidableEq, Repr

inductive Life where
  | waiting (calls : Nat)
  | called (calls : Nat)
  | leaving
  | gone

/-- The moments of the life of a timer that is to be called `n` times, and how it is with it afterwards. -/
inductive Lives (n : Nat) : List Moment → Life → Prop where
  | created : Lives n [] (.waiting 0)
  | call {ms : List Moment} {k : Nat} : Lives n ms (.waiting k) → k < n → Lives n (ms ++ [.called]) (.called (k + 1))
  | back {ms : List Moment} {k : Nat} : Lives n ms (.called k) → k < n → Lives n (ms ++ [.returned]) (.waiting k)
  | last {ms : List Moment} : Lives n ms (.called n) → Lives n (ms ++ [.returned, .destroyed]) .gone
  | removed {ms : List Moment} {k : Nat} : Lives n ms (.waiting k) → Lives n (ms ++ [.removed, .destroyed]) .gone
  | leave {ms : List Moment} {k : Nat} : Lives n ms (.called k) → Lives n (ms ++ [.removed]) .leaving
  | again {ms : List Moment} : Lives n ms .leaving → Lives n (ms ++ [.removed]) .leaving
  | left {ms : List Moment} : Lives n ms .leaving → Lives n (ms ++ [.returned, .destroyed]) .gone

/-- What is promised of the calls of a timer. -/
structure Obeys (n : Nat) (ms : List Moment) : Prop where
  calls : ms.count .called ≤ n
  once : ms.count .destroyed ≤ 1
  /-- Unless the timer is removed, its record is destroyed right after the last call has returned. -/
  natural : .removed ∉ ms → (.destroyed ∈ ms ↔ ms.count .returned = n) ∧ (.destroyed ∈ ms → [.returned, .destroyed] <:+ ms)
  /-- No call starts after the timer has been removed. -/
  quiet : ms.Pairwise fun a b => a = .removed → b ≠ .called
  /-- The record of a removed timer is destroyed, at the latest when its callback has returned. -/
  destroyed : .removed ∈ ms → ms.count .called = ms.count .returned → ms.count .destroyed = 1

section Laws

variable {n k : Nat} {ms : List Moment} {life : Life}

/-- What the moments so far say of each stage of life. -/
def Stage (n : Nat) (ms : List Moment) : Life → Prop
  | .waiting k => k < n ∧ ms.count .called = k ∧ ms.count .returned = k ∧ .removed ∉ ms ∧ .destroyed ∉ ms
  | .called k => k ≤ n ∧ ms.count .called = k ∧ ms.count .returned + 1 = k ∧ .removed ∉ ms ∧ .destroyed ∉ ms
  | .leaving => ms.count .called ≤ n ∧ ms.count .returned + 1 = ms.count .called ∧ .removed ∈ ms ∧ .destroyed ∉ ms ∧
      ms.Pairwise fun a b => a = .removed → b ≠ .called
  | .gone => Obeys n ms ∧ .destroyed ∈ ms

/-- As long as the timer is not removed nothing is after it. -/
theorem quiet_of_not_mem (kept : .removed ∉ ms) : ms.Pairwise fun a b => a = .removed → b ≠ .called := by
  refine List.pairwise_iff_forall_sublist.2 fun sub removed => ?_
  exact absurd (removed ▸ sub.subset List.mem_cons_self) kept

theorem quiet_append {ms' : List Moment} (quiet : ms.Pairwise fun a b => a = .removed → b ≠ .called)
    (quiet' : ms'.Pairwise fun a b => a = .removed → b ≠ .called) (none : .called ∉ ms') :
    (ms ++ ms').Pairwise fun a b => a = .removed → b ≠ .called :=
  List.pairwise_append.2 ⟨quiet, quiet', fun _ _ _ mem _ called => none (called ▸ mem)⟩

theorem Lives.stage (positive : 0 < n) (lives : Lives n ms life) : Stage n ms life := by
  induction lives with
  | created => exact ⟨positive, rfl, rfl, List.not_mem_nil, List.not_mem_nil⟩
  | call _ less ih =>
    obtain ⟨-, calls, returns, kept, alive⟩ := ih
    refine ⟨less, ?_, ?_, ?_, ?_⟩ <;> simp [List.count_append, calls, returns, kept, alive]
  | back _ less ih =>
    obtain ⟨-, calls, returns, kept, alive⟩ := ih
    refine ⟨less, ?_, ?_, ?_, ?_⟩ <;> simp [List.count_append, calls, returns, kept, alive]
  | @last ms _ ih =>
    obtain ⟨-, calls, returns, kept, alive⟩ := ih
    have kept' : .removed ∉ ms ++ [.returned, .destroyed] := by simp [kept]
    refine ⟨⟨?_, ?_, ?_, quiet_of_not_mem kept', fun removed => absurd removed kept'⟩, by simp⟩
    · simp [List.count_append, calls]
    · simp [List.count_append, List.count_eq_zero_of_not_mem alive]
    · intro _
      refine ⟨⟨fun _ => ?_, fun _ => by simp⟩, fun _ => List.suffix_append _ _⟩
      simp [List.count_append, returns]
  | removed _ ih =>
    obtain ⟨less, calls, returns, kept, alive⟩ := ih
    refine ⟨⟨?_, ?_, fun removed => absurd (by simp) removed, ?_, fun _ _ => ?_⟩, by simp⟩
    · simp [List.count_append, calls]
      omega
    · simp [List.count_append, List.count_eq_zero_of_not_mem alive]
    · exact quiet_append (quiet_of_not_mem kept) (by simp) (by simp)
    · simp [List.count_append, List.count_eq_zero_of_not_mem alive]
  | leave _ ih =>
    obtain ⟨most, calls, returns, kept, alive⟩ := ih
    refine ⟨?_, ?_, by simp, by simp [alive], quiet_append (quiet_of_not_mem kept) (by simp) (by simp)⟩
    · simp [List.count_append, calls, most]
    · simp [List.count_append, calls, returns]
  | again _ ih =>
    obtain ⟨most, returns, removed, alive, quiet⟩ := ih
    refine ⟨?_, ?_, by simp, by simp [alive], quiet_append quiet (by simp) (by simp)⟩
    · simpa [List.count_append] using most
    · simpa [List.count_append] using returns
  | left _ ih =>
    obtain ⟨most, returns, removed, alive, quiet⟩ := ih
    refine ⟨⟨?_, ?_, fun kept => absurd (by simp [removed]) kept, ?_, fun _ _ => ?_⟩, by simp⟩
    · simpa [List.count_append] using most
    · simp [List.count_append, List.count_eq_zero_of_not_mem alive]
    · exact quiet_append quiet (by simp) (by simp)
    · simp [List.count_append, List.count_eq_zero_of_not_mem alive]

/-- The life of a timer keeps what is promised. -/
theorem Lives.obeys (positive : 0 < n) (lives : Lives n ms life) : Obeys n ms := by
  have stage := lives.stage positive
  cases life with
  | waiting k =>
    obtain ⟨less, calls, returns, kept, alive⟩ := stage
    refine ⟨by omega, by simp [List.count_eq_zero_of_not_mem alive], fun _ => ?_, quiet_of_not_mem kept,
      fun removed => absurd removed kept⟩
    refine ⟨⟨fun mem => absurd mem alive, fun all => ?_⟩, fun mem => absurd mem alive⟩
    omega
  | called k =>
    obtain ⟨most, calls, returns, kept, alive⟩ := stage
    refine ⟨by omega, by simp [List.count_eq_zero_of_not_mem alive], fun _ => ?_, quiet_of_not_mem kept,
      fun removed => absurd removed kept⟩
    refine ⟨⟨fun mem => absurd mem alive, fun all => ?_⟩, fun mem => absurd mem alive⟩
    omega
  | leaving =>
    obtain ⟨most, returns, removed, alive, quiet⟩ := stage
    refine ⟨most, by simp [List.count_eq_zero_of_not_mem alive], fun kept => absurd removed kept, quiet, fun _ equal => ?_⟩
    omega
  | gone => exact stage.1

/-- The record is destroyed at the end of life. -/
theorem Lives.gone_iff (positive : 0 < n) (lives : Lives n ms life) : .destroyed ∈ ms ↔ life = .gone := by
  have stage := lives.stage positive
  cases life with
  | waiting k => simp [stage.2.2.2.2]
  | called k => simp [stage.2.2.2.2]
  | leaving => simp [stage.2.2.2.1]
  | gone => simp [stage.2]

end Laws

/-- `h` is in its callback. -/
def Phase.calls (h : Handle) : Phase → Bool
  | .calling _ h' => h' = h
  | _ => false

/-- What a step can do to the timer at `h`, unless it adjusts it or hands out the record. -/
inductive Turn (h : Handle) (c d : CTimerLayering) : Action → Prop where
  | aside {a : Action} (pool : d.pool h = c.pool h) (phase : d.phase.calls h = c.phase.calls h)
      (other : a = .removeTimer h → c.pool h = none) : Turn h c d a
  | removed (info : STimerInfo) (before : c.pool h = some info) (linked : info.linked = true) (after : d.pool h = none)
      (phase : d.phase = c.phase) : Turn h c d (.removeTimer h)
  | marked (info : STimerInfo) (before : c.pool h = some info) (unlinked : info.linked = false)
      (after : d.pool h = some { info with count := 0 }) (phase : d.phase = c.phase) : Turn h c d (.removeTimer h)
  | ended (info : STimerInfo) (before : c.pool h = some info) (linked : info.linked = true) (count : info.count = 0)
      (after : d.pool h = none) : Turn h c d .go
  | called (info : STimerInfo) (tick : BitVec 32) (before : c.pool h = some info) (linked : info.linked = true)
      (count : info.count ≠ 0) (after : d.pool h = some { info with linked := false, count := info.count - 1 })
      (phase : c.phase = .working tick) (phase' : d.phase = .calling tick h) : Turn h c d .go
  | last (info : STimerInfo) (tick now : BitVec 32) (before : c.pool h = some info) (count : info.count = 0)
      (after : d.pool h = none) (phase : c.phase = .calling tick h) (phase' : d.phase = .working tick) : Turn h c d (.ret now)
  | back (info : STimerInfo) (tick now : BitVec 32) (before : c.pool h = some info) (count : info.count ≠ 0)
      (after : d.pool h = some { info with linked := true, expires := now + info.elapse })
      (phase : c.phase = .calling tick h) (phase' : d.phase = .working tick) : Turn h c d (.ret now)

section Steps

variable {c d : CTimerLayering} {h h' : Handle} {a : Action}

theorem adjustTimer_aside (other : h' ≠ h) (elapse count : BitVec 32) (data : Nat) :
    (c.adjustTimer h' elapse count data).pool h = c.pool h ∧ (c.adjustTimer h' elapse count data).phase = c.phase := by
  unfold CTimerLayering.adjustTimer
  cases c.pool h' with
  | none => exact ⟨rfl, rfl⟩
  | some info =>
    dsimp only
    generalize (if data ≠ 0 then data else info.data) = data'
    split
    · exact ⟨rfl, rfl⟩
    · split
      · refine ⟨?_, rfl⟩
        simp [CTimerLayering.record, Ne.symm other]
      · exact ⟨Function.update_of_ne (Ne.symm other) _ _, rfl⟩

theorem removeTimer_aside (other : h' ≠ h) :
    (c.removeTimer h').pool h = c.pool h ∧ (c.removeTimer h').phase = c.phase := by
  unfold CTimerLayering.removeTimer
  cases c.pool h' with
  | none => exact ⟨rfl, rfl⟩
  | some info =>
    dsimp only
    split
    · refine ⟨?_, rfl⟩
      simp [CTimerLayering.record, Ne.symm other]
    · exact ⟨Function.update_of_ne (Ne.symm other) _ _, rfl⟩

theorem turn_removeTimer (c : CTimerLayering) (h : Handle) : Turn h c (c.removeTimer h) (.removeTimer h) := by
  unfold CTimerLayering.removeTimer
  cases pool : c.pool h with
  | none => exact .aside rfl rfl fun _ => pool
  | some info =>
    dsimp only
    split
    · next linked => exact .removed info pool linked (Function.update_self _ _ _) rfl
    · next unlinked => exact .marked info pool (by simpa using unlinked) (Function.update_self _ _ _) rfl

theorem turn_loop {tick : BitVec 32} (tidy : Tidy c) (phase : c.phase = .ticking tick) : Turn h c (c.loop tick) .go := by
  unfold CTimerLayering.loop
  split
  · exact .aside rfl (by rw [phase]; rfl) (by simp)
  · exact .aside (tidy.homed h).cascades.2 (by rw [phase]; rfl) (by simp)

theorem turn_take {tick : BitVec 32} (tidy : Tidy c) (phase : c.phase = .working tick) : Turn h c (c.take tick) .go := by
  unfold CTimerLayering.take
  cases work : c.work_list with
  | nil => exact .aside rfl (by rw [phase]; rfl) (by simp)
  | cons h' hs =>
    have mem : h' ∈ c.list [] .work := by
      rw [CTimerLayering.list, work]
      exact List.mem_cons_self
    obtain ⟨info, pool, linked⟩ := (tidy.homed h').of_mem mem
    dsimp only
    rw [pool]
    dsimp only
    by_cases same : h' = h
    · subst same
      split
      · next count => exact .ended info pool linked count (Function.update_self _ _ _)
      · next count => exact .called info tick pool linked count (Function.update_self _ _ _) phase rfl
    · split
      · refine .aside ?_ rfl (by simp)
        simp [CTimerLayering.record, Ne.symm same]
      · refine .aside ?_ ?_ (by simp)
        · simp [CTimerLayering.record, Ne.symm same]
        · rw [phase]
          simpa [Phase.calls] using same

theorem turn_ret {tick now : BitVec 32} (tidy : Tidy c) (phase : c.phase = .calling tick h') :
    Turn h c (c.ret tick h' now) (.ret now) := by
  obtain ⟨info, pool, -⟩ := tidy.called tick h' phase
  unfold CTimerLayering.ret
  rw [pool]
  dsimp only
  by_cases same : h' = h
  · subst same
    split
    · next count => exact .last info tick now pool count (Function.update_self _ _ _) phase rfl
    · next count => exact .back info tick now pool count (Function.update_self _ _ _) phase rfl
  · have quiet : c.phase.calls h = false := by
      rw [phase]
      simpa [Phase.calls] using same
    split
    · exact .aside (Function.update_of_ne (Ne.symm same) _ _) quiet.symm (by simp)
    · exact .aside (Function.update_of_ne (Ne.symm same) _ _) quiet.symm (by simp)

/-- **All that a step can do to one timer.** -/
theorem turn_of_step (tidy : Tidy c) (next : step c a = some d)
    (unadjusted : ∀ elapse count data, a ≠ .adjustTimer h elapse count data) (kept : c.pool h = none → d.pool h = none) :
    Turn h c d a := by
  cases a with
  | addTimer elapse count data room =>
    simp only [step] at next
    split at next
    · unfold CTimerLayering.addTimer at next
      split at next
      · cases next
        exact .aside rfl rfl (by simp)
      · cases room with
        | none =>
          cases next
          exact .aside rfl rfl (by simp)
        | some h' =>
          dsimp only at next
          split at next
          · next free =>
            cases next
            have other : h ≠ h' := by
              rintro rfl
              have pool := kept free
              simp [CTimerLayering.record] at pool
            exact .aside (Function.update_of_ne other _ _) rfl (by simp)
          · cases next
    · cases next
  | adjustTimer h' elapse count data =>
    simp only [step] at next
    split at next
    · cases next
      have other : h' ≠ h := fun same => unadjusted elapse count data (by rw [same])
      obtain ⟨pool, phase⟩ := adjustTimer_aside (c := c) other elapse count data
      exact .aside pool (by rw [phase]) (by simp)
    · cases next
  | removeTimer h' =>
    simp only [step] at next
    split at next
    · cases next
      by_cases same : h' = h
      · subst same
        exact turn_removeTimer c h'
      · obtain ⟨pool, phase⟩ := removeTimer_aside (c := c) same
        exact .aside pool (by rw [phase]) (by simpa using fun here => absurd here same)
    · cases next
  | update tick =>
    simp only [step] at next
    split at next
    · next idle =>
      cases next
      exact .aside rfl (by rw [idle]; rfl) (by simp)
    · cases next
  | go =>
    simp only [step] at next
    split at next
    · next phase =>
      cases next
      exact turn_loop tidy phase
    · next phase =>
      cases next
      exact turn_take tidy phase
    · cases next
  | ret now =>
    simp only [step] at next
    split at next
    · next phase =>
      cases next
      exact turn_ret tidy phase
    · cases next

end Steps

/-- What a step means to the user of the timer at `h`. -/
def moments (h : Handle) (c : CTimerLayering) (a : Action) (d : CTimerLayering) : List Moment :=
  (if a = .removeTimer h ∧ c.pool h ≠ none then [.removed] else []) ++
  (if c.phase.calls h ∧ ¬ d.phase.calls h then [.returned] else []) ++
  (if ¬ c.phase.calls h ∧ d.phase.calls h then [.called] else []) ++
  (if c.pool h ≠ none ∧ d.pool h = none then [.destroyed] else [])

/-- A run with notes on the timer at `h`, until its record is handed out again. -/
structure Watched where
  state : CTimerLayering
  moments : List Moment
  closed : Bool

def watch (h : Handle) (w : Watched) (a : Action) : Option Watched :=
  (step w.state a).map fun d =>
    if w.closed ∨ w.state.pool h = none ∧ d.pool h ≠ none then ⟨d, w.moments, true⟩
    else ⟨d, w.moments ++ moments h w.state a d, false⟩

/-- The timer is not adjusted. -/
def Unadjusted (h : Handle) (w : Watched) (a : Action) : Prop :=
  w.closed = false → ∀ elapse count data, a ≠ .adjustTimer h elapse count data

/-- How a timer of `n` calls is kept in each stage of its life. -/
def Is (n : Nat) (c : CTimerLayering) (h : Handle) : Life → Prop
  | .waiting k => k < n ∧ ∃ info, c.pool h = some info ∧ info.linked = true ∧ info.count.toNat + k = n
  | .called k => k ≤ n ∧ ∃ tick info, c.phase = .calling tick h ∧ c.pool h = some info ∧ info.linked = false ∧
      info.count.toNat + k = n
  | .leaving => ∃ tick info, c.phase = .calling tick h ∧ c.pool h = some info ∧ info.linked = false ∧ info.count = 0
  | .gone => c.pool h = none

section Watching

variable {n : Nat} {c d : CTimerLayering} {h : Handle} {a : Action} {life : Life} {ms : List Moment} {w : Watched}

theorem calls_iff {phase : Phase} : phase.calls h = true ↔ ∃ tick, phase = .calling tick h := by
  cases phase <;> simp [Phase.calls]

theorem Is.linked {info : STimerInfo} (is : Is n c h life) (pool : c.pool h = some info) (linked : info.linked = true) :
    ∃ k, life = .waiting k ∧ k < n ∧ info.count.toNat + k = n := by
  cases life with
  | waiting k =>
    obtain ⟨less, info', pool', -, count⟩ := is
    rw [pool] at pool'
    cases pool'
    exact ⟨k, rfl, less, count⟩
  | called k =>
    obtain ⟨-, tick, info', -, pool', unlinked, -⟩ := is
    rw [pool] at pool'
    cases pool'
    rw [linked] at unlinked
    cases unlinked
  | leaving =>
    obtain ⟨tick, info', -, pool', unlinked, -⟩ := is
    rw [pool] at pool'
    cases pool'
    rw [linked] at unlinked
    cases unlinked
  | gone => rw [is] at pool; cases pool

theorem Is.unlinked {info : STimerInfo} (is : Is n c h life) (pool : c.pool h = some info) (unlinked : info.linked = false) :
    (∃ k, life = .called k ∧ k ≤ n ∧ info.count.toNat + k = n) ∨ life = .leaving ∧ info.count = 0 := by
  cases life with
  | waiting k =>
    obtain ⟨-, info', pool', linked, -⟩ := is
    rw [pool] at pool'
    cases pool'
    rw [linked] at unlinked
    cases unlinked
  | called k =>
    obtain ⟨most, tick, info', -, pool', -, count⟩ := is
    rw [pool] at pool'
    cases pool'
    exact .inl ⟨k, rfl, most, count⟩
  | leaving =>
    obtain ⟨tick, info', -, pool', -, count⟩ := is
    rw [pool] at pool'
    cases pool'
    exact .inr ⟨rfl, count⟩
  | gone => rw [is] at pool; cases pool

theorem Is.gone_iff (is : Is n c h life) : c.pool h = none ↔ life = .gone := by
  cases life with
  | waiting k =>
    obtain ⟨-, info, pool, -⟩ := is
    simp [pool]
  | called k =>
    obtain ⟨-, tick, info, -, pool, -⟩ := is
    simp [pool]
  | leaving =>
    obtain ⟨tick, info, -, pool, -⟩ := is
    simp [pool]
  | gone => exact iff_of_true is rfl

theorem Is.aside (is : Is n c h life) (pool : d.pool h = c.pool h) (phase : d.phase.calls h = c.phase.calls h) : Is n d h life := by
  have calling : ∀ tick, c.phase = .calling tick h → ∃ tick, d.phase = .calling tick h := fun tick here =>
    calls_iff.1 (phase.trans (calls_iff.2 ⟨tick, here⟩))
  cases life with
  | waiting k =>
    obtain ⟨less, info, pool', rest⟩ := is
    exact ⟨less, info, pool.trans pool', rest⟩
  | called k =>
    obtain ⟨most, tick, info, here, pool', rest⟩ := is
    obtain ⟨tick', here'⟩ := calling tick here
    exact ⟨most, tick', info, here', pool.trans pool', rest⟩
  | leaving =>
    obtain ⟨tick, info, here, pool', rest⟩ := is
    obtain ⟨tick', here'⟩ := calling tick here
    exact ⟨tick', info, here', pool.trans pool', rest⟩
  | gone => exact pool.trans is

theorem toNat_pred {count : BitVec 32} (some : count ≠ 0) : (count - 1).toNat + 1 = count.toNat := by
  have low := count.isLt
  have pos : count.toNat ≠ 0 := fun zero => some (BitVec.eq_of_toNat_eq zero)
  have one : (1 : BitVec 32).toNat = 1 := rfl
  rw [BitVec.toNat_sub, one]
  omega

/-- A step leads from one stage of life to the next. -/
theorem lives_step (tidy : Tidy c) (is : Is n c h life) (lives : Lives n ms life) (turn : Turn h c d a) :
    ∃ life', Is n d h life' ∧ Lives n (ms ++ moments h c a d) life' := by
  cases turn with
  | aside pool phase other =>
    have none : moments h c a d = [] := by
      have kept : ¬ (a = .removeTimer h ∧ c.pool h ≠ none) := fun both => both.2 (other both.1)
      simp [moments, kept, pool, phase]
    rw [none, List.append_nil]
    exact ⟨life, is.aside pool phase, lives⟩
  | removed info before linked after phase =>
    obtain ⟨k, rfl, -, -⟩ := is.linked before linked
    have moments : moments h c (.removeTimer h) d = [.removed, .destroyed] := by simp [moments, before, after, phase]
    rw [moments]
    exact ⟨.gone, after, lives.removed⟩
  | marked info before unlinked after phase =>
    obtain ⟨tick, calling⟩ := tidy.calling h info before unlinked
    have moments : moments h c (.removeTimer h) d = [.removed] := by simp [moments, before, after, phase]
    have is' : Is n d h .leaving := ⟨tick, _, phase.trans calling, after, unlinked, rfl⟩
    rw [moments]
    rcases is.unlinked before unlinked with ⟨k, rfl, -, -⟩ | ⟨rfl, -⟩
    · exact ⟨.leaving, is', lives.leave⟩
    · exact ⟨.leaving, is', lives.again⟩
  | ended info before linked count after =>
    -- a timer that is linked has calls left
    obtain ⟨k, rfl, less, left⟩ := is.linked before linked
    rw [count] at left
    simp at left
    omega
  | called info tick before linked count after phase phase' =>
    obtain ⟨k, rfl, less, left⟩ := is.linked before linked
    have moments : moments h c .go d = [.called] := by simp [moments, before, after, phase, phase', Phase.calls]
    have pred := toNat_pred count
    rw [moments]
    refine ⟨.called (k + 1), ⟨less, tick, _, phase', after, rfl, ?_⟩, lives.call less⟩
    dsimp only
    omega
  | last info tick now before count after phase phase' =>
    have moments : moments h c (.ret now) d = [.returned, .destroyed] := by
      simp [moments, before, after, phase, phase', Phase.calls]
    obtain ⟨info', pool, unlinked⟩ := tidy.called tick h phase
    rw [before] at pool
    cases pool
    rw [moments]
    rcases is.unlinked before unlinked with ⟨k, rfl, -, left⟩ | ⟨rfl, -⟩
    · rw [count] at left
      obtain rfl : k = n := by simpa using left
      exact ⟨.gone, after, lives.last⟩
    · exact ⟨.gone, after, lives.left⟩
  | back info tick now before count after phase phase' =>
    have moments : moments h c (.ret now) d = [.returned] := by
      simp [moments, before, after, phase, phase', Phase.calls]
    obtain ⟨info', pool, unlinked⟩ := tidy.called tick h phase
    rw [before] at pool
    cases pool
    rw [moments]
    rcases is.unlinked before unlinked with ⟨k, rfl, -, left⟩ | ⟨-, zero⟩
    · have pred := toNat_pred count
      have less : k < n := by omega
      exact ⟨.waiting k, ⟨less, _, after, rfl, left⟩, lives.back less⟩
    · exact absurd zero count

/-- What a watched run keeps. -/
structure Followed (n : Nat) (h : Handle) (w : Watched) : Prop where
  tidy : Tidy w.state
  obeys : Obeys n w.moments
  lives : w.closed = false → ∃ life, Is n w.state h life ∧ Lives n w.moments life

theorem Followed.step {w' : Watched} (followed : Followed n h w) (positive : 0 < n) (unadjusted : Unadjusted h w a)
    (next : watch h w a = some w') : Followed n h w' := by
  obtain ⟨d, stepped, rfl⟩ := Option.map_eq_some_iff.1 next
  have tidy := followed.tidy.step stepped
  split
  · exact ⟨tidy, followed.obeys, by simp⟩
  · next same =>
    rw [not_or, not_and_not_right] at same
    have under : w.closed = false := by simpa using same.1
    obtain ⟨life, is, lives⟩ := followed.lives under
    obtain ⟨life', is', lives'⟩ := lives_step followed.tidy is lives
      (turn_of_step followed.tidy stepped (unadjusted under) same.2)
    exact ⟨tidy, lives'.obeys positive, fun _ => ⟨life', is', lives'⟩⟩

/-- **The calls of a timer.** In every run a timer that is created for `n` calls and is not adjusted is called at most `n`
times, its record is destroyed once, right after the last call or when it is removed, and no call starts after that; once it
is destroyed, nothing of the wheel points to it. -/
theorem call_counts {start elapse : BitVec 32} {n : Nat} {data : Nat} {as bs : List Action} (positive : 0 < n) (int : n < 2 ^ 31)
    (elapses : 0 < elapse.toInt) (run : Runs Layering.step (fun _ _ => True) (.init start) as c)
    (created : Layering.step c (.addTimer elapse (BitVec.ofNat 32 n) data (some h)) = some d)
    (later : Runs (watch h) (Unadjusted h) ⟨d, [], false⟩ bs w) :
    Obeys n w.moments ∧ (w.closed = false → (w.state.pool h = none ↔ .destroyed ∈ w.moments)) ∧
      (w.state.pool h = none → Away w.state [] h ∧ w.state.phase.calls h = false) := by
  have tidy := run.invariant Tidy (tidy_init start) fun _ _ _ tidy _ next => tidy.step next
  have first : Followed n h ⟨d, [], false⟩ := by
    refine ⟨tidy.step created, Lives.created.obeys positive, fun _ => ⟨.waiting 0, ⟨positive, ?_⟩, .created⟩⟩
    simp only [Layering.step, CTimerLayering.addTimer] at created
    split at created
    · rw [if_neg (not_le.2 elapses)] at created
      split at created
      · cases created
        refine ⟨_, Function.update_self _ _ _, rfl, ?_⟩
        rw [BitVec.toNat_ofNat]
        omega
      · cases created
    · cases created
  have followed := later.invariant (Followed n h) first fun _ _ _ followed unadjusted next =>
    followed.step positive unadjusted next
  refine ⟨followed.obeys, fun under => ?_, fun none => ⟨?_, ?_⟩⟩
  · obtain ⟨life, is, lives⟩ := followed.lives under
    rw [lives.gone_iff positive]
    exact is.gone_iff
  · exact (followed.tidy.homed h).away (by simp [Off, none])
  · rw [Bool.eq_false_iff, Ne, calls_iff]
    rintro ⟨tick, phase⟩
    exact followed.tidy.free_of_none none tick phase

/-- A timer of two calls. -/
def twoCalls : List Action := [.update 3, .go, .go, .go, .go, .ret 1, .go, .go, .go, .ret 2, .go]

theorem call_counts_two : ∃ d w, Layering.step (.init 0) (.addTimer 1 (BitVec.ofNat 32 2) 7 (some 8)) = some d ∧
    Runs (watch 8) (Unadjusted 8) ⟨d, [], false⟩ twoCalls w ∧ Obeys 2 w.moments ∧
    w.moments = [.called, .returned, .called, .returned, .destroyed] := by
  have checked : ((Layering.step (.init 0) (.addTimer 1 (BitVec.ofNat 32 2) 7 (some 8))).any fun d =>
      (runChecked (watch 8) (fun _ a => decide (a ∈ twoCalls)) ⟨d, [], false⟩ twoCalls).any fun w =>
        decide (w.moments = [.called, .returned, .called, .returned, .destroyed])) = true := by decide +kernel
  obtain ⟨d, created, checked⟩ := (Option.any_eq_true _ _).1 checked
  obtain ⟨w, later, moments⟩ := Runs.exists_of_checked (Unadjusted 8) (by
    rintro w a mem - elapse count data rfl
    have mem := of_decide_eq_true mem
    simp [twoCalls] at mem) checked
  have run : Runs Layering.step (fun _ _ => True) (.init 0) [] (.init 0) := .refl
  refine ⟨d, w, created, later, ?_, of_decide_eq_true moments⟩
  exact (call_counts (by decide) (by decide) (by decide) run created later).1

end Watching

end GameServer.Timers.Layering
