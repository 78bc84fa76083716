import GameServer.Timers.LayeringLives
import Mathlib.Data.Option.Basic
import Mathlib.Logic.Equiv.Basic

/-!
# Adjusting a timer

Addresses are only names: a run from a state with other addresses goes on in the same way (`Renamed`). So a timer that
`AdjustTimer` has linked again is in every continuation like a timer that is removed and created anew, at its own address,
where the states are the same, or at any free one. `AdjustTimer` does not link a timer again that is pending for the very
tick it is adjusted to, and leaves its other data as they are; such a timer is not like a new one.
-/

namespace GameServer.Timers.Layering

open GameServer.Lib

section Renaming

variable {π : Equiv.Perm Handle} {c d : CTimerLayering} {h : Handle} {info : STimerInfo} {tmp : List Handle}

def Phase.rename (π : Equiv.Perm Handle) : Phase → Phase
  | .idle => .idle
  | .ticking tick => .ticking tick
  | .working tick => .working tick
  | .calling tick h => .calling tick (π h)

def Action.rename (π : Equiv.Perm Handle) : Action → Action
  | .addTimer elapse count data room => .addTimer elapse count data (room.map π)
  | .adjustTimer h elapse count data => .adjustTimer (π h) elapse count data
  | .removeTimer h => .removeTimer (π h)
  | .update tick => .update tick
  | .go => .go
  | .ret now => .ret now

/-- `d` is `c` with other addresses; the logs may differ. -/
structure Renamed (π : Equiv.Perm Handle) (c d : CTimerLayering) : Prop where
  last_tick : d.last_tick = c.last_tick
  pool : ∀ h, d.pool (π h) = c.pool h
  vec : ∀ l i, d.vec l i = (c.vec l i).map π
  work_list : d.work_list = c.work_list.map π
  phase : d.phase = c.phase.rename π

theorem Renamed.record (renamed : Renamed π c d) (e e' : Event Handle) : Renamed π (c.record e) (d.record e') :=
  ⟨renamed.last_tick, renamed.pool, renamed.vec, renamed.work_list, renamed.phase⟩

theorem Renamed.store (renamed : Renamed π c d) (h : Handle) (info : Option STimerInfo) :
    Renamed π (c.store h info) (d.store (π h) info) where
  last_tick := renamed.last_tick
  pool h' := by
    by_cases same : h' = h
    · subst same
      simp
    · have other : π h' ≠ π h := fun equal => same (π.injective equal)
      rw [pool_store, pool_store, Function.update_of_ne other, Function.update_of_ne same, renamed.pool]
  vec := renamed.vec
  work_list := renamed.work_list
  phase := renamed.phase

theorem Renamed.setVec (renamed : Renamed π c d) (l : Level) (i : Nat) (hs hs' : List Handle) (same : hs' = hs.map π) :
    Renamed π (c.setVec l i hs) (d.setVec l i hs') where
  last_tick := renamed.last_tick
  pool := renamed.pool
  vec l' i' := by
    simp only [CTimerLayering.setVec]
    split
    · exact same
    · exact renamed.vec l' i'
  work_list := renamed.work_list
  phase := renamed.phase

theorem Renamed.addTimerInfo (renamed : Renamed π c d) (h : Handle) (info : STimerInfo) :
    Renamed π (c.addTimerInfo h info) (d.addTimerInfo (π h) info) := by
  unfold CTimerLayering.addTimerInfo
  rw [renamed.last_tick]
  apply Renamed.store
  apply renamed.setVec _ _ _ _
  rw [renamed.vec, List.map_append, List.map_singleton]

theorem filter_map_ne (π : Equiv.Perm Handle) (h : Handle) (hs : List Handle) :
    (hs.map π).filter (· ≠ π h) = (hs.filter (· ≠ h)).map π := by
  rw [List.filter_map]
  congr 1
  apply List.filter_congr
  intro h' _
  simp

theorem Renamed.detachTimer (renamed : Renamed π c d) (h : Handle) (info : STimerInfo) :
    Renamed π (c.detachTimer h info) (d.detachTimer (π h) info) where
  last_tick := renamed.last_tick
  pool := (renamed.store h (some { info with linked := false })).pool
  vec l i := by
    simp only [CTimerLayering.detachTimer]
    rw [renamed.vec, filter_map_ne]
  work_list := by
    simp only [CTimerLayering.detachTimer]
    rw [renamed.work_list, filter_map_ne]
  phase := renamed.phase

theorem Renamed.cascadeLoop (renamed : Renamed π c d) :
    Renamed π (CTimerLayering.cascadeLoop tmp c) (CTimerLayering.cascadeLoop (tmp.map π) d) := by
  induction tmp generalizing c d with
  | nil => exact renamed
  | cons h tmp ih =>
    rw [List.map_cons]
    unfold CTimerLayering.cascadeLoop
    rw [renamed.pool]
    apply ih
    cases c.pool h with
    | none => exact renamed
    | some info => exact renamed.addTimerInfo h info

theorem Renamed.cascade (renamed : Renamed π c d) (l : Level) (i : Nat) : Renamed π (c.cascade l i) (d.cascade l i) := by
  unfold CTimerLayering.cascade
  rw [renamed.vec]
  exact (renamed.setVec l i [] [] rfl).cascadeLoop

theorem Renamed.cascades (renamed : Renamed π c d) : Renamed π c.cascades d.cascades := by
  have tick : ∀ (c : CTimerLayering) l i, (c.cascade l i).last_tick = c.last_tick := fun c l i =>
    (outside_cascade c l i).last_tick
  unfold CTimerLayering.cascades
  simp only [tick, renamed.last_tick]
  split
  · exact renamed
  · have second := renamed.cascade .tv2 (Level.tv2.index c.last_tick)
    split
    · exact second
    · have third := second.cascade .tv3 (Level.tv3.index c.last_tick)
      split
      · exact third
      · have fourth := third.cascade .tv4 (Level.tv4.index c.last_tick)
        split
        · exact fourth
        · exact fourth.cascade .tv5 (Level.tv5.index c.last_tick)

theorem Renamed.loop (renamed : Renamed π c d) (tick : BitVec 32) : Renamed π (c.loop tick) (d.loop tick) := by
  unfold CTimerLayering.loop
  rw [renamed.last_tick]
  by_cases passed : tick = c.last_tick
  · rw [if_pos passed, if_pos passed]
    exact ⟨rfl, renamed.pool, renamed.vec, renamed.work_list, rfl⟩
  · rw [if_neg passed, if_neg passed]
    have cascades := renamed.cascades
    have emptied := cascades.setVec .tv1 (Level.tv1.index c.last_tick) [] [] rfl
    exact ⟨emptied.last_tick, emptied.pool, emptied.vec, cascades.vec _ _, rfl⟩

theorem Renamed.take (renamed : Renamed π c d) (tick : BitVec 32) : Renamed π (c.take tick) (d.take tick) := by
  unfold CTimerLayering.take
  rw [renamed.work_list]
  cases work : c.work_list with
  | nil => exact ⟨congrArg (· + 1) renamed.last_tick, renamed.pool, renamed.vec, rfl, rfl⟩
  | cons h hs =>
    rw [List.map_cons]
    dsimp only
    rw [renamed.pool]
    cases c.pool h with
    | none => exact renamed
    | some info =>
      have detached := (renamed.detachTimer h info).record (.taken h) (.taken (π h))
      dsimp only
      split
      · exact detached.store h none
      · have stored := detached.store h (some { info with linked := false, count := info.count - 1 })
        exact ⟨stored.last_tick, stored.pool, stored.vec, stored.work_list, rfl⟩

theorem Renamed.ret (renamed : Renamed π c d) (tick : BitVec 32) (h : Handle) (now : BitVec 32) :
    Renamed π (c.ret tick h now) (d.ret tick (π h) now) := by
  unfold CTimerLayering.ret
  rw [renamed.pool]
  cases c.pool h with
  | none => exact renamed
  | some info =>
    dsimp only
    split
    · have stored := renamed.store h none
      exact ⟨stored.last_tick, stored.pool, stored.vec, stored.work_list, rfl⟩
    · have added := (renamed.addTimerInfo h { info with expires := now + info.elapse }).record
        (.armed h (now + info.elapse)) (.armed (π h) (now + info.elapse))
      exact ⟨added.last_tick, added.pool, added.vec, added.work_list, rfl⟩

theorem Renamed.addTimer (renamed : Renamed π c d) (elapse count : BitVec 32) (data : Nat) (room : Option Handle) :
    Option.Rel (Renamed π) (c.addTimer elapse count data room) (d.addTimer elapse count data (room.map π)) := by
  unfold CTimerLayering.addTimer
  split
  · exact .some renamed
  · cases room with
    | none => exact .some renamed
    | some h =>
      simp only [Option.map_some]
      rw [renamed.pool, renamed.last_tick]
      split
      · exact .some ((renamed.addTimerInfo h _).record _ _)
      · exact .none

theorem Renamed.adjustTimer (renamed : Renamed π c d) (h : Handle) (elapse count : BitVec 32) (data : Nat) :
    Renamed π (c.adjustTimer h elapse count data) (d.adjustTimer (π h) elapse count data) := by
  unfold CTimerLayering.adjustTimer
  rw [renamed.pool]
  cases c.pool h with
  | none => exact renamed
  | some info =>
    dsimp only
    rw [renamed.last_tick]
    split
    · exact renamed
    · split
      · exact ((((renamed.detachTimer h info).record _ _).addTimerInfo h _).record _ _)
      · exact renamed.store h _

theorem Renamed.removeTimer (renamed : Renamed π c d) (h : Handle) : Renamed π (c.removeTimer h) (d.removeTimer (π h)) := by
  unfold CTimerLayering.removeTimer
  rw [renamed.pool]
  cases c.pool h with
  | none => exact renamed
  | some info =>
    dsimp only
    split
    · exact ((renamed.detachTimer h info).record _ _).store h none
    · exact renamed.store h _

theorem Renamed.live (renamed : Renamed π c d) (h : Handle) : d.live (π h) = c.live h := by
  rw [CTimerLayering.live, CTimerLayering.live, renamed.pool]

theorem callable_rename (phase : Phase) : (phase.rename π).callable = phase.callable := by
  cases phase <;> rfl

/-- **Addresses are names**: a step from a renamed state leads to a renamed state. -/
theorem Renamed.step (renamed : Renamed π c d) (a : Action) :
    Option.Rel (Renamed π) (step c a) (step d (a.rename π)) := by
  cases a with
  | addTimer elapse count data room =>
    simp only [Layering.step, Action.rename, renamed.phase, callable_rename]
    split
    · exact renamed.addTimer elapse count data room
    · exact .none
  | adjustTimer h elapse count data =>
    simp only [Layering.step, Action.rename, renamed.phase, callable_rename, renamed.live]
    split
    · exact .some (renamed.adjustTimer h elapse count data)
    · exact .none
  | removeTimer h =>
    simp only [Layering.step, Action.rename, renamed.phase, callable_rename, renamed.live]
    split
    · exact .some (renamed.removeTimer h)
    · exact .none
  | update tick =>
    simp only [Layering.step, Action.rename, renamed.phase]
    cases phase : c.phase with
    | idle => exact .some ⟨renamed.last_tick, renamed.pool, renamed.vec, renamed.work_list, rfl⟩
    | ticking _ => exact .none
    | working _ => exact .none
    | calling _ _ => exact .none
  | go =>
    simp only [Layering.step, Action.rename, renamed.phase]
    cases phase : c.phase with
    | idle => exact .none
    | ticking tick => exact .some (renamed.loop tick)
    | working tick => exact .some (renamed.take tick)
    | calling _ _ => exact .none
  | ret now =>
    simp only [Layering.step, Action.rename, renamed.phase]
    cases phase : c.phase with
    | idle => exact .none
    | ticking _ => exact .none
    | working _ => exact .none
    | calling tick h => exact .some (renamed.ret tick h now)

end Renaming

/-- The call of `OnTimer` for `h` that a step begins, by its tick and its data. -/
def called (h : Handle) (c d : CTimerLayering) : List (BitVec 32 × Nat) :=
  if ¬ c.phase.calls h ∧ d.phase.calls h then (d.pool h).toList.map fun info => (d.last_tick, info.data) else []

/-- The calls of `OnTimer` for `h` in a continuation. -/
def calls (h : Handle) : CTimerLayering → List Action → List (BitVec 32 × Nat)
  | _, [] => []
  | c, a :: as => match step c a with
    | none => []
    | some d => called h c d ++ calls h d as

section Fresh

variable {π : Equiv.Perm Handle} {c d c' d' : CTimerLayering} {h k : Handle} {info : STimerInfo}

theorem calls_rename (phase : Phase) (h : Handle) : (phase.rename π).calls (π h) = phase.calls h := by
  cases phase with
  | calling tick h' => simp [Phase.rename, Phase.calls]
  | _ => rfl

theorem called_rename (before : Renamed π c d) (after : Renamed π c' d') : called (π h) d d' = called h c c' := by
  unfold called
  rw [before.phase, after.phase, calls_rename, calls_rename, after.pool, after.last_tick]

/-- A continuation from a renamed state calls the renamed timer at the same ticks with the same data. -/
theorem Renamed.same_calls (renamed : Renamed π c d) (as : List Action) :
    calls (π h) d (as.map (Action.rename π)) = calls h c as := by
  induction as generalizing c d with
  | nil => rfl
  | cons a as ih =>
    have stepped := renamed.step a
    rw [List.map_cons]
    unfold calls
    cases next : Layering.step c a with
    | none =>
      rw [next] at stepped
      cases next' : Layering.step d (a.rename π) with
      | none => rfl
      | some d' => rw [next'] at stepped; cases stepped
    | some c' =>
      rw [next] at stepped
      cases next' : Layering.step d (a.rename π) with
      | none => rw [next'] at stepped; cases stepped
      | some d' =>
        rw [next'] at stepped
        cases stepped with
        | some after =>
          dsimp only
          rw [ih after, called_rename renamed after]

/-- A list without `h` and `k` is the same when the two change their names. -/
theorem map_swap {hs : List Handle} (none : h ∉ hs) (none' : k ∉ hs) : hs.map (Equiv.swap h k) = hs := by
  refine (List.map_congr_left fun h' mem => ?_).trans hs.map_id
  apply Equiv.swap_apply_of_ne_of_ne
  · rintro rfl
    exact none mem
  · rintro rfl
    exact none' mem

/-- Free addresses can change their names. -/
theorem Tidy.renamed (tidy : Tidy c) (free : c.pool h = none) (free' : c.pool k = none) : Renamed (Equiv.swap h k) c c := by
  have away := (tidy.homed h).away (by simp [Off, free])
  have away' := (tidy.homed k).away (by simp [Off, free'])
  refine ⟨rfl, ?_, ?_, ?_, ?_⟩
  · intro h'
    by_cases same : h' = h
    · rw [same, Equiv.swap_apply_left, free, free']
    · by_cases same' : h' = k
      · rw [same', Equiv.swap_apply_right, free, free']
      · rw [Equiv.swap_apply_of_ne_of_ne same same']
  · intro l i
    exact (map_swap (away (.slot l i)) (away' (.slot l i))).symm
  · exact (map_swap (away .work) (away' .work)).symm
  · cases phase : c.phase with
    | calling tick h' =>
      have other : h' ≠ h := by
        rintro rfl
        exact tidy.free_of_none free tick phase
      have other' : h' ≠ k := by
        rintro rfl
        exact tidy.free_of_none free' tick phase
      rw [Phase.rename, Equiv.swap_apply_of_ne_of_ne other other']
    | _ => rfl

/-- To adjust a timer is to remove it and to create it anew, at its own address. -/
theorem adjustTimer_eq {elapse count : BitVec 32} {data : Nat} (pool : c.pool h = some info) (linked : info.linked = true)
    (positive : 0 < elapse.toInt) (given : data ≠ 0) (moved : info.expires ≠ c.last_tick + elapse) :
    (c.removeTimer h).addTimer elapse count data (some h) = some (c.adjustTimer h elapse count data) := by
  have removed : c.removeTimer h = ((c.detachTimer h info).record (.disarmed h)).store h none := by
    simp only [CTimerLayering.removeTimer, pool, linked, if_true]
  have tick : (c.removeTimer h).last_tick = c.last_tick := by
    rw [removed]
    rfl
  have free : (c.removeTimer h).pool h = none := by
    rw [removed]
    exact Function.update_self _ _ _
  simp only [CTimerLayering.addTimer, if_neg (not_le.2 positive), free, if_true, tick]
  simp only [CTimerLayering.adjustTimer, pool, linked, moved, false_and, if_false, if_true, if_pos given]
  rw [removed]
  -- the record that has been given back is written over
  simp [CTimerLayering.addTimerInfo, CTimerLayering.record, CTimerLayering.store, CTimerLayering.setVec,
    CTimerLayering.detachTimer]

/-- **An adjusted timer is like a new one.** In every reachable state, a pending timer that is adjusted to another tick than
the one it is pending for is called, in every continuation, at the ticks and with the data of a timer that is created at
that moment, at its own address or at any free one. -/
theorem adjusted_as_new {start elapse count : BitVec 32} {data : Nat} {as : List Action}
    (run : Runs step (fun _ _ => True) (.init start) as c) (pool : c.pool h = some info) (linked : info.linked = true)
    (positive : 0 < elapse.toInt) (given : data ≠ 0) (moved : info.expires ≠ c.last_tick + elapse)
    (room : k = h ∨ c.pool k = none) :
    ∃ d, (c.removeTimer h).addTimer elapse count data (some k) = some d ∧
      ∀ bs, calls h (c.adjustTimer h elapse count data) bs = calls k d (bs.map (Action.rename (Equiv.swap h k))) := by
  have tidy := (run.invariant Tidy (tidy_init start) fun _ _ _ tidy _ next => tidy.step next).removeTimer (h := h)
  have free : (c.removeTimer h).pool h = none := by
    simp [CTimerLayering.removeTimer, pool, linked]
  have free' : (c.removeTimer h).pool k = none := by
    rcases room with rfl | none
    · exact free
    · by_cases same : h = k
      · rw [← same]
        exact free
      · exact (removeTimer_aside same).1.trans none
  have fresh := (tidy.renamed free free').addTimer elapse count data (some h)
  rw [adjustTimer_eq pool linked positive given moved, Option.map_some, Equiv.swap_apply_left] at fresh
  cases created : (c.removeTimer h).addTimer elapse count data (some k) with
  | none => rw [created] at fresh; cases fresh
  | some d =>
    rw [created] at fresh
    cases fresh with
    | some renamed =>
      refine ⟨d, rfl, fun bs => ?_⟩
      rw [← renamed.same_calls bs, Equiv.swap_apply_left]

/-- A timer that is pending for the fifth tick, to be called once. -/
def pendingState : CTimerLayering := (step (.init 0) (.addTimer 5 1 1 (some 8))).getD (.init 0)

theorem pendingState_run : Runs step (fun _ _ => True) (.init 0) [.addTimer 5 1 1 (some 8)] pendingState :=
  .single trivial (Option.some_get (by rfl)).symm

theorem adjusted_as_new_free :
    ∃ d, (pendingState.removeTimer 8).addTimer 3 2 2 (some 9) = some d ∧
      ∀ bs, calls 8 (pendingState.adjustTimer 8 3 2 2) bs = calls 9 d (bs.map (Action.rename (Equiv.swap 8 9))) :=
  adjusted_as_new pendingState_run (show pendingState.pool 8 = some ⟨true, 5, 5, 1, 1⟩ by rfl) rfl (by decide) (by decide)
    (by decide) (.inr (by rfl))

/-- A timer that is adjusted to the tick it is pending for keeps its number of calls and its data. -/
theorem adjusted_stale :
    Runs step (fun _ _ => True) (.init 0) [.addTimer 5 1 1 (some 8)] pendingState ∧
      ∃ d, (pendingState.removeTimer 8).addTimer 5 3 2 (some 8) = some d ∧
        calls 8 (pendingState.adjustTimer 8 5 3 2) (.update 20 :: List.replicate 12 .go) = [(5, 1)] ∧
        calls 8 d (.update 20 :: List.replicate 12 .go) = [(5, 2)] := by
  refine ⟨pendingState_run, _, rfl, ?_, ?_⟩
  · decide +kernel
  · decide +kernel

end Fresh

end GameServer.Timers.Layering
