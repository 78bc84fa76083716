import GameServer.Lib.Termination
import GameServer.Timers.LayeringPlaces
import Mathlib.Data.Prod.Lex

/-!
# The update with a budget

`CTimerLayering` in the mode that is not exact. `__NormalUpdate` reads the clock before each call of `OnTimer` when it has
a budget `elapse`, arms a timer again from that reading, and once the budget is exceeded links the rest of the work list
again without calling it. The loops are cut as for `__ExactUpdate`, and the clock's reading is an argument of `take`.

The update ends whatever the clock reads and whatever the callbacks do, as long as they return (`update_returns`): each
turn of the inner loop takes a timer out of the work list, to which nothing is ever added.
-/

namespace GameServer.Timers.Layering

open GameServer.Lib

/-- The wheel with the local variables of `__NormalUpdate`. -/
structure NormalUpdate extends CTimerLayering where
  elapse : BitVec 32
  cur_tick : BitVec 32
  is_time_out : Bool

namespace NormalUpdate

def init (tick : BitVec 32) : NormalUpdate := ⟨.init tick, 0, tick, false⟩

/-- One turn of the inner loop, down to the callback, or the end of the tick; `now` is the clock's reading. -/
def take (s : NormalUpdate) (tick now : BitVec 32) : NormalUpdate :=
  match s.work_list with
  | [] =>
    let phase := if s.is_time_out then .idle else .ticking tick
    { s with toCTimerLayering := { s.toCTimerLayering with last_tick := s.last_tick + 1, phase := phase }.record .ticked }
  | h :: _ => match s.pool h with
    | none => s
    | some info =>
      let c := (s.detachTimer h info).record (.taken h)
      if info.count = 0 then { s with toCTimerLayering := c.store h none }
      else
        let cur_tick := if s.elapse.toInt > 0 then now else s.cur_tick
        let is_time_out := s.is_time_out || (s.elapse.toInt > 0 && cur_tick - tick > s.elapse)
        if is_time_out then
          { s with
            toCTimerLayering := (c.addTimerInfo h { info with expires := cur_tick }).record (.armed h cur_tick)
            cur_tick := cur_tick
            is_time_out := is_time_out }
        else
          { s with
            toCTimerLayering := { c.store h (some { info with linked := false, count := info.count - 1 }) with
              phase := .calling tick h }
            cur_tick := cur_tick }

/-- The callback of `h` is over. -/
def ret (s : NormalUpdate) (tick : BitVec 32) (h : Handle) : NormalUpdate :=
  match s.pool h with
  | none => s
  | some info =>
    if info.count = 0 then { s with toCTimerLayering := { s.store h none with phase := .working tick } }
    else
      let info' := { info with expires := s.cur_tick + info.elapse }
      { s with
        toCTimerLayering := { (s.addTimerInfo h info').record (.armed h info'.expires) with phase := .working tick } }

end NormalUpdate

/-- What the outside does; `update` and `go` come with the clock's reading, for the case that it is read. -/
inductive NormalAction where
  | addTimer (elapse count : BitVec 32) (data : Nat) (room : Option Handle)
  | adjustTimer (h : Handle) (elapse count : BitVec 32) (data : Nat)
  | removeTimer (h : Handle)
  | update (tick elapse : BitVec 32)
  | go (now : BitVec 32)
  | ret
  deriving DecidableEq, Repr

def normalStep (s : NormalUpdate) : NormalAction → Option NormalUpdate
  | .addTimer elapse count data room =>
    if s.phase.callable then (s.addTimer elapse count data room).map fun c => { s with toCTimerLayering := c } else none
  | .adjustTimer h elapse count data =>
    if s.phase.callable && s.live h then some { s with toCTimerLayering := s.adjustTimer h elapse count data } else none
  | .removeTimer h =>
    if s.phase.callable && s.live h then some { s with toCTimerLayering := s.removeTimer h } else none
  | .update tick elapse =>
    if s.phase = .idle then some ⟨{ s.toCTimerLayering with phase := .ticking tick }, elapse, tick, false⟩ else none
  | .go now => match s.phase with
    | .ticking tick => some { s with toCTimerLayering := s.loop tick }
    | .working tick => some (s.take tick now)
    | _ => none
  | .ret => match s.phase with
    | .calling tick h => some (s.ret tick h)
    | _ => none

section Steps

variable {s t : NormalUpdate} {h : Handle} {tick now : BitVec 32} {info : STimerInfo}

/-- All that `take` can do. -/
inductive Taken (s : NormalUpdate) (tick now : BitVec 32) (t : NormalUpdate) : Prop where
  | done (empty : s.work_list = []) (phase : Phase) (which : phase = .ticking tick ∧ s.is_time_out = false ∨ phase = .idle)
      (wheel : t.toCTimerLayering = { s.toCTimerLayering with last_tick := s.last_tick + 1, phase := phase }.record .ticked)
      (cur : t.cur_tick = s.cur_tick) (out : t.is_time_out = s.is_time_out)
  | destroyed (h : Handle) (hs : List Handle) (info : STimerInfo) (work : s.work_list = h :: hs) (pool : s.pool h = some info)
      (linked : info.linked = true) (count : info.count = 0)
      (wheel : t.toCTimerLayering = ((s.detachTimer h info).record (.taken h)).store h none)
      (cur : t.cur_tick = s.cur_tick) (out : t.is_time_out = s.is_time_out)
  | putBack (h : Handle) (hs : List Handle) (info : STimerInfo) (work : s.work_list = h :: hs) (pool : s.pool h = some info)
      (linked : info.linked = true) (count : info.count ≠ 0)
      (wheel : t.toCTimerLayering =
        (((s.detachTimer h info).record (.taken h)).addTimerInfo h { info with expires := t.cur_tick }).record (.armed h t.cur_tick))
      (cur : 0 < s.elapse.toInt ∧ t.cur_tick = now ∨ t.cur_tick = s.cur_tick) (out : t.is_time_out = true)
      (exceeded : s.is_time_out = true ∨ 0 < s.elapse.toInt ∧ t.cur_tick - tick > s.elapse)
  | delivered (h : Handle) (hs : List Handle) (info : STimerInfo) (work : s.work_list = h :: hs) (pool : s.pool h = some info)
      (linked : info.linked = true) (count : info.count ≠ 0)
      (wheel : t.toCTimerLayering = { ((s.detachTimer h info).record (.taken h)).store h
        (some { info with linked := false, count := info.count - 1 }) with phase := .calling tick h })
      (cur : 0 < s.elapse.toInt ∧ t.cur_tick = now ∨ t.cur_tick = s.cur_tick) (out : t.is_time_out = s.is_time_out)

theorem take_spec (tidy : Tidy s.toCTimerLayering) (tick now : BitVec 32) : Taken s tick now (s.take tick now) := by
  unfold NormalUpdate.take
  split
  · next work =>
    refine .done work _ ?_ rfl rfl rfl
    cases under : s.is_time_out with
    | false => exact .inl ⟨rfl, rfl⟩
    | true => exact .inr rfl
  · next h hs work =>
    have mem : h ∈ s.list [] .work := by
      rw [CTimerLayering.list, work]
      exact List.mem_cons_self
    obtain ⟨info, pool, linked⟩ := (tidy.homed h).of_mem mem
    rw [pool]
    dsimp only
    by_cases count : info.count = 0
    · rw [if_pos count]
      exact .destroyed h hs info work pool linked count rfl rfl rfl
    rw [if_neg count]
    have read : 0 < s.elapse.toInt ∧ (if s.elapse.toInt > 0 then now else s.cur_tick) = now ∨
        (if s.elapse.toInt > 0 then now else s.cur_tick) = s.cur_tick := by
      split
      · next budget => exact .inl ⟨budget, rfl⟩
      · exact .inr rfl
    generalize (if s.elapse.toInt > 0 then now else s.cur_tick) = cur_tick at read
    split
    · next out => exact .putBack h hs info work pool linked count rfl read out (by simpa using out)
    · exact .delivered h hs info work pool linked count rfl read rfl

theorem tidy_take (tidy : Tidy s.toCTimerLayering) (phase : s.phase = .working tick) (now : BitVec 32) :
    Tidy (s.take tick now).toCTimerLayering := by
  have outside : ∀ tick h, s.phase ≠ .calling tick h := by simp [phase]
  cases take_spec tidy tick now with
  | done empty phase which wheel =>
    rw [wheel]
    apply tidy.nextTick outside empty
    rcases which with ⟨rfl, -⟩ | rfl
    · simp
    · simp
  | destroyed h hs info work pool linked count wheel =>
    rw [wheel]
    exact tidy.destroy pool linked _
  | putBack h hs info work pool linked count wheel =>
    rw [wheel]
    exact tidy.relink pool linked _ _ _
  | delivered h hs info work pool linked count wheel =>
    rw [wheel]
    exact tidy.deliver outside _ _ _

theorem tidy_ret (tidy : Tidy s.toCTimerLayering) (phase : s.phase = .calling tick h) : Tidy (s.ret tick h).toCTimerLayering := by
  obtain ⟨info, pool, -⟩ := tidy.called tick h phase
  unfold NormalUpdate.ret
  rw [pool]
  dsimp only
  split
  · exact tidy.finish phase
  · exact tidy.rearm phase _ _

theorem tidy_normalStep {a : NormalAction} (tidy : Tidy s.toCTimerLayering) (next : normalStep s a = some t) :
    Tidy t.toCTimerLayering := by
  cases a with
  | addTimer elapse count data room =>
    simp only [normalStep] at next
    split at next
    · obtain ⟨c, added, rfl⟩ := Option.map_eq_some_iff.1 next
      exact tidy.addTimer added
    · cases next
  | adjustTimer h elapse count data =>
    simp only [normalStep] at next
    split at next
    · cases next
      exact tidy.adjustTimer
    · cases next
  | removeTimer h =>
    simp only [normalStep] at next
    split at next
    · cases next
      exact tidy.removeTimer
    · cases next
  | update tick elapse =>
    simp only [normalStep] at next
    split at next
    · next idle =>
      cases next
      exact tidy.begin idle tick
    · cases next
  | go now =>
    simp only [normalStep] at next
    split at next
    · next phase =>
      cases next
      exact tidy.loop phase
    · next phase =>
      cases next
      exact tidy_take tidy phase now
    · cases next
  | ret =>
    simp only [normalStep] at next
    split at next
    · next phase =>
      cases next
      exact tidy_ret tidy phase
    · cases next

end Steps

/-- A call that a callback may make. -/
def NormalAction.isCall : NormalAction → Bool
  | .addTimer _ _ _ _ => true
  | .adjustTimer _ _ _ _ => true
  | .removeTimer _ => true
  | _ => false

/-- The update goes on: by itself, or by a callback that makes some calls and returns. -/
inductive UpdateTurn (s t : NormalUpdate) : Prop where
  | go (now : BitVec 32) (next : normalStep s (.go now) = some t)
  | callback (as : List NormalAction) (mid : NormalUpdate) (run : Runs normalStep (fun _ a => a.isCall = true) s as mid)
      (next : normalStep mid .ret = some t)

/-- The ticks that are left, and the timers of the work list. -/
def updateRank (s : NormalUpdate) : Nat ×ₗ Nat :=
  match s.phase with
  | .idle => toLex (0, 0)
  | .ticking tick => toLex (2 * dist s.last_tick tick + 1, 0)
  | .working tick => toLex (2 * dist s.last_tick tick, 2 * s.work_list.length)
  | .calling tick _ => toLex (2 * dist s.last_tick tick, 2 * s.work_list.length + 1)

/-- A tick is worked on only when it is to come. -/
structure Ticking (s : NormalUpdate) : Prop where
  tidy : Tidy s.toCTimerLayering
  working : ∀ tick, s.phase = .working tick → 0 < dist s.last_tick tick
  calling : ∀ tick h, s.phase = .calling tick h → 0 < dist s.last_tick tick

section Termination

variable {s t : NormalUpdate} {a : NormalAction} {as : List NormalAction} {h : Handle} {tick now : BitVec 32}

theorem rank_lt {m m' n n' : Nat} (less : m < m' ∨ m = m' ∧ n < n') : toLex (m, n) < toLex (m', n') :=
  Prod.Lex.toLex_lt_toLex.2 less

theorem dist_pos {tick expires : BitVec 32} (ne : expires ≠ tick) : 0 < dist tick expires := by
  apply Nat.pos_of_ne_zero
  intro zero
  exact ne (sub_eq_zero.1 (BitVec.eq_of_toNat_eq zero))

theorem dist_succ {tick expires : BitVec 32} (pos : 0 < dist tick expires) : dist (tick + 1) expires + 1 = dist tick expires := by
  have lt := tick.isLt
  have lt' := expires.isLt
  have succ : (tick + 1).toNat = (tick.toNat + 1) % 2 ^ 32 := by simp [BitVec.toNat_add]
  rw [dist_eq] at pos
  rw [dist_eq, dist_eq, succ]
  omega

/-- What a call from a callback leaves alone. -/
structure Called (s t : NormalUpdate) : Prop where
  phase : t.phase = s.phase
  last_tick : t.last_tick = s.last_tick
  cur_tick : t.cur_tick = s.cur_tick
  work_list : t.work_list.length ≤ s.work_list.length

theorem called_of_isCall (call : a.isCall = true) (next : normalStep s a = some t) : Called s t := by
  cases a with
  | addTimer elapse count data room =>
    simp only [normalStep] at next
    split at next
    · obtain ⟨c, added, rfl⟩ := Option.map_eq_some_iff.1 next
      unfold CTimerLayering.addTimer at added
      split at added
      · cases added
        exact ⟨rfl, rfl, rfl, Nat.le_refl _⟩
      · cases room with
        | none =>
          cases added
          exact ⟨rfl, rfl, rfl, Nat.le_refl _⟩
        | some h =>
          dsimp only at added
          split at added
          · cases added
            exact ⟨rfl, rfl, rfl, Nat.le_refl _⟩
          · cases added
    · cases next
  | adjustTimer h elapse count data =>
    simp only [normalStep] at next
    split at next
    · cases next
      unfold CTimerLayering.adjustTimer
      cases s.pool h with
      | none => exact ⟨rfl, rfl, rfl, Nat.le_refl _⟩
      | some info =>
        dsimp only
        generalize (if data ≠ 0 then data else info.data) = data'
        split
        · exact ⟨rfl, rfl, rfl, Nat.le_refl _⟩
        · split
          · exact ⟨rfl, rfl, rfl, List.length_filter_le _ _⟩
          · exact ⟨rfl, rfl, rfl, Nat.le_refl _⟩
    · cases next
  | removeTimer h =>
    simp only [normalStep] at next
    split at next
    · cases next
      unfold CTimerLayering.removeTimer
      cases s.pool h with
      | none => exact ⟨rfl, rfl, rfl, Nat.le_refl _⟩
      | some info =>
        dsimp only
        split
        · exact ⟨rfl, rfl, rfl, List.length_filter_le _ _⟩
        · exact ⟨rfl, rfl, rfl, Nat.le_refl _⟩
    · cases next
  | update => cases call
  | go => cases call
  | ret => cases call

theorem called_of_run (run : Runs normalStep (fun _ a => a.isCall = true) s as t) : Called s t := by
  induction run with
  | refl => exact ⟨rfl, rfl, rfl, Nat.le_refl _⟩
  | snoc _ call next ih =>
    have last := called_of_isCall call next
    exact ⟨last.phase.trans ih.phase, last.last_tick.trans ih.last_tick, last.cur_tick.trans ih.cur_tick,
      Nat.le_trans last.work_list ih.work_list⟩

/-- One turn of the outer loop ends the update or begins a tick. -/
theorem loop_cases (c : CTimerLayering) (tick : BitVec 32) : (c.loop tick).phase = .idle ∨
    (c.loop tick).phase = .working tick ∧ (c.loop tick).last_tick = c.last_tick ∧ tick ≠ c.last_tick := by
  unfold CTimerLayering.loop
  split
  · exact .inl rfl
  · next late => exact .inr ⟨rfl, (outside_cascades c).last_tick, late⟩

theorem rank_idle (phase : s.phase = .idle) : updateRank s = toLex (0, 0) := by
  simp only [updateRank, phase]

theorem rank_ticking (phase : s.phase = .ticking tick) : updateRank s = toLex (2 * dist s.last_tick tick + 1, 0) := by
  simp only [updateRank, phase]

theorem rank_working (phase : s.phase = .working tick) :
    updateRank s = toLex (2 * dist s.last_tick tick, 2 * s.work_list.length) := by
  simp only [updateRank, phase]

theorem rank_calling (phase : s.phase = .calling tick h) :
    updateRank s = toLex (2 * dist s.last_tick tick, 2 * s.work_list.length + 1) := by
  simp only [updateRank, phase]

theorem Ticking.of_idle (tidy : Tidy s.toCTimerLayering) (phase : s.phase = .idle) : Ticking s :=
  ⟨tidy, by simp [phase], by simp [phase]⟩

theorem Ticking.of_ticking (tidy : Tidy s.toCTimerLayering) (phase : s.phase = .ticking tick) : Ticking s :=
  ⟨tidy, by simp [phase], by simp [phase]⟩

theorem Ticking.of_working (tidy : Tidy s.toCTimerLayering) (phase : s.phase = .working tick) (pos : 0 < dist s.last_tick tick) :
    Ticking s :=
  ⟨tidy, by rw [phase]; rintro tick' ⟨⟩; exact pos, by simp [phase]⟩

theorem Ticking.of_calling (tidy : Tidy s.toCTimerLayering) (phase : s.phase = .calling tick h) (pos : 0 < dist s.last_tick tick) :
    Ticking s :=
  ⟨tidy, by simp [phase], by rw [phase]; rintro tick' h' ⟨⟩; exact pos⟩

theorem Ticking.loop (ticking : Ticking s) (phase : s.phase = .ticking tick)
    (next : { s with toCTimerLayering := s.loop tick } = t) : Ticking t ∧ updateRank t < updateRank s := by
  have tidy : Tidy t.toCTimerLayering := by
    rw [← next]
    exact ticking.tidy.loop phase
  rw [rank_ticking phase]
  rcases loop_cases s.toCTimerLayering tick with idle | ⟨working, last_tick, late⟩
  · have idle : t.phase = .idle := by rw [← next]; exact idle
    rw [rank_idle idle]
    exact ⟨.of_idle tidy idle, rank_lt (by omega)⟩
  · have working : t.phase = .working tick := by rw [← next]; exact working
    have last_tick : t.last_tick = s.last_tick := by rw [← next]; exact last_tick
    have pos := dist_pos late
    rw [← last_tick] at pos
    rw [rank_working working, last_tick]
    exact ⟨.of_working tidy working pos, rank_lt (by omega)⟩

theorem Ticking.take (ticking : Ticking s) (phase : s.phase = .working tick) (now : BitVec 32) :
    Ticking (s.take tick now) ∧ updateRank (s.take tick now) < updateRank s := by
  have pos := ticking.working tick phase
  have tidy := tidy_take ticking.tidy phase now
  have shorter : ∀ h hs, s.work_list = h :: hs → (s.work_list.filter (· ≠ h)).length < s.work_list.length := by
    intro h hs work
    rw [work, List.filter_cons_of_neg (by simp)]
    exact Nat.lt_succ_of_le (List.length_filter_le _ _)
  rw [rank_working phase]
  have taken := take_spec ticking.tidy tick now
  generalize s.take tick now = t at taken tidy
  cases taken with
  | done empty phase' which wheel =>
    have phase'' : t.phase = phase' := congrArg CTimerLayering.phase wheel
    have last_tick : t.last_tick = s.last_tick + 1 := congrArg CTimerLayering.last_tick wheel
    have succ := dist_succ pos
    rcases which with ⟨rfl, -⟩ | rfl
    · rw [rank_ticking phase'', last_tick]
      exact ⟨.of_ticking tidy phase'', rank_lt (.inl (by omega))⟩
    · rw [rank_idle phase'']
      exact ⟨.of_idle tidy phase'', rank_lt (.inl (by omega))⟩
  | destroyed h hs info work pool linked count wheel =>
    have less := shorter h hs work
    have phase' : t.phase = .working tick := (congrArg CTimerLayering.phase wheel).trans phase
    have last_tick : t.last_tick = s.last_tick := by rw [wheel]; rfl
    have work_list : t.work_list = s.work_list.filter (· ≠ h) := by rw [wheel]; rfl
    rw [rank_working phase', last_tick, work_list]
    rw [← last_tick] at pos
    exact ⟨.of_working tidy phase' pos, rank_lt (.inr ⟨rfl, by omega⟩)⟩
  | putBack h hs info work pool linked count wheel =>
    have less := shorter h hs work
    have phase' : t.phase = .working tick := (congrArg CTimerLayering.phase wheel).trans phase
    have last_tick : t.last_tick = s.last_tick := by rw [wheel]; rfl
    have work_list : t.work_list = s.work_list.filter (· ≠ h) := by rw [wheel]; rfl
    rw [rank_working phase', last_tick, work_list]
    rw [← last_tick] at pos
    exact ⟨.of_working tidy phase' pos, rank_lt (.inr ⟨rfl, by omega⟩)⟩
  | delivered h hs info work pool linked count wheel =>
    have less := shorter h hs work
    have phase' : t.phase = .calling tick h := congrArg CTimerLayering.phase wheel
    have last_tick : t.last_tick = s.last_tick := by rw [wheel]; rfl
    have work_list : t.work_list = s.work_list.filter (· ≠ h) := by rw [wheel]; rfl
    rw [rank_calling phase', last_tick, work_list]
    rw [← last_tick] at pos
    exact ⟨.of_calling tidy phase' pos, rank_lt (.inr ⟨rfl, by omega⟩)⟩

theorem Ticking.ret (ticking : Ticking s) (phase : s.phase = .calling tick h) (next : s.ret tick h = t) :
    Ticking t ∧ updateRank t < updateRank s := by
  have pos := ticking.calling tick h phase
  have tidy := tidy_ret ticking.tidy phase
  rw [next] at tidy
  obtain ⟨info, pool, -⟩ := ticking.tidy.called tick h phase
  have after : t.phase = .working tick ∧ t.last_tick = s.last_tick ∧ t.work_list = s.work_list := by
    rw [← next]
    unfold NormalUpdate.ret
    rw [pool]
    dsimp only
    split
    · exact ⟨rfl, rfl, rfl⟩
    · exact ⟨rfl, rfl, rfl⟩
  obtain ⟨working, last_tick, work_list⟩ := after
  rw [rank_working working, rank_calling phase, last_tick, work_list]
  rw [← last_tick] at pos
  exact ⟨.of_working tidy working pos, rank_lt (.inr ⟨rfl, by omega⟩)⟩

/-- The calls that a callback makes do not raise the rank. -/
theorem Ticking.run (ticking : Ticking s) (run : Runs normalStep (fun _ a => a.isCall = true) s as t)
    (phase : s.phase = .calling tick h) : Ticking t ∧ t.phase = .calling tick h ∧ updateRank t ≤ updateRank s := by
  have called := called_of_run run
  have tidy := run.invariant (fun s => Tidy s.toCTimerLayering) ticking.tidy fun _ _ _ tidy _ next => tidy_normalStep tidy next
  have phase' := called.phase.trans phase
  have pos := ticking.calling tick h phase
  rw [← called.last_tick] at pos
  refine ⟨.of_calling tidy phase' pos, phase', ?_⟩
  rw [rank_calling phase, rank_calling phase', called.last_tick]
  refine Prod.Lex.toLex_le_toLex.2 (.inr ⟨rfl, ?_⟩)
  have shorter := called.work_list
  dsimp only
  omega

theorem Ticking.turn (ticking : Ticking s) (turn : UpdateTurn s t) : Ticking t ∧ updateRank t < updateRank s := by
  cases turn with
  | go now next =>
    simp only [normalStep] at next
    split at next
    · next phase => exact ticking.loop phase (Option.some.inj next)
    · next phase =>
      rw [← Option.some.inj next]
      exact ticking.take phase now
    · cases next
  | callback as mid run next =>
    simp only [normalStep] at next
    split at next
    · next tick h phase =>
      have before := (called_of_run run).phase.symm.trans phase
      obtain ⟨ticking', -, most⟩ := ticking.run run before
      obtain ⟨last, less⟩ := ticking'.ret phase (Option.some.inj next)
      exact ⟨last, lt_of_lt_of_le less most⟩
    · cases next

/-- Until it is over the update can go on. -/
theorem exists_turn (s : NormalUpdate) (busy : s.phase ≠ .idle) : ∃ t, UpdateTurn s t := by
  cases phase : s.phase with
  | idle => exact absurd phase busy
  | ticking tick => exact ⟨{ s with toCTimerLayering := s.loop tick }, .go 0 (by simp only [normalStep, phase])⟩
  | working tick => exact ⟨s.take tick 0, .go 0 (by simp only [normalStep, phase])⟩
  | calling tick h => exact ⟨s.ret tick h, .callback [] s .refl (by simp only [normalStep, phase])⟩

/-- **The update ends**, whatever the clock reads and whatever the callbacks do. -/
theorem update_returns {start elapse : BitVec 32} (run : Runs normalStep (fun _ _ => True) (.init start) as s)
    (begun : normalStep s (.update tick elapse) = some t) : Returns UpdateTurn (fun s => s.phase = .idle) t := by
  have tidy := run.invariant (fun s => Tidy s.toCTimerLayering) (tidy_init start) fun _ _ _ tidy _ next =>
    tidy_normalStep tidy next
  have phase : t.phase = .ticking tick := by
    simp only [normalStep] at begun
    split at begun
    · cases begun
      rfl
    · cases begun
  exact .of_rank wellFounded_lt updateRank Ticking (.of_ticking (tidy_normalStep tidy begun) phase)
    (fun s _ busy => exists_turn s busy) fun s t ticking _ turn => ticking.turn turn

end Termination

end GameServer.Timers.Layering
