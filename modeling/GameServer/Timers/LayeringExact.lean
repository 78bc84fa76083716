import GameServer.Timers.LayeringInv

/-!
# The wheel is an alarm clock

`Good` is what every run keeps: the lists are right for the phase of the update, and
the log is one an alarm clock can follow, to the alarms that are set now. Since the
clock takes an alarm out only at its due tick and does not finish a tick while one is
due, a timer is never early, late, lost or taken out twice (`timers_exact`).
-/

namespace GameServer.Timers.Layering

open GameServer.Lib

/-- The due tick of a timer that is linked. -/
def due (info : Option STimerInfo) : Option (BitVec 32) :=
  info.bind fun i => if i.linked then some i.expires else none

/-- The alarm clock the wheel stands for. -/
def CTimerLayering.alarms (c : CTimerLayering) : Alarms Handle := ⟨c.last_tick, fun h => due (c.pool h)⟩

/-- The slots of this tick have been emptied. -/
def Phase.emptied : Phase → Bool
  | .working _ => true
  | .calling _ _ => true
  | _ => false

/-- The lists are right and the log is one an alarm clock follows. -/
structure Kept (start : BitVec 32) (emptied : Bool) (c : CTimerLayering) : Prop where
  inv : Inv c [] none (fun _ => emptied) 0
  log : Alarms.Follows (Alarms.silent start) c.log c.alarms

structure Good (start : BitVec 32) (c : CTimerLayering) : Prop where
  kept : Kept start c.phase.emptied c
  rest : c.phase.emptied = false → c.work_list = []
  called : ∀ tick h, c.phase = .calling tick h → ∃ info, c.pool h = some info ∧ info.linked = false

/-- What the environment promises: a timer is adjusted by a positive time, and a timer that
is armed again expires later than the tick and less than `2 ^ 31` ticks ahead. -/
def Admissible (c : CTimerLayering) : Action → Prop
  | .adjustTimer _ elapse _ _ => 0 < elapse.toInt
  | .ret now => ∀ tick h info, c.phase = .calling tick h → c.pool h = some info → info.count ≠ 0 →
      0 < dist c.last_tick (now + info.elapse) ∧ dist c.last_tick (now + info.elapse) < 2 ^ 31
  | _ => True

section Steps

variable {start : BitVec 32} {c : CTimerLayering} {h : Handle} {info : STimerInfo}

theorem alarms_store (info : Option STimerInfo) : (c.store h info).alarms = c.alarms.set h (due info) := by
  refine Alarms.ext rfl ?_
  funext h'
  by_cases same : h' = h
  · subst same
    simp [CTimerLayering.alarms, Alarms.set]
  · simp [CTimerLayering.alarms, Alarms.set, same]

theorem alarms_addTimerInfo : (c.addTimerInfo h info).alarms = c.alarms.set h (some info.expires) :=
  alarms_store (c := c) (h := h) (some { info with linked := true })

theorem alarms_detachTimer (info : STimerInfo) : (c.detachTimer h info).alarms = c.alarms.set h none :=
  alarms_store (c := c) (h := h) (some { info with linked := false })

/-- Writing to a timer that stays out of the lists sets no alarm. -/
theorem alarms_store_unlinked {info : Option STimerInfo} (off : c.alarms.due h = none) (off' : due info = none) :
    (c.store h info).alarms = c.alarms := by
  rw [alarms_store, off']
  refine Alarms.ext rfl ?_
  simp only [Alarms.set]
  rw [← off, Function.update_eq_self]

theorem dist_add (tick elapse : BitVec 32) : dist tick (tick + elapse) = elapse.toNat := by
  unfold dist
  rw [add_sub_cancel_left]

theorem dist_of_pos {elapse : BitVec 32} (pos : 0 < elapse.toInt) (tick : BitVec 32) :
    0 < dist tick (tick + elapse) ∧ dist tick (tick + elapse) < 2 ^ 31 := by
  rw [dist_add]
  rw [BitVec.toInt_eq_toNat_cond] at pos
  split_ifs at pos <;> omega

/-- The invariant reads only lists, pool and tick. -/
theorem Inv.congr {d : CTimerLayering} {done : Level → Bool} (inv : Inv c [] none done 0)
    (last_tick : d.last_tick = c.last_tick) (pool : d.pool = c.pool) (vec : d.vec = c.vec)
    (work_list : d.work_list = c.work_list) : Inv d [] none done 0 := by
  have list : d.list [] = c.list [] := by
    funext p
    cases p with
    | slot l i => simp only [CTimerLayering.list, vec]
    | work => exact work_list
    | tmp => rfl
  constructor
  · rw [list]; exact inv.nodup
  · rw [list]; exact inv.once
  · rw [list, pool, last_tick]; exact inv.fits
  · rw [list, pool]; exact inv.found

theorem due_unlinked {info : Option STimerInfo} (off : ∀ i, info = some i → i.linked = false) : due info = none := by
  cases info with
  | none => rfl
  | some i => simp [due, off i rfl]

/-- `h` is linked in no list. -/
def Off (c : CTimerLayering) (h : Handle) : Prop := ∀ i, c.pool h = some i → i.linked = false

theorem Off.of_pool (pool : c.pool h = some info) (unlinked : info.linked = false) : Off c h := by
  intro i pool'
  rw [pool] at pool'
  rwa [← Option.some.inj pool']

theorem off_detachTimer (e : Event Handle) : Off ((c.detachTimer h info).record e) h := by
  intro i pool
  have pool : (c.detachTimer h info).pool h = some i := pool
  rw [pool_detachTimer, Function.update_self] at pool
  rw [← Option.some.inj pool]

variable {emptied : Bool}

/-- A timer that is not linked is linked. -/
theorem Kept.arm (kept : Kept start emptied c) (off : Off c h)
    (ahead : 0 < dist c.last_tick info.expires ∧ dist c.last_tick info.expires < 2 ^ 31) :
    Kept start emptied ((c.addTimerInfo h info).record (.armed h info.expires)) where
  inv := (kept.inv.mayLink.addTimerInfo (kept.inv.away off) ahead.2 (.inl ahead.1)).congr rfl rfl rfl rfl
  log := by
    have step : Alarms.Step c.alarms (.armed h info.expires) (c.addTimerInfo h info).alarms := by
      rw [alarms_addTimerInfo]
      exact .armed _ (due_unlinked off)
    exact kept.log.snoc step

/-- A linked timer is taken out of its list. -/
theorem Kept.detach (kept : Kept start emptied c) {e : Event Handle}
    (step : Alarms.Step c.alarms e (c.alarms.set h none)) :
    Kept start emptied ((c.detachTimer h info).record e) where
  inv := (kept.inv.detachTimer (by simp)).congr rfl rfl rfl rfl
  log := by
    rw [← alarms_detachTimer info] at step
    exact kept.log.snoc step

theorem Kept.disarm (kept : Kept start emptied c) (pool : c.pool h = some info) (linked : info.linked = true) :
    Kept start emptied ((c.detachTimer h info).record (.disarmed h)) := by
  have set : c.alarms.due h = some info.expires := by simp [CTimerLayering.alarms, due, pool, linked]
  exact kept.detach (.disarmed set)

/-- A timer that is not linked is changed or given back. -/
theorem Kept.store (kept : Kept start emptied c) (off : Off c h) {info : Option STimerInfo}
    (unlinked : ∀ i, info = some i → i.linked = false) : Kept start emptied (c.store h info) where
  inv := kept.inv.store (kept.inv.away off) unlinked
  log := by
    rw [alarms_store_unlinked (due_unlinked off) (due_unlinked unlinked)]
    exact kept.log

theorem Good.addTimer {d : CTimerLayering} {elapse count : BitVec 32} {data : Nat} {room : Option Handle}
    (good : Good start c) (next : c.addTimer elapse count data room = some d) : Good start d := by
  unfold CTimerLayering.addTimer at next
  split_ifs at next with negative
  · rwa [← Option.some.inj next]
  cases room with
  | none => rwa [← Option.some.inj next]
  | some h =>
    dsimp only at next
    split_ifs at next with free
    obtain rfl := Option.some.inj next
    have off : Off c h := by simp [Off, free]
    refine ⟨good.kept.arm off (dist_of_pos (lt_of_not_ge negative) c.last_tick), good.rest, ?_⟩
    intro tick h' phase
    obtain ⟨info', pool, unlinked⟩ := good.called tick h' phase
    have other : h' ≠ h := by
      rintro rfl
      rw [free] at pool
      cases pool
    exact ⟨info', by simpa [CTimerLayering.record, other] using pool, unlinked⟩

/-- A timer that is called is not linked, so it is none that is. -/
theorem called_ne {tick : BitVec 32} {h' : Handle}
    (called : ∀ tick h, c.phase = .calling tick h → ∃ info, c.pool h = some info ∧ info.linked = false) (pool : c.pool h = some info)
    (linked : info.linked = true) (phase : c.phase = .calling tick h') :
    ∃ info', c.pool h' = some info' ∧ info'.linked = false ∧ h' ≠ h := by
  obtain ⟨info', pool', unlinked⟩ := called tick h' phase
  refine ⟨info', pool', unlinked, ?_⟩
  rintro rfl
  rw [pool] at pool'
  rw [Option.some.inj pool', unlinked] at linked
  cases linked

/-- A timer that is not linked is changed. -/
theorem Good.store {info' : STimerInfo} (good : Good start c) (pool : c.pool h = some info) (unlinked : info.linked = false)
    (still : info'.linked = false) : Good start (c.store h (some info')) := by
  refine ⟨good.kept.store (.of_pool pool unlinked) (by simp [still]), good.rest, ?_⟩
  intro tick h' phase
  by_cases other : h' = h
  · subst other
    exact ⟨info', Function.update_self _ _ _, still⟩
  · obtain ⟨info'', pool', unlinked'⟩ := good.called tick h' phase
    exact ⟨info'', by simpa [other] using pool', unlinked'⟩

theorem Good.adjustTimer {elapse count : BitVec 32} {data : Nat} (good : Good start c) (positive : 0 < elapse.toInt) :
    Good start (c.adjustTimer h elapse count data) := by
  unfold CTimerLayering.adjustTimer
  cases pool : c.pool h with
  | none => exact good
  | some info =>
    dsimp only
    generalize (if data ≠ 0 then data else info.data) = data'
    split_ifs with same linked
    · exact good
    · have detached := good.kept.disarm pool linked
      refine ⟨detached.arm (off_detachTimer _) (dist_of_pos positive c.last_tick), ?_, ?_⟩
      · intro idle
        have empty := good.rest idle
        simp [CTimerLayering.record, CTimerLayering.addTimerInfo, CTimerLayering.store, CTimerLayering.setVec,
          CTimerLayering.detachTimer, empty]
      · intro tick h' phase
        obtain ⟨info', pool', unlinked, other⟩ := called_ne good.called pool linked phase
        exact ⟨info', by simpa [CTimerLayering.record, other] using pool', unlinked⟩
    · have unlinked : info.linked = false := by simpa using linked
      exact good.store pool unlinked unlinked

theorem Good.removeTimer (good : Good start c) : Good start (c.removeTimer h) := by
  unfold CTimerLayering.removeTimer
  cases pool : c.pool h with
  | none => exact good
  | some info =>
    dsimp only
    split_ifs with linked
    · have detached := good.kept.disarm pool linked
      refine ⟨detached.store (off_detachTimer _) (by simp), ?_, ?_⟩
      · intro idle
        have empty := good.rest idle
        simp [CTimerLayering.record, CTimerLayering.store, CTimerLayering.detachTimer, empty]
      · intro tick h' phase
        obtain ⟨info', pool', unlinked, other⟩ := called_ne good.called pool linked phase
        exact ⟨info', by simpa [CTimerLayering.record, other] using pool', unlinked⟩
    · have unlinked : info.linked = false := by simpa using linked
      exact good.store pool unlinked unlinked

/-- The timers of the first vector's slot go to the work list: all of them are due now. -/
theorem Inv.toWork {tmp : List Handle} {done : Level → Bool} (inv : Inv c tmp none done 1) (empty : c.work_list = []) :
    Inv { c with work_list := tmp } [] none done 0 := by
  have whence : ∀ p h, h ∈ CTimerLayering.list { c with work_list := tmp } [] p →
      (p = .work ∧ h ∈ tmp) ∨ (∃ l i, p = .slot l i) ∧ h ∈ c.list tmp p := by
    intro p h mem
    cases p with
    | slot l i => exact .inr ⟨⟨l, i, rfl⟩, mem⟩
    | work => exact .inl ⟨rfl, mem⟩
    | tmp => cases mem
  refine ⟨?_, ?_, ?_, ?_⟩
  · intro p
    cases p with
    | slot l i => exact inv.nodup (.slot l i)
    | work => exact inv.nodup .tmp
    | tmp => exact List.nodup_nil
  · intro p q h memp memq
    rcases whence p h memp with ⟨rfl, memp⟩ | ⟨⟨l, i, rfl⟩, memp⟩ <;>
      rcases whence q h memq with ⟨rfl, memq⟩ | ⟨⟨l', i', rfl⟩, memq⟩
    · rfl
    · cases inv.once .tmp (.slot l' i') h memp memq
    · cases inv.once (.slot l i) .tmp h memp memq
    · exact inv.once _ _ h memp memq
  · intro p h mem
    rcases whence p h mem with ⟨rfl, mem⟩ | ⟨⟨l, i, rfl⟩, mem⟩
    · obtain ⟨info, pool, linked, near⟩ := inv.fits .tmp h mem
      refine ⟨info, pool, linked, ?_⟩
      have zero : (info.expires - c.last_tick).toNat = 0 := by
        simp only [Fits, dist] at near
        omega
      exact sub_eq_zero.1 (BitVec.eq_of_toNat_eq zero)
    · exact inv.fits (.slot l i) h mem
  · intro h info pool linked
    obtain ⟨p, mem⟩ := (inv.found h info pool linked).resolve_right (by simp)
    cases p with
    | slot l i => exact .inl ⟨.slot l i, mem⟩
    | work => rw [CTimerLayering.list, empty] at mem; cases mem
    | tmp => exact .inl ⟨.work, mem⟩

theorem Good.loop {tick : BitVec 32} (good : Good start c) (phase : c.phase = .ticking tick) :
    Good start (c.loop tick) := by
  have idle : c.phase.emptied = false := by rw [phase]; rfl
  have inv := good.kept.inv
  rw [idle] at inv
  unfold CTimerLayering.loop
  split_ifs with passed
  · exact ⟨⟨inv.congr rfl rfl rfl rfl, good.kept.log⟩, fun _ => good.rest idle, by simp⟩
  · obtain ⟨inv', same⟩ := inv.cascades
    have tick' := same.last_tick
    have even : c.cascades.last_tick.toNat % Level.tv1.unit = 0 := Nat.mod_one _
    have moved := (inv'.empty (l := .tv1) rfl even).toWork (same.work_list.trans (good.rest idle))
    rw [tick'] at moved
    have all : Function.update (fun l => decide (l ≠ Level.tv1)) .tv1 true = fun _ => true := by
      funext l
      cases l <;> simp [Function.update]
    rw [all] at moved
    have alarms : c.cascades.alarms = c.alarms := by
      unfold CTimerLayering.alarms
      rw [same.last_tick, same.pool]
    refine ⟨⟨moved.congr rfl rfl rfl rfl, ?_⟩, by simp [Phase.emptied], by simp⟩
    have log := good.kept.log
    rw [← alarms, ← same.log] at log
    exact log

/-- Once the work list is empty no timer is due at this tick. -/
theorem Inv.noneDue (inv : Inv c [] none (fun _ => true) 0) (empty : c.work_list = []) (h : Handle) :
    c.alarms.due h ≠ some c.last_tick := by
  intro now
  obtain ⟨info, pool, linked⟩ := Option.bind_eq_some_iff.1 now
  split_ifs at linked with on
  obtain ⟨p, mem⟩ := (inv.found h info pool on).resolve_right (by simp)
  obtain ⟨info', pool', -, fits⟩ := inv.fits p h mem
  obtain rfl := Option.some.inj (pool.symm.trans pool')
  cases p with
  | slot l i =>
    have pos := Placed.pos fits
    rw [Option.some.inj linked] at pos
    simp [dist] at pos
  | work => rw [CTimerLayering.list, empty] at mem; cases mem
  | tmp => cases mem

/-- `++last_tick_` with an empty work list. -/
theorem Inv.nextTick (inv : Inv c [] none (fun _ => true) 0) (empty : c.work_list = []) (phase : Phase) :
    Inv { c with last_tick := c.last_tick + 1, phase := phase } [] none (fun _ => false) 0 := by
  refine ⟨inv.nodup, inv.once, ?_, inv.found⟩
  intro p h mem
  obtain ⟨info, pool, linked, fits⟩ := inv.fits p h mem
  refine ⟨info, pool, linked, ?_⟩
  cases p with
  | slot l i => exact Placed.next fits
  | work => rw [CTimerLayering.list, empty] at mem; cases mem
  | tmp => cases mem

theorem Good.working {tick : BitVec 32} (kept : Kept start true c) (phase : c.phase = .working tick) : Good start c := by
  have emptied : c.phase.emptied = true := by rw [phase]; rfl
  exact ⟨by rwa [emptied], by simp [emptied], by simp [phase]⟩

theorem Good.calling {tick : BitVec 32} (kept : Kept start true c) (phase : c.phase = .calling tick h)
    (pool : c.pool h = some info) (unlinked : info.linked = false) : Good start c := by
  have emptied : c.phase.emptied = true := by rw [phase]; rfl
  refine ⟨by rwa [emptied], by simp [emptied], ?_⟩
  intro tick' h' phase'
  obtain ⟨-, rfl⟩ := Phase.calling.inj (phase.symm.trans phase')
  exact ⟨info, pool, unlinked⟩

theorem Good.keptTrue (good : Good start c) (emptied : c.phase.emptied = true) : Kept start true c := by
  have kept := good.kept
  rwa [emptied] at kept

theorem Good.take {tick : BitVec 32} (good : Good start c) (phase : c.phase = .working tick) :
    Good start (c.take tick) := by
  have kept := good.keptTrue (by rw [phase]; rfl)
  unfold CTimerLayering.take
  cases work : c.work_list with
  | nil =>
    refine ⟨⟨(kept.inv.nextTick work (.ticking tick)).congr rfl rfl rfl work.symm, ?_⟩, fun _ => rfl,
      by simp [CTimerLayering.record]⟩
    exact kept.log.snoc (.ticked (kept.inv.noneDue work))
  | cons h hs =>
    have mem : h ∈ c.list [] .work := by
      rw [CTimerLayering.list, work]
      exact List.mem_cons_self
    obtain ⟨info, pool, linked, now⟩ := kept.inv.fits .work h mem
    have due : c.alarms.due h = some c.alarms.now := by
      have now : info.expires = c.last_tick := now
      simp [CTimerLayering.alarms, due, pool, linked, now]
    have taken : Kept start true ((c.detachTimer h info).record (.taken h)) := kept.detach (.taken due)
    have off : Off ((c.detachTimer h info).record (.taken h)) h := off_detachTimer _
    dsimp only
    rw [pool]
    dsimp only
    split_ifs with ended
    · exact .working (taken.store off (by simp)) phase
    · have stored : Kept start true (((c.detachTimer h info).record (.taken h)).store h
          (some { info with linked := false, count := info.count - 1 })) := taken.store off (by simp)
      exact .calling ⟨stored.inv.congr rfl rfl rfl rfl, stored.log⟩ rfl (Function.update_self _ _ _) rfl

theorem Good.ret {tick now : BitVec 32} (good : Good start c) (phase : c.phase = .calling tick h)
    (ahead : ∀ info, c.pool h = some info → info.count ≠ 0 →
      0 < dist c.last_tick (now + info.elapse) ∧ dist c.last_tick (now + info.elapse) < 2 ^ 31) :
    Good start (c.ret tick h now) := by
  have kept := good.keptTrue (by rw [phase]; rfl)
  obtain ⟨info, pool, unlinked⟩ := good.called tick h phase
  have off : Off c h := .of_pool pool unlinked
  unfold CTimerLayering.ret
  rw [pool]
  dsimp only
  split_ifs with ended
  · have stored : Kept start true (c.store h none) := kept.store off (by simp)
    exact .working ⟨stored.inv.congr rfl rfl rfl rfl, stored.log⟩ rfl
  · have armed : Kept start true ((c.addTimerInfo h { info with expires := now + info.elapse }).record
        (.armed h (now + info.elapse))) := kept.arm off (ahead info pool ended)
    exact .working ⟨armed.inv.congr rfl rfl rfl rfl, armed.log⟩ rfl

theorem Good.step {d : CTimerLayering} {a : Action} (good : Good start c) (ok : Admissible c a)
    (next : step c a = some d) : Good start d := by
  cases a with
  | addTimer elapse count data room =>
    simp only [Layering.step] at next
    split_ifs at next
    exact good.addTimer next
  | adjustTimer h elapse count data =>
    simp only [Layering.step] at next
    split_ifs at next
    rw [← Option.some.inj next]
    exact good.adjustTimer ok
  | removeTimer h =>
    simp only [Layering.step] at next
    split_ifs at next
    rw [← Option.some.inj next]
    exact good.removeTimer
  | update tick =>
    simp only [Layering.step] at next
    split_ifs at next with idle
    rw [← Option.some.inj next]
    have kept := good.kept
    have rest := good.rest
    rw [idle] at kept rest
    exact ⟨⟨kept.inv.congr rfl rfl rfl rfl, kept.log⟩, rest, by simp⟩
  | go =>
    simp only [Layering.step] at next
    split at next
    · next phase =>
      rw [← Option.some.inj next]
      exact good.loop phase
    · next phase =>
      rw [← Option.some.inj next]
      exact good.take phase
    · cases next
  | ret now =>
    simp only [Layering.step] at next
    split at next
    · next tick h phase =>
      rw [← Option.some.inj next]
      exact good.ret phase fun info pool ended => ok tick h info phase pool ended
    · cases next

end Steps

theorem good_init (start : BitVec 32) : Good start (.init start) where
  kept := by
    refine ⟨⟨?_, ?_, ?_, ?_⟩, .nil⟩
    · intro p
      cases p <;> exact List.nodup_nil
    · intro p q h mem
      cases p <;> cases mem
    · intro p h mem
      cases p <;> cases mem
    · intro h info pool
      cases pool
  rest _ := rfl
  called := by simp [CTimerLayering.init]

/-- `h` is in one list only, once, and a slot it is in exists. -/
def OnePlace (c : CTimerLayering) (h : Handle) : Prop :=
  ∃ p, (c.list [] p).count h = 1 ∧ (∀ q, h ∈ c.list [] q → q = p) ∧ ∀ l i, p = .slot l i → i < l.size

theorem Inv.onePlace {c : CTimerLayering} {done : Level → Bool} (inv : Inv c [] none done 0) {h : Handle}
    {info : STimerInfo} (pool : c.pool h = some info) (linked : info.linked = true) : OnePlace c h := by
  obtain ⟨p, mem⟩ := (inv.found h info pool linked).resolve_right (by simp)
  refine ⟨p, List.count_eq_one_of_mem (inv.nodup p) mem, fun q mem' => inv.once q p h mem' mem, ?_⟩
  rintro l i rfl
  obtain ⟨info', -, -, fits⟩ := inv.fits _ h mem
  rw [Placed.slot fits, l.index_eq]
  exact Nat.mod_lt _ (by cases l <;> decide)

/-- In the loop over the work list, the timers to take out are due at this tick; and the
tick does not end while a linked timer is due at it. -/
def TakesDue (c : CTimerLayering) : Prop :=
  ∀ tick, c.phase = .working tick →
    (∀ h ∈ c.work_list, ∃ info, c.pool h = some info ∧ info.expires = c.last_tick) ∧
      (c.work_list = [] → ∀ h info, c.pool h = some info → info.linked = true → info.expires ≠ c.last_tick)

theorem Good.takesDue {start : BitVec 32} {c : CTimerLayering} (good : Good start c) : TakesDue c := by
  intro tick phase
  have inv := (good.keptTrue (by rw [phase]; rfl)).inv
  constructor
  · intro h mem
    obtain ⟨info, pool, -, now⟩ := inv.fits .work h mem
    exact ⟨info, pool, now⟩
  · intro empty h info pool linked now
    apply inv.noneDue empty h
    simp [CTimerLayering.alarms, due, pool, linked, now]

/-- **Exact timers.** From any start tick, after any run of calls, clock readings and
callbacks: every timer that is linked is in one place; what is taken out is due at this tick
and nothing due is left behind; and the log is the log of an alarm clock: each timer armed
is taken out at its due tick or disarmed before. -/
theorem timers_exact (start : BitVec 32) (as : List Action) (c : CTimerLayering)
    (run : Runs step Admissible (.init start) as c) :
    (∀ h info, c.pool h = some info → info.linked = true → OnePlace c h) ∧ TakesDue c ∧
      Alarms.Follows (Alarms.silent start) c.log c.alarms := by
  have good := run.invariant (Good start) (good_init start) fun _ _ _ good ok next => good.step ok next
  exact ⟨fun h info => good.kept.inv.onePlace, good.takesDue, good.kept.log⟩

/-- `Admissible`, as a test. -/
def admissible (c : CTimerLayering) : Action → Bool
  | .adjustTimer _ elapse _ _ => decide (0 < elapse.toInt)
  | .ret now => match c.phase with
    | .calling _ h => match c.pool h with
      | some info => decide (0 < dist c.last_tick (now + info.elapse) ∧ dist c.last_tick (now + info.elapse) < 2 ^ 31)
      | none => true
    | _ => true
  | _ => true

theorem admissible_sound (c : CTimerLayering) (a : Action) (ok : admissible c a = true) : Admissible c a := by
  cases a with
  | adjustTimer h elapse count data => simpa [admissible, Admissible] using ok
  | ret now =>
    intro tick h info phase pool _
    simpa [admissible, phase, pool] using ok
  | addTimer elapse count data room => trivial
  | removeTimer h => trivial
  | update tick => trivial
  | go => trivial

/-- A timer of two calls across the wrap of the tick counter, adjusted in its first callback. -/
def wrapRun : List Action :=
  [.addTimer 1 2 0 (some 8), .update 3, .go, .go, .go, .go, .adjustTimer 8 2 1 0, .ret 3, .go, .go, .go]

def wrapState : CTimerLayering := (runChecked step admissible (.init 0xffffffff) wrapRun).getD (.init 0)

theorem timers_exact_wrap : wrapState.log = [.armed 8 0, .ticked, .taken 8, .armed 8 5, .ticked, .ticked] ∧
    OnePlace wrapState 8 ∧ Alarms.Follows (Alarms.silent 0xffffffff) wrapState.log wrapState.alarms := by
  have checked : runChecked step admissible (.init 0xffffffff) wrapRun = some wrapState :=
    (Option.some_get (by rfl)).symm
  have run : Runs step Admissible (.init 0xffffffff) wrapRun wrapState := Runs.of_checked admissible_sound checked
  obtain ⟨place, -, log⟩ := timers_exact 0xffffffff wrapRun wrapState run
  exact ⟨by decide +kernel, place 8 ⟨true, 5, 2, 1, 0⟩ (by decide +kernel) rfl, log⟩

end GameServer.Timers.Layering
